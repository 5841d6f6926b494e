import Sinux.Mm.Slab

/-!
# The invariant of a slab cache

`CacheInv s c P F`: the partial list of the cache `c` is `P`, its full list is `F`, and every slab
on them is a used page whose counter agrees with its bitmap. `Obj s size l` are the objects handed
out of the slabs `l`: the set bits.

* `slabAlloc_spec`: `slab_alloc` ends, finds its object in the slab it looks at first, and adds one
  object, or finds no free page and changes nothing.
* `slabFree_spec`: `slab_free` of an object ends and takes exactly that object away.
-/

namespace Sinux.Mm

open Sinux.Lib

/-! ## Object addresses -/

theorem slabTotal_toNat (size : U64) : (slabTotal size).toNat = min (4040 / size.toNat) 256 := by
  have hle : 4040 / size.toNat ≤ 4040 := Nat.div_le_self _ _
  have ht : ((4040#64 / size).setWidth 32).toNat = 4040 / size.toNat := by
    rw [BitVec.toNat_setWidth, BitVec.toNat_udiv, show (4040#64).toNat = 4040 from rfl]
    exact Nat.mod_eq_of_lt (by omega)
  unfold slabTotal
  dsimp only
  split
  · next h =>
    rw [BitVec.lt_def, ht, show slabMaxObjs.toNat = 256 from rfl] at h
    rw [show slabMaxObjs.toNat = 256 from rfl]
    omega
  · next h =>
    rw [BitVec.lt_def, ht, show slabMaxObjs.toNat = 256 from rfl] at h
    rw [ht]
    omega

/-- Sizes for which a slab has room for an object. -/
structure ObjSize (size : U64) : Prop where
  pos : 0 < size.toNat
  le : size.toNat ≤ 4040

variable {size : U64} {idx : Nat}

theorem slabTotal_le (size : U64) : (slabTotal size).toNat ≤ 256 := by
  rw [slabTotal_toNat]
  exact Nat.min_le_right _ _

theorem ObjSize.total_pos (h : ObjSize size) : 0 < (slabTotal size).toNat := by
  rw [slabTotal_toNat]
  have : 0 < 4040 / size.toNat := Nat.div_pos h.le h.pos
  omega

theorem obj_end (hi : idx < (slabTotal size).toNat) : (idx + 1) * size.toNat ≤ 4040 := by
  rw [slabTotal_toNat] at hi
  calc (idx + 1) * size.toNat
      ≤ 4040 / size.toNat * size.toNat := Nat.mul_le_mul_right _ (by omega)
    _ ≤ 4040 := Nat.div_mul_le_self _ _

/-- Object `idx` of the slab at `slab`. -/
def objAddr (slab size : U64) (idx : Nat) : U64 :=
  slab + 56 + (BitVec.ofNat 32 idx * size.setWidth 32).setWidth 64

variable {slab : U64}

theorem objAddr_toNat (hs : Aligned slab) (hz : ObjSize size)
    (hi : idx < (slabTotal size).toNat) :
    (objAddr slab size idx).toNat = pageOf slab * 4096 + 56 + idx * size.toNat := by
  have hend := obj_end hi
  rw [Nat.succ_mul] at hend
  have hT := slabTotal_le size
  have hmul : (BitVec.ofNat 32 idx * size.setWidth 32).toNat = idx * size.toNat := by
    rw [BitVec.toNat_mul, BitVec.toNat_ofNat, BitVec.toNat_setWidth,
      Nat.mod_eq_of_lt (by omega : idx < 2 ^ 32),
      Nat.mod_eq_of_lt (by have := hz.le; omega : size.toNat < 2 ^ 32)]
    exact Nat.mod_eq_of_lt (by omega)
  have hlt := pageOf_lt slab
  have hpos := hz.pos
  unfold objAddr
  rw [BitVec.toNat_add, BitVec.toNat_add, BitVec.toNat_setWidth, hmul, hs.toNat,
    show (56 : U64).toNat = 56 from rfl]
  generalize idx * size.toNat = k at hend ⊢
  omega

theorem pageOf_objAddr (hs : Aligned slab) (hz : ObjSize size)
    (hi : idx < (slabTotal size).toNat) : pageOf (objAddr slab size idx) = pageOf slab := by
  have hend := obj_end hi
  rw [Nat.succ_mul] at hend
  have hpos := hz.pos
  unfold pageOf at *
  rw [objAddr_toNat hs hz hi, pageOf]
  generalize idx * size.toNat = k at hend ⊢
  omega

theorem objAddr_inj {slab' : U64} {idx' : Nat} (hs : Aligned slab) (hs' : Aligned slab')
    (hz : ObjSize size) (hi : idx < (slabTotal size).toNat) (hi' : idx' < (slabTotal size).toNat)
    (h : objAddr slab size idx = objAddr slab' size idx') : slab = slab' ∧ idx = idx' := by
  have hp : pageOf slab = pageOf slab' := by
    rw [← pageOf_objAddr hs hz hi, h, pageOf_objAddr hs' hz hi']
  have hn := congrArg BitVec.toNat h
  rw [objAddr_toNat hs hz hi, objAddr_toNat hs' hz hi', hp] at hn
  exact ⟨hs.inj hs' hp, Nat.eq_of_mul_eq_mul_right hz.pos (by omega)⟩

theorem objAddr_ne_zero (hs : Aligned slab) (hz : ObjSize size)
    (hi : idx < (slabTotal size).toNat) : objAddr slab size idx ≠ 0 := by
  intro h
  have hn := congrArg BitVec.toNat h
  rw [objAddr_toNat hs hz hi, show (0 : U64).toNat = 0 from rfl] at hn
  omega

/-! ## The invariant -/

/-- A slab header for objects of `size` bytes whose counter is the number of clear bits. -/
structure SlabHeader.Ok (size : U64) (h : SlabHeader) : Prop where
  magic : h.magic = slabMagic
  objSize : h.objSize = size.setWidth 32
  totalObjs : h.totalObjs = slabTotal size
  freeObjs : h.freeObjs.toNat =
    PackedBits.clearCount (bitmapWords h.freeBitmap) (slabTotal size).toNat

/-- `slab->next`. -/
def nextOf (s : Phys) (p : U64) : U64 := (headerAt s p).next

/-- The lists `P` and `F` of the cache `c` are what memory holds. -/
structure CacheInv (s : Phys) (c : SlabCache) (P F : List U64) : Prop where
  partialList : Chain (nextOf s) 0 c.partialHead P
  fullList : Chain (nextOf s) 0 c.fullHead F
  disjoint : ∀ p ∈ P, p ∉ F
  count : c.numSlabs.toNat = P.length + F.length
  aligned : ∀ p ∈ P ++ F, Aligned p
  used : ∀ p ∈ P ++ F, s.pmm.Used (pageOf p)
  ok : ∀ p ∈ P ++ F, (headerAt s p).Ok c.objSize
  partialFree : ∀ p ∈ P, (headerAt s p).freeObjs ≠ 0
  fullFree : ∀ p ∈ F, (headerAt s p).freeObjs = 0

/-- Object `idx` of a slab in `l` is handed out at `q`. -/
def Obj (s : Phys) (size : U64) (l : List U64) (q : U64) : Prop :=
  ∃ p ∈ l, ∃ idx, idx < (slabTotal size).toNat ∧
    PackedBits.test (bitmapWords (headerAt s p).freeBitmap) idx = true ∧ q = objAddr p size idx

variable {s s' : Phys} {c : SlabCache} {P F : List U64}

namespace CacheInv

theorem nodup (h : CacheInv s c P F) : (P ++ F).Nodup :=
  List.nodup_append.mpr ⟨h.partialList.nodup, h.fullList.nodup,
    fun p hp _ hq hpq => h.disjoint p hp (hpq ▸ hq)⟩

theorem length_le (h : CacheInv s c P F) : P.length + F.length ≤ s.pmm.totalPages := by
  have hnd : ((P ++ F).map pageOf).Nodup :=
    (List.nodup_map_iff_inj_on h.nodup).mpr fun p hp q hq hpq =>
      (h.aligned p hp).inj (h.aligned q hq) hpq
  have hsub : (P ++ F).map pageOf ⊆ List.range s.pmm.totalPages := by
    intro f hf
    obtain ⟨p, hp, rfl⟩ := List.mem_map.mp hf
    exact List.mem_range.mpr (h.used p hp).1
  have hlen := (hnd.subperm hsub).length_le
  rwa [List.length_map, List.length_append, List.length_range] at hlen

theorem ne_zero (h : CacheInv s c P F) {p : U64} (hp : p ∈ P ++ F) : p ≠ 0 :=
  (List.mem_append.mp hp).elim h.partialList.ne_null h.fullList.ne_null

theorem congr (h : CacheInv s c P F) (hh : ∀ p ∈ P ++ F, headerAt s' p = headerAt s p)
    (hu : ∀ p ∈ P ++ F, s'.pmm.Used (pageOf p)) : CacheInv s' c P F where
  partialList := h.partialList.congr fun p hp =>
    congrArg SlabHeader.next (hh p (List.mem_append_left F hp))
  fullList := h.fullList.congr fun p hp =>
    congrArg SlabHeader.next (hh p (List.mem_append_right P hp))
  disjoint := h.disjoint
  count := h.count
  aligned := h.aligned
  used := hu
  ok := fun p hp => hh p hp ▸ h.ok p hp
  partialFree := fun p hp => hh p (List.mem_append_left F hp) ▸ h.partialFree p hp
  fullFree := fun p hp => hh p (List.mem_append_right P hp) ▸ h.fullFree p hp

end CacheInv

theorem obj_congr {l : List U64} (hh : ∀ p ∈ l, headerAt s' p = headerAt s p) (q : U64) :
    Obj s' size l q ↔ Obj s size l q := by
  unfold Obj
  refine exists_congr fun p => and_congr_right fun hp => ?_
  rw [hh p hp]

theorem Obj.bounds {l : List U64} (hal : ∀ p ∈ l, Aligned p) (hz : ObjSize size) {q : U64}
    (h : Obj s size l q) : ∃ p ∈ l, pageOf q = pageOf p ∧ pageOf q * 4096 + 56 ≤ q.toNat ∧
      q.toNat + size.toNat ≤ (pageOf q + 1) * 4096 := by
  obtain ⟨p, hp, idx, hi, _, rfl⟩ := h
  have hend := obj_end hi
  rw [Nat.succ_mul] at hend
  have hpg := pageOf_objAddr (hal p hp) hz hi
  refine ⟨p, hp, hpg, ?_⟩
  rw [hpg, objAddr_toNat (hal p hp) hz hi]
  omega

theorem Obj.disjoint {l : List U64} (hal : ∀ p ∈ l, Aligned p) (hz : ObjSize size) {q q' : U64}
    (h : Obj s size l q) (h' : Obj s size l q') (hne : q ≠ q') :
    q.toNat + size.toNat ≤ q'.toNat ∨ q'.toNat + size.toNat ≤ q.toNat := by
  obtain ⟨p, hp, i, hi, _, rfl⟩ := h
  obtain ⟨p', hp', i', hi', _, rfl⟩ := h'
  have hend := obj_end hi
  have hend' := obj_end hi'
  rw [Nat.succ_mul] at hend hend'
  rw [objAddr_toNat (hal p hp) hz hi, objAddr_toNat (hal p' hp') hz hi']
  by_cases hpp : pageOf p = pageOf p'
  · -- in one slab the indices differ
    obtain rfl := (hal p hp).inj (hal p' hp') hpp
    rcases Nat.lt_trichotomy i i' with hlt | rfl | hlt
    · have := Nat.mul_le_mul_right size.toNat hlt
      rw [Nat.succ_mul] at this
      omega
    · exact absurd rfl hne
    · have := Nat.mul_le_mul_right size.toNat hlt
      rw [Nat.succ_mul] at this
      omega
  · omega

/-! ## Header writes -/

/-- From `s` to `s'` only headers of the pages in `l` were written. -/
structure HeaderWrites (l : List U64) (s s' : Phys) : Prop where
  pmm : s'.pmm = s.pmm
  payload : ∀ (g : Nat) (i : Fin 512), 7 ≤ i.val → s'.mem g i = s.mem g i
  others : ∀ g, (∀ p ∈ l, pageOf p ≠ g) → s'.mem g = s.mem g

namespace HeaderWrites

variable {l l' : List U64} {s'' : Phys}

theorem refl (l : List U64) (s : Phys) : HeaderWrites l s s :=
  ⟨rfl, fun _ _ _ => rfl, fun _ _ => rfl⟩

theorem trans (h : HeaderWrites l s s') (h' : HeaderWrites l s' s'') : HeaderWrites l s s'' :=
  ⟨h'.pmm.trans h.pmm, fun g i hi => (h'.payload g i hi).trans (h.payload g i hi),
    fun g hg => (h'.others g hg).trans (h.others g hg)⟩

theorem mono (h : HeaderWrites l s s') (hl : ∀ p ∈ l, p ∈ l') : HeaderWrites l' s s' :=
  ⟨h.pmm, h.payload, fun g hg => h.others g fun p hp => hg p (hl p hp)⟩

theorem setHeader {slab : U64} (hs : slab ∈ l) (upd : SlabHeader → SlabHeader) (s : Phys) :
    HeaderWrites l s (setHeader slab upd s) := by
  refine ⟨rfl, fun g i hi => ?_, fun g hg => ?_⟩
  · unfold Mm.setHeader writeHeader
    dsimp only
    rw [dif_neg (by omega), ite_self]
  · unfold Mm.setHeader writeHeader
    funext i
    exact if_neg fun h => hg slab hs h.symm

theorem headerAt (h : HeaderWrites l s s') (hal : ∀ q ∈ l, Aligned q) {p : U64} (hp : Aligned p)
    (hpl : p ∉ l) : headerAt s' p = Mm.headerAt s p := by
  refine readHeader_congr fun i _ => ?_
  rw [h.others _ fun q hq hqp => hpl ((hal q hq).inj hp hqp ▸ hq)]

end HeaderWrites

/-- The two headers differ in the link at most. -/
def SlabHeader.SameBody (h h' : SlabHeader) : Prop := h' = { h with next := h'.next }

namespace SlabHeader.SameBody

variable {h h' h'' : SlabHeader}

theorem refl (h : SlabHeader) : h.SameBody h := rfl

theorem trans (e : h.SameBody h') (e' : h'.SameBody h'') : h.SameBody h'' := by
  unfold SameBody at *
  rw [e', e]

theorem freeObjs (e : h.SameBody h') : h'.freeObjs = h.freeObjs := by
  unfold SameBody at e
  rw [e]

theorem freeBitmap (e : h.SameBody h') : h'.freeBitmap = h.freeBitmap := by
  unfold SameBody at e
  rw [e]

theorem ok (e : h.SameBody h') (hok : h.Ok size) : h'.Ok size := by
  unfold SameBody at e
  rw [e]
  exact ⟨hok.magic, hok.objSize, hok.totalObjs, hok.freeObjs⟩

end SlabHeader.SameBody

theorem sameBody_setNext (slab n p : U64) (s : Phys) :
    (headerAt s p).SameBody (headerAt (setHeader slab (fun h => { h with next := n }) s) p) := by
  rw [headerAt_setHeader]
  split
  · next h =>
    have : headerAt s slab = headerAt s p := congrArg (readHeader s.mem) h.symm
    rw [this]
    rfl
  · rfl

theorem nextOf_setNext (slab n : U64) (s : Phys) :
    nextOf (setHeader slab (fun h => { h with next := n }) s) slab = n := by
  unfold nextOf
  rw [headerAt_setHeader_self]

theorem nextOf_setHeader_ne {slab p : U64} (hs : Aligned slab) (hp : Aligned p) (hne : p ≠ slab)
    (upd : SlabHeader → SlabHeader) (s : Phys) : nextOf (setHeader slab upd s) p = nextOf s p := by
  unfold nextOf
  rw [headerAt_setHeader, if_neg fun h => hne (hp.inj hs h)]

theorem nextOf_setHeader (slab : U64) (upd : SlabHeader → SlabHeader)
    (hn : ∀ h, (upd h).next = h.next) (s : Phys) (p : U64) :
    nextOf (setHeader slab upd s) p = nextOf s p := by
  unfold nextOf
  rw [headerAt_setHeader]
  split
  · next h =>
    rw [hn]
    exact congrArg (fun f => (readHeader s.mem f).next) h.symm
  · rfl

/-! ## Moving a slab between lists -/

variable {head : U64} {l : List U64}

/-- **Unlinking** ends, and takes the slab out of its list. -/
theorem unlinkSlab_spec (hc : Chain (nextOf s) 0 head l) (hx : slab ∈ l)
    (hal : ∀ p ∈ l, Aligned p) (hlen : l.length ≤ s.pmm.totalPages) :
    ∃ head' s', unlinkSlab head slab s = some (head', s') ∧ HeaderWrites l s s' ∧
      (∀ p, (headerAt s p).SameBody (headerAt s' p)) ∧
      Chain (nextOf s') 0 head' (l.erase slab) := by
  unfold unlinkSlab
  by_cases he : head = slab
  · subst he
    rw [if_pos rfl]
    obtain ⟨l', rfl, hc'⟩ := hc.exists_cons (hc.ne_null hx)
    refine ⟨_, s, rfl, HeaderWrites.refl _ s, fun p => .refl _, ?_⟩
    rw [List.erase_cons_head]
    exact hc'
  · rw [if_neg he]
    obtain ⟨y, hy, hyl, hyx, hrest⟩ := hc.unlink hx he hlen
    have hy0 : y ≠ 0 := hc.ne_null hyl
    refine ⟨head, setHeader y (fun h => { h with next := nextOf s slab }) s, ?_,
      HeaderWrites.setHeader hyl _ s, fun p => sameBody_setNext y _ p s, hrest _ ?_ ?_⟩
    · show (findPrev (nextOf s) 0 slab s.pmm.totalPages head).bind _ = _
      rw [hy]
      exact if_neg hy0
    · exact nextOf_setNext y _ s
    · exact fun z hz hzy _ => nextOf_setHeader_ne (hal y hyl) (hal z hz) hzy _ s

/-- **Moving** a slab from the list `l` to the front of the list `l'`. -/
theorem moveSlab_spec {dst : U64} {l' : List U64} (hc : Chain (nextOf s) 0 head l)
    (hc' : Chain (nextOf s) 0 dst l') (hdis : ∀ p ∈ l, p ∉ l') (hx : slab ∈ l)
    (hal : ∀ p ∈ l, Aligned p) (hal' : ∀ p ∈ l', Aligned p)
    (hlen : l.length ≤ s.pmm.totalPages) :
    ∃ head' s', moveSlab head slab dst s = some (head', s') ∧ HeaderWrites l s s' ∧
      (∀ p, (headerAt s p).SameBody (headerAt s' p)) ∧
      Chain (nextOf s') 0 head' (l.erase slab) ∧ Chain (nextOf s') 0 slab (slab :: l') := by
  obtain ⟨head', s₁, he, hw, hb, hc₁⟩ := unlinkSlab_spec hc hx hal hlen
  have hw' := hw.trans (HeaderWrites.setHeader hx (fun h => { h with next := dst }) s₁)
  refine ⟨head', _, ?_, hw', fun p => (hb p).trans (sameBody_setNext slab dst p s₁), ?_, ?_⟩
  · unfold moveSlab
    rw [he]
    rfl
  · refine hc₁.congr fun z hz => ?_
    obtain ⟨hzx, hzl⟩ := (List.Nodup.mem_erase_iff hc.nodup).mp hz
    exact nextOf_setHeader_ne (hal slab hx) (hal z hzl) hzx _ s₁
  · refine hc'.push (hc.ne_null hx) ?_ fun y hy => ?_
    · exact nextOf_setNext slab dst s₁
    · exact congrArg SlabHeader.next
        (hw'.headerAt hal (hal' y hy) fun hyl => hdis y hyl hy)

/-! ## One slab changes -/

section Update

variable {c' : SlabCache} {P' F' : List U64}

/-- A change of one header that keeps its link: the other headers and both lists stay. -/
theorem CacheInv.edit (h : CacheInv s c P F) (hx : slab ∈ P ++ F) (upd : SlabHeader → SlabHeader)
    (hn : ∀ h, (upd h).next = h.next) :
    HeaderWrites (P ++ F) s (setHeader slab upd s) ∧
      headerAt (setHeader slab upd s) slab = upd (headerAt s slab) ∧
      (∀ p ∈ P ++ F, p ≠ slab → headerAt (setHeader slab upd s) p = headerAt s p) ∧
      Chain (nextOf (setHeader slab upd s)) 0 c.partialHead P ∧
      Chain (nextOf (setHeader slab upd s)) 0 c.fullHead F := by
  have hnext := nextOf_setHeader slab upd hn s
  refine ⟨HeaderWrites.setHeader hx upd s, headerAt_setHeader_self slab upd s, fun p hp hps => ?_,
    h.partialList.congr fun p _ => hnext p, h.fullList.congr fun p _ => hnext p⟩
  rw [headerAt_setHeader, if_neg fun he => hps ((h.aligned p hp).inj (h.aligned slab hx) he)]

/-- The invariant after the header of `slab` changed and the lists were relinked: what is left to
check is the new lists and the new header. -/
theorem CacheInv.update (h : CacheInv s c P F) (slab : U64) (hw : HeaderWrites (P ++ F) s s')
    (hsize : c'.objSize = c.objSize) (hcount : c'.numSlabs = c.numSlabs)
    (hlen : P'.length + F'.length = P.length + F.length)
    (hmem : ∀ p ∈ P' ++ F', p ∈ P ++ F) (hdis : ∀ p ∈ P', p ∉ F')
    (hP : Chain (nextOf s') 0 c'.partialHead P') (hF : Chain (nextOf s') 0 c'.fullHead F')
    (hbody : ∀ p ∈ P ++ F, p ≠ slab → (headerAt s p).SameBody (headerAt s' p))
    (hok : (headerAt s' slab).Ok c.objSize)
    (hPold : ∀ p ∈ P', p ≠ slab → p ∈ P) (hFold : ∀ p ∈ F', p ≠ slab → p ∈ F)
    (hPfree : slab ∈ P' → (headerAt s' slab).freeObjs ≠ 0)
    (hFfree : slab ∈ F' → (headerAt s' slab).freeObjs = 0) : CacheInv s' c' P' F' where
  partialList := hP
  fullList := hF
  disjoint := hdis
  count := by rw [hcount, h.count, hlen]
  aligned := fun p hp => h.aligned p (hmem p hp)
  used := fun p hp => hw.pmm ▸ h.used p (hmem p hp)
  ok := fun p hp => by
    rw [hsize]
    by_cases hps : p = slab
    · exact hps ▸ hok
    · exact (hbody p (hmem p hp) hps).ok (h.ok p (hmem p hp))
  partialFree := fun p hp => by
    by_cases hps : p = slab
    · exact hps ▸ hPfree (hps ▸ hp)
    · rw [(hbody p (hmem p (List.mem_append_left F' hp)) hps).freeObjs]
      exact h.partialFree p (hPold p hp hps)
  fullFree := fun p hp => by
    by_cases hps : p = slab
    · exact hps ▸ hFfree (hps ▸ hp)
    · rw [(hbody p (hmem p (List.mem_append_right P' hp)) hps).freeObjs]
      exact h.fullFree p (hFold p hp hps)

variable {l l' : List U64}

theorem obj_insert (hx : slab ∈ l) (hi : idx < (slabTotal size).toNat) (hmem : ∀ p, p ∈ l' ↔ p ∈ l)
    (hbody : ∀ p ∈ l, p ≠ slab → (headerAt s' p).freeBitmap = (headerAt s p).freeBitmap)
    (hbit : bitmapWords (headerAt s' slab).freeBitmap =
      PackedBits.set (bitmapWords (headerAt s slab).freeBitmap) idx) (q : U64) :
    Obj s' size l' q ↔ Obj s size l q ∨ q = objAddr slab size idx := by
  constructor
  · rintro ⟨p, hp, i, hiT, ht, rfl⟩
    have hp := (hmem p).mp hp
    by_cases hps : p = slab
    · subst hps
      rw [hbit, PackedBits.test_set (by decide), Bool.or_eq_true, decide_eq_true_eq] at ht
      rcases ht with rfl | ht
      · exact Or.inr rfl
      · exact Or.inl ⟨p, hp, i, hiT, ht, rfl⟩
    · rw [hbody p hp hps] at ht
      exact Or.inl ⟨p, hp, i, hiT, ht, rfl⟩
  · rintro (⟨p, hp, i, hiT, ht, rfl⟩ | rfl)
    · refine ⟨p, (hmem p).mpr hp, i, hiT, ?_, rfl⟩
      by_cases hps : p = slab
      · subst hps
        rw [hbit, PackedBits.test_set (by decide), ht, Bool.or_true]
      · rw [hbody p hp hps, ht]
    · refine ⟨slab, (hmem slab).mpr hx, idx, hi, ?_, rfl⟩
      rw [hbit, PackedBits.test_set (by decide), decide_eq_true rfl, Bool.true_or]

theorem obj_erase (hz : ObjSize size) (hx : slab ∈ l) (hi : idx < (slabTotal size).toNat)
    (hal : ∀ p ∈ l, Aligned p) (hmem : ∀ p, p ∈ l' ↔ p ∈ l)
    (hbody : ∀ p ∈ l, p ≠ slab → (headerAt s' p).freeBitmap = (headerAt s p).freeBitmap)
    (hbit : bitmapWords (headerAt s' slab).freeBitmap =
      PackedBits.clear (bitmapWords (headerAt s slab).freeBitmap) idx) (q : U64) :
    Obj s' size l' q ↔ Obj s size l q ∧ q ≠ objAddr slab size idx := by
  constructor
  · rintro ⟨p, hp, i, hiT, ht, rfl⟩
    have hp := (hmem p).mp hp
    by_cases hps : p = slab
    · subst hps
      rw [hbit, PackedBits.test_clear (by decide), Bool.and_eq_true, Bool.not_eq_true',
        decide_eq_false_iff_not] at ht
      refine ⟨⟨p, hp, i, hiT, ht.2, rfl⟩, fun he => ht.1 ?_⟩
      exact (objAddr_inj (hal p hp) (hal p hp) hz hiT hi he).2.symm
    · rw [hbody p hp hps] at ht
      exact ⟨⟨p, hp, i, hiT, ht, rfl⟩,
        fun he => hps (objAddr_inj (hal p hp) (hal slab hx) hz hiT hi he).1⟩
  · rintro ⟨⟨p, hp, i, hiT, ht, rfl⟩, hne⟩
    refine ⟨p, (hmem p).mpr hp, i, hiT, ?_, rfl⟩
    by_cases hps : p = slab
    · subst hps
      rw [hbit, PackedBits.test_clear (by decide), ht, Bool.and_true, Bool.not_eq_true',
        decide_eq_false_iff_not]
      rintro rfl
      exact hne rfl
    · rw [hbody p hp hps, ht]

theorem mem_move {x : U64} (hnd : l.Nodup) (hx : x ∈ l) (y : U64) :
    (y ∈ l.erase x ∨ y ∈ x :: l') ↔ (y ∈ l ∨ y ∈ l') := by
  rw [hnd.mem_erase_iff, List.mem_cons]
  by_cases hy : y = x
  · subst hy
    simp [hx]
  · simp [hy]

theorem disjoint_move {x : U64} (hnd : l.Nodup) (hdis : ∀ p ∈ l, p ∉ l') (y : U64)
    (hy : y ∈ l.erase x) : y ∉ x :: l' := by
  obtain ⟨hyx, hyl⟩ := hnd.mem_erase_iff.mp hy
  intro h
  rcases List.mem_cons.mp h with h | h
  · exact hyx h
  · exact hdis y hyl h

end Update

/-! ## `slab_alloc` -/

theorem CacheInv.findFree (h : CacheInv s c P F) (hx : slab ∈ P) :
    ∃ idx,
      bitmapFindFree (headerAt s slab).freeBitmap (headerAt s slab).totalObjs.toNat = some idx ∧
      idx < (slabTotal c.objSize).toNat ∧
      PackedBits.test (bitmapWords (headerAt s slab).freeBitmap) idx = false := by
  have hok := h.ok slab (List.mem_append_left F hx)
  rw [hok.totalObjs, bitmapFindFree_eq (slabTotal_le _)]
  cases hf : PackedBits.firstClear (bitmapWords (headerAt s slab).freeBitmap)
      (slabTotal c.objSize).toNat with
  | some idx =>
    obtain ⟨hlt, hc, _⟩ := PackedBits.firstClear_eq_some.mp hf
    exact ⟨idx, rfl, hlt, hc⟩
  | none =>
    -- with every bit set the counter would be 0
    have hall := PackedBits.firstClear_eq_none.mp hf
    refine absurd (BitVec.eq_of_toNat_eq ?_) (h.partialFree slab hx)
    rw [hok.freeObjs]
    by_contra hpos
    obtain ⟨i, hi, hc⟩ := PackedBits.clearCount_pos_iff.mp (Nat.pos_of_ne_zero hpos)
    rw [hall i hi] at hc
    exact Bool.noConfusion hc

/-- The header of an empty slab. -/
def emptyHeader (size next : U64) : SlabHeader :=
  ⟨slabMagic, size.setWidth 32, slabTotal size, slabTotal size, fun _ => 0, next⟩

theorem emptyHeader_test (size next : U64) (i : Nat) :
    PackedBits.test (bitmapWords (emptyHeader size next).freeBitmap) i = false := by
  show (bitmapWords (fun _ => 0) (i / 64)).getLsbD (i % 64) = false
  unfold bitmapWords
  split <;> exact BitVec.getLsbD_zero

theorem emptyHeader_ok (size next : U64) : (emptyHeader size next).Ok size :=
  ⟨rfl, rfl, rfl, (Nat.count_iff_forall.mpr fun i _ => emptyHeader_test size next i).symm⟩

/-- What a call does besides its objects: it may take a page for a new slab, and it writes the
headers of the cache's slabs only. -/
structure Touches (s : Phys) (l : List U64) (s' : Phys) (l' : List U64) : Prop where
  pages : (s'.pmm = s.pmm ∧ ∀ p, p ∈ l' ↔ p ∈ l) ∨
    ∃ i, s.pmm.Free i ∧ s'.pmm = s.pmm.mark i ∧ ∀ p, p ∈ l' ↔ p = pageAddr i ∨ p ∈ l
  payload : ∀ (g : Nat) (i : Fin 512), 7 ≤ i.val → s'.mem g i = s.mem g i
  others : ∀ g, (∀ p ∈ l', pageOf p ≠ g) → s'.mem g = s.mem g

theorem Touches.refl (s : Phys) (l : List U64) : Touches s l s l :=
  ⟨Or.inl ⟨rfl, fun _ => Iff.rfl⟩, fun _ _ _ => rfl, fun _ _ => rfl⟩

theorem Touches.write {l l' l'' : List U64} {s'' : Phys} (h : Touches s l s' l')
    (hw : HeaderWrites l' s' s'') (hl : ∀ p, p ∈ l'' ↔ p ∈ l') : Touches s l s'' l'' where
  pages := by
    rcases h.pages with ⟨hp, hm⟩ | ⟨i, hf, hp, hm⟩
    · exact Or.inl ⟨hw.pmm.trans hp, fun p => (hl p).trans (hm p)⟩
    · exact Or.inr ⟨i, hf, hw.pmm.trans hp, fun p => (hl p).trans (hm p)⟩
  payload := fun g i hi => (hw.payload g i hi).trans (h.payload g i hi)
  others := fun g hg => (hw.others g fun p hp => hg p ((hl p).mpr hp)).trans
    (h.others g fun p hp => hg p ((hl p).mpr hp))

/-- The slabs after an allocation are those of before and perhaps a page that was free. -/
theorem Touches.pmm {phys phys' : Phys} {l l' : List U64} (ht : Touches phys l phys' l')
    (hv : phys.pmm.Valid) : phys'.pmm.Valid ∧
      (∀ g, phys.pmm.Used g → phys'.pmm.Used g) ∧ (∀ g, phys'.pmm.Free g → phys.pmm.Free g) ∧
      ∀ p ∈ l', p ∈ l ∨ phys.pmm.Free (pageOf p) := by
  rcases ht.pages with ⟨hp, hm⟩ | ⟨f, hf, hp, hm⟩
  · rw [hp]
    exact ⟨hv, fun _ h => h, fun _ h => h, fun p hpl => Or.inl ((hm p).mp hpl)⟩
  · rw [hp]
    refine ⟨hv.mark hf, fun g hg => (Pmm.used_mark hf.1).mpr (Or.inl hg),
      fun g hg => (Pmm.free_mark.mp hg).1, fun p hpl => ?_⟩
    rcases (hm p).mp hpl with rfl | hpl
    · rw [pageOf_pageAddr hf.lt]
      exact Or.inr hf
    · exact Or.inl hpl

theorem CacheInv.cons {i : Nat} {c' : SlabCache} (h : CacheInv s c P F) (hz : ObjSize c.objSize)
    (hf : s.pmm.Free i) (h0 : pageAddr i ≠ 0) (hpmm : s'.pmm = s.pmm.mark i)
    (hnew : headerAt s' (pageAddr i) = emptyHeader c.objSize c.partialHead)
    (hold : ∀ p ∈ P ++ F, headerAt s' p = headerAt s p) (hsize : c'.objSize = c.objSize)
    (hhead : c'.partialHead = pageAddr i) (hfull : c'.fullHead = c.fullHead)
    (hcount : c'.numSlabs = c.numSlabs + 1) : CacheInv s' c' (pageAddr i :: P) F where
  partialList := by
    rw [hhead]
    refine h.partialList.push h0 ?_ fun p hp => ?_
    · exact congrArg SlabHeader.next hnew
    · exact congrArg SlabHeader.next (hold p (List.mem_append_left F hp))
  fullList := by
    rw [hfull]
    exact h.fullList.congr fun p hp =>
      congrArg SlabHeader.next (hold p (List.mem_append_right P hp))
  disjoint := fun p hp hpF => by
    rcases List.mem_cons.mp hp with rfl | hp
    · have hu := h.used _ (List.mem_append_right P hpF)
      rw [pageOf_pageAddr hf.lt] at hu
      exact Pmm.not_free_of_used hu hf
    · exact h.disjoint p hp hpF
  count := by
    have hle := h.length_le
    have htot := s.pmm.total_le
    unfold bitmapMaxPages at htot
    rw [hcount, BitVec.toNat_add, h.count, List.length_cons, show (1 : U64).toNat = 1 from rfl]
    omega
  aligned := fun p hp => by
    rcases List.mem_cons.mp hp with rfl | hp
    · exact aligned_pageAddr hf.lt
    · exact h.aligned p hp
  used := fun p hp => by
    rw [hpmm, Pmm.used_mark hf.1]
    rcases List.mem_cons.mp hp with rfl | hp
    · exact Or.inr (pageOf_pageAddr hf.lt)
    · exact Or.inl (h.used p hp)
  ok := fun p hp => by
    rw [hsize]
    rcases List.mem_cons.mp hp with rfl | hp
    · rw [hnew]
      exact emptyHeader_ok _ _
    · rw [hold p hp]
      exact h.ok p hp
  partialFree := fun p hp => by
    rcases List.mem_cons.mp hp with rfl | hp
    · rw [hnew]
      intro hT
      have hpos := hz.total_pos
      rw [show slabTotal c.objSize = 0 from hT] at hpos
      exact absurd hpos (lt_irrefl 0)
    · rw [hold p (List.mem_append_left F hp)]
      exact h.partialFree p hp
  fullFree := fun p hp => by
    rw [hold p (List.mem_append_right P hp)]
    exact h.fullFree p hp

theorem slabGrow_spec (h : CacheInv s c P F) (hz : ObjSize c.objSize) (hv : s.pmm.Valid) :
    ((∀ i, ¬ s.pmm.Free i) ∧ slabGrow c s = (0, c, s)) ∨
      ∃ i c' s', s.pmm.Free i ∧ pageAddr i ≠ 0 ∧ slabGrow c s = (pageAddr i, c', s') ∧
        c'.objSize = c.objSize ∧ CacheInv s' c' (pageAddr i :: P) F ∧
        Touches s (P ++ F) s' (pageAddr i :: P ++ F) ∧
        ∀ q, Obj s' c.objSize (pageAddr i :: P ++ F) q ↔ Obj s c.objSize (P ++ F) q := by
  unfold slabGrow slabCreate
  rcases Phys.alloc_cases hv with ⟨hn, he⟩ | ⟨i, hf, _, h0, he⟩
  · rw [he]
    exact Or.inl ⟨hn, rfl⟩
  · right
    rw [he]
    dsimp only
    rw [if_neg h0]
    dsimp only
    rw [if_neg h0]
    refine ⟨i, _, _, hf, h0, rfl, rfl, ?_⟩
    generalize hs₁ : ({ s with pmm := s.pmm.mark i } : Phys) = s₁
    have hpmm₁ : s₁.pmm = s.pmm.mark i := by rw [← hs₁]
    have hmem₁ : s₁.mem = s.mem := by rw [← hs₁]
    generalize hs₂ : setHeader (pageAddr i) _ s₁ = s₂
    have hw : HeaderWrites [pageAddr i] s₁
        (setHeader (pageAddr i) (fun h => { h with next := c.partialHead }) s₂) := by
      rw [← hs₂]
      exact (HeaderWrites.setHeader List.mem_cons_self _ _).trans
        (HeaderWrites.setHeader List.mem_cons_self _ _)
    have hnew : headerAt (setHeader (pageAddr i) (fun h => { h with next := c.partialHead }) s₂)
        (pageAddr i) = emptyHeader c.objSize c.partialHead := by
      rw [headerAt_setHeader_self, ← hs₂, headerAt_setHeader_self]
      rfl
    generalize setHeader (pageAddr i) (fun h => { h with next := c.partialHead }) s₂ = s₃
      at hw hnew ⊢
    have hold : ∀ p ∈ P ++ F, headerAt s₃ p = headerAt s p := by
      intro p hp
      have hal : ∀ q ∈ [pageAddr i], Aligned q := fun q hq =>
        List.mem_singleton.mp hq ▸ aligned_pageAddr hf.lt
      rw [hw.headerAt hal (h.aligned p hp) fun hpi => ?_]
      · exact congrArg (readHeader · _) hmem₁
      · have hu := h.used p hp
        rw [List.mem_singleton.mp hpi, pageOf_pageAddr hf.lt] at hu
        exact Pmm.not_free_of_used hu hf
    refine ⟨h.cons hz hf h0 (hw.pmm.trans hpmm₁) hnew hold rfl rfl rfl rfl, ?_, fun q => ?_⟩
    · refine ⟨Or.inr ⟨i, hf, hw.pmm.trans hpmm₁, fun p => List.mem_cons⟩, fun g k hk => ?_,
        fun g hg => ?_⟩
      · rw [hw.payload g k hk, hmem₁]
      · rw [hw.others g fun p hp => hg p ?_, hmem₁]
        rw [List.mem_singleton.mp hp]
        exact List.mem_cons_self
    · refine Iff.trans ?_ (obj_congr hold q)
      constructor
      · rintro ⟨p, hp, k, hk, ht, rfl⟩
        rcases List.mem_cons.mp hp with rfl | hp
        · rw [hnew, emptyHeader_test] at ht
          exact Bool.noConfusion ht
        · exact ⟨p, hp, k, hk, ht, rfl⟩
      · rintro ⟨p, hp, hq⟩
        exact ⟨p, List.mem_cons_of_mem _ hp, hq⟩

theorem SlabHeader.Ok.take {h : SlabHeader} (hok : h.Ok size) (hi : idx < (slabTotal size).toNat)
    (hbit : PackedBits.test (bitmapWords h.freeBitmap) idx = false) :
    (h.take idx).Ok size := by
  refine ⟨hok.magic, hok.objSize, hok.totalObjs, ?_⟩
  have hcount := PackedBits.clearCount_set (by decide) hi hbit
  have hfree := hok.freeObjs
  have hlt := h.freeObjs.isLt
  unfold SlabHeader.take
  dsimp only
  rw [bitmapSet_eq (hi.trans_le (slabTotal_le size)), BitVec.toNat_sub,
    show (1 : BitVec 32).toNat = 1 from rfl]
  omega

theorem slabGetObj_eq (hok : (headerAt s slab).Ok size) (idx : Nat) :
    slabGetObj s slab idx = objAddr slab size idx := by
  unfold slabGetObj objAddr
  rw [hok.objSize]

/-- **Taking an object**: its bit is set, and the slab changes lists when it becomes full. -/
theorem slabTake_spec (h : CacheInv s c P F) (hx : slab ∈ P)
    (hi : idx < (slabTotal c.objSize).toNat)
    (hbit : PackedBits.test (bitmapWords (headerAt s slab).freeBitmap) idx = false) :
    ∃ c' s' P' F', slabTake slab idx c s = some (objAddr slab c.objSize idx, c', s') ∧
      c'.objSize = c.objSize ∧ CacheInv s' c' P' F' ∧ HeaderWrites (P ++ F) s s' ∧
      (∀ p, p ∈ P' ++ F' ↔ p ∈ P ++ F) ∧
      ∀ q, Obj s' c.objSize (P' ++ F') q ↔
        Obj s c.objSize (P ++ F) q ∨ q = objAddr slab c.objSize idx := by
  have hxl := List.mem_append_left F hx
  have hok := (h.ok slab hxl).take hi hbit
  unfold slabTake
  dsimp only
  obtain ⟨hw₁, hself, hother, hP, hF⟩ := h.edit hxl (SlabHeader.take idx) fun _ => rfl
  generalize setHeader slab (SlabHeader.take idx) s = s₁ at hw₁ hself hother hP hF ⊢
  have hbits : bitmapWords (headerAt s₁ slab).freeBitmap =
      PackedBits.set (bitmapWords (headerAt s slab).freeBitmap) idx := by
    rw [hself]
    exact bitmapSet_eq (hi.trans_le (slabTotal_le _)) _
  rw [← hself] at hok
  by_cases hfull : (headerAt s₁ slab).freeObjs = 0
  · rw [if_pos hfull]
    have hlen : P.length ≤ s₁.pmm.totalPages := by
      rw [hw₁.pmm]
      exact (Nat.le_add_right _ _).trans h.length_le
    obtain ⟨head', s₂, he, hw₂, hb, hP', hF'⟩ := moveSlab_spec hP hF h.disjoint hx
      (fun p hp => h.aligned p (List.mem_append_left F hp))
      (fun p hp => h.aligned p (List.mem_append_right P hp)) hlen
    have hmem : ∀ p, p ∈ P.erase slab ++ slab :: F ↔ p ∈ P ++ F := fun p => by
      rw [List.mem_append, List.mem_append]
      exact mem_move h.partialList.nodup hx p
    have hw := hw₁.trans (hw₂.mono fun p hp => List.mem_append_left F hp)
    refine ⟨{ c with numAllocs := c.numAllocs + 1, partialHead := head', fullHead := slab }, s₂,
      P.erase slab, slab :: F, ?_, rfl, ?_, hw, hmem, ?_⟩
    · rw [he, ← slabGetObj_eq ((hb slab).ok hok)]
      rfl
    · refine h.update slab hw rfl rfl ?_ (fun p hp => (hmem p).mp hp)
        (disjoint_move h.partialList.nodup h.disjoint) hP' hF' (fun p hp hps => ?_)
        ((hb slab).ok hok) (fun p hp _ => List.mem_of_mem_erase hp)
        (fun p hp hps => (List.mem_cons.mp hp).resolve_left hps) ?_ (fun _ => ?_)
      · have := List.length_pos_of_mem hx
        rw [List.length_erase_of_mem hx, List.length_cons]
        omega
      · rw [← hother p hp hps]
        exact hb p
      · exact fun hs => absurd rfl (h.partialList.nodup.mem_erase_iff.mp hs).1
      · rw [(hb slab).freeObjs, hfull]
    · refine obj_insert hxl hi hmem (fun p hp hps => ?_) ?_
      · rw [(hb p).freeBitmap, hother p hp hps]
      · rw [(hb slab).freeBitmap, hbits]
  · rw [if_neg hfull]
    refine ⟨{ c with numAllocs := c.numAllocs + 1 }, s₁, P, F, ?_, rfl, ?_, hw₁,
      fun _ => Iff.rfl, ?_⟩
    · rw [slabGetObj_eq hok]
    · refine h.update slab hw₁ rfl rfl rfl (fun p hp => hp) h.disjoint hP hF
        (fun p hp hps => ?_) hok (fun p hp _ => hp) (fun p hp _ => hp) (fun _ => hfull)
        (fun hs => absurd hs (h.disjoint slab hx))
      rw [hother p hp hps]
      exact .refl _
    · refine obj_insert hxl hi (fun _ => Iff.rfl) (fun p hp hps => ?_) hbits
      rw [hother p hp hps]

/-- **The slab `slab_alloc` looks at**: none when no page is free, else one with a free object. -/
theorem slabPick_spec (h : CacheInv s c P F) (hz : ObjSize c.objSize) (hv : s.pmm.Valid) :
    ((∀ i, ¬ s.pmm.Free i) ∧ slabPick c s = (0, c, s)) ∨
      ∃ slab c' s' P', slab ≠ 0 ∧ slabPick c s = (slab, c', s') ∧ slab ∈ P' ∧
        c'.objSize = c.objSize ∧ CacheInv s' c' P' F ∧ Touches s (P ++ F) s' (P' ++ F) ∧
        ∀ q, Obj s' c.objSize (P' ++ F) q ↔ Obj s c.objSize (P ++ F) q := by
  unfold slabPick
  by_cases h0 : c.partialHead = 0
  · rw [if_pos h0]
    rcases slabGrow_spec h hz hv with hn | ⟨i, c', s', _, hi0, he, hsz, hinv, ht, hobj⟩
    · exact Or.inl hn
    · exact Or.inr ⟨_, c', s', _, hi0, he, List.mem_cons_self, hsz, hinv, ht, hobj⟩
  · rw [if_neg h0]
    obtain ⟨P', rfl, _⟩ := h.partialList.exists_cons h0
    exact Or.inr ⟨_, c, s, _, h0, rfl, List.mem_cons_self, rfl, h, Touches.refl _ _,
      fun _ => Iff.rfl⟩

/-- The object at `ptr` was handed out, and nothing else changed hands. -/
structure ObjTaken (s : Phys) (c : SlabCache) (P F : List U64) (ptr : U64) (s' : Phys)
    (c' : SlabCache) (P' F' : List U64) : Prop where
  size : c'.objSize = c.objSize
  inv : CacheInv s' c' P' F'
  touches : Touches s (P ++ F) s' (P' ++ F')
  fresh : ¬ Obj s c.objSize (P ++ F) ptr
  obj : ∀ q, Obj s' c.objSize (P' ++ F') q ↔ Obj s c.objSize (P ++ F) q ∨ q = ptr

/-- **`slab_alloc`** always ends. It returns `NULL` and changes nothing when it needs a page and
none is free, and hands out one object otherwise. -/
theorem slabAlloc_spec (h : CacheInv s c P F) (hz : ObjSize c.objSize) (hv : s.pmm.Valid) :
    ((∀ i, ¬ s.pmm.Free i) ∧ slabAlloc c s = some (0, c, s)) ∨
      ∃ ptr c' s' P' F', ptr ≠ 0 ∧ slabAlloc c s = some (ptr, c', s') ∧
        ObjTaken s c P F ptr s' c' P' F' := by
  unfold slabAlloc
  rcases slabPick_spec h hz hv with ⟨hn, he⟩ |
    ⟨slab, c₁, s₁, P₁, h0, he, hx, hsz, hinv, ht, hobj⟩
  · rw [he]
    exact Or.inl ⟨hn, if_pos rfl⟩
  · rw [he]
    dsimp only
    rw [if_neg h0]
    obtain ⟨idx, hfind, hi, hbit⟩ := hinv.findFree hx
    rw [hfind]
    obtain ⟨c₂, s₂, P₂, F₂, he₂, hsz₂, hinv₂, hw₂, hmem₂, hobj₂⟩ := slabTake_spec hinv hx hi hbit
    have hal := hinv.aligned slab (List.mem_append_left F hx)
    rw [hsz] at he₂ hi hobj₂
    refine Or.inr ⟨_, c₂, s₂, P₂, F₂, objAddr_ne_zero hal hz hi, he₂, hsz₂.trans hsz, hinv₂,
      ht.write hw₂ hmem₂, fun hold => ?_, fun q => ?_⟩
    · -- the bit of an object handed out before is set
      obtain ⟨p, hp, k, hk, htest, heq⟩ := (hobj _).mpr hold
      obtain ⟨rfl, rfl⟩ := objAddr_inj hal (hinv.aligned p hp) hz hi hk heq
      rw [hbit] at htest
      exact Bool.noConfusion htest
    · rw [hobj₂ q, hobj q]

/-! ## `slab_free` -/

theorem SlabHeader.Ok.give {h : SlabHeader} (hok : h.Ok size) (hi : idx < (slabTotal size).toNat)
    (hbit : PackedBits.test (bitmapWords h.freeBitmap) idx = true) : (h.give idx).Ok size := by
  refine ⟨hok.magic, hok.objSize, hok.totalObjs, ?_⟩
  have hcount := PackedBits.clearCount_clear (by decide) hi hbit
  have hle : PackedBits.clearCount (bitmapWords h.freeBitmap) (slabTotal size).toNat ≤ 256 :=
    (PackedBits.clearCount_le _).trans (slabTotal_le size)
  have hfree := hok.freeObjs
  unfold SlabHeader.give
  dsimp only
  rw [bitmapClear_eq (hi.trans_le (slabTotal_le size)), BitVec.toNat_add,
    show (1 : BitVec 32).toNat = 1 from rfl]
  omega

theorem SlabHeader.Ok.give_ne_zero {h : SlabHeader} (hok : h.Ok size)
    (hi : idx < (slabTotal size).toNat)
    (hbit : PackedBits.test (bitmapWords h.freeBitmap) idx = true) : (h.give idx).freeObjs ≠ 0 := by
  intro h0
  have hfree := (hok.give hi hbit).freeObjs
  have hcount := PackedBits.clearCount_clear (by decide) hi hbit
  unfold SlabHeader.give at h0 hfree
  dsimp only at h0 hfree
  rw [h0, bitmapClear_eq (hi.trans_le (slabTotal_le size)), hcount] at hfree
  exact absurd hfree (by simp)

theorem slabFindObjIdx_objAddr (hs : Aligned slab) (hz : ObjSize size)
    (hok : (headerAt s slab).Ok size) (hi : idx < (slabTotal size).toNat) :
    slabFindObjIdx s slab (objAddr slab size idx) = some idx := by
  have hend := obj_end hi
  rw [Nat.succ_mul] at hend
  have hlt := pageOf_lt slab
  have hle := hz.le
  have hpos := hz.pos
  have haddr := objAddr_toNat hs hz hi
  have hbase : (slab + 56).toNat = pageOf slab * 4096 + 56 := by
    rw [BitVec.toNat_add, hs.toNat, show (56 : U64).toNat = 56 from rfl]
    omega
  have hoff : (objAddr slab size idx - (slab + 56)).toNat = idx * size.toNat := by
    rw [BitVec.toNat_sub_of_le (by rw [BitVec.le_def, haddr, hbase]; omega), haddr, hbase]
    omega
  have hsize : (headerAt s slab).objSize.toNat = size.toNat := by
    rw [hok.objSize, BitVec.toNat_setWidth]
    omega
  unfold slabFindObjIdx
  dsimp only
  rw [if_neg (by rw [BitVec.lt_def, haddr, hbase]; omega), hoff, hsize, hok.totalObjs,
    if_neg (by rw [Nat.mul_mod_left]; exact fun h => h rfl), Nat.mul_div_cancel _ hpos,
    if_neg (by omega)]

/-- **Giving an object back**: its bit is cleared, and the slab is on the partial list after. -/
theorem slabGive_spec (h : CacheInv s c P F) (hz : ObjSize c.objSize) (hx : slab ∈ P ++ F)
    (hi : idx < (slabTotal c.objSize).toNat)
    (hbit : PackedBits.test (bitmapWords (headerAt s slab).freeBitmap) idx = true) :
    ∃ c' s' P' F', slabGive slab idx c s = some (c', s') ∧ c'.objSize = c.objSize ∧
      CacheInv s' c' P' F' ∧ slab ∈ P' ∧ HeaderWrites (P ++ F) s s' ∧
      (∀ p, p ∈ P' ++ F' ↔ p ∈ P ++ F) ∧
      ∀ q, Obj s' c.objSize (P' ++ F') q ↔
        Obj s c.objSize (P ++ F) q ∧ q ≠ objAddr slab c.objSize idx := by
  have hok := (h.ok slab hx).give hi hbit
  have hfree := (h.ok slab hx).give_ne_zero hi hbit
  unfold slabGive
  dsimp only
  obtain ⟨hw₁, hself, hother, hP, hF⟩ := h.edit hx (SlabHeader.give idx) fun _ => rfl
  generalize setHeader slab (SlabHeader.give idx) s = s₁ at hw₁ hself hother hP hF ⊢
  have hbits : bitmapWords (headerAt s₁ slab).freeBitmap =
      PackedBits.clear (bitmapWords (headerAt s slab).freeBitmap) idx := by
    rw [hself]
    exact bitmapClear_eq (hi.trans_le (slabTotal_le _)) _
  rw [← hself] at hok hfree
  by_cases hfull : (headerAt s slab).freeObjs = 0
  · rw [if_pos (decide_eq_true hfull)]
    have hxF : slab ∈ F :=
      (List.mem_append.mp hx).resolve_left fun hxP => h.partialFree slab hxP hfull
    have hdis : ∀ p ∈ F, p ∉ P := fun p hpF hpP => h.disjoint p hpP hpF
    have hlen : F.length ≤ s₁.pmm.totalPages := by
      rw [hw₁.pmm]
      exact (Nat.le_add_left _ _).trans h.length_le
    obtain ⟨head', s₂, he, hw₂, hb, hF', hP'⟩ := moveSlab_spec hF hP hdis hxF
      (fun p hp => h.aligned p (List.mem_append_right P hp))
      (fun p hp => h.aligned p (List.mem_append_left F hp)) hlen
    have hmem : ∀ p, p ∈ slab :: P ++ F.erase slab ↔ p ∈ P ++ F := fun p => by
      rw [List.mem_append, List.mem_append, or_comm, or_comm (a := p ∈ P)]
      exact mem_move h.fullList.nodup hxF p
    have hw := hw₁.trans (hw₂.mono fun p hp => List.mem_append_right P hp)
    refine ⟨{ c with numFrees := c.numFrees + 1, partialHead := slab, fullHead := head' }, s₂,
      slab :: P, F.erase slab, ?_, rfl, ?_, List.mem_cons_self, hw, hmem, ?_⟩
    · rw [he]
      rfl
    · refine h.update slab hw rfl rfl ?_ (fun p hp => (hmem p).mp hp)
        (fun p hp hpF => disjoint_move h.fullList.nodup hdis p hpF hp) hP' hF' (fun p hp hps => ?_)
        ((hb slab).ok hok) (fun p hp hps => (List.mem_cons.mp hp).resolve_left hps)
        (fun p hp _ => List.mem_of_mem_erase hp) (fun _ => ?_) ?_
      · have := List.length_pos_of_mem hxF
        rw [List.length_erase_of_mem hxF, List.length_cons]
        omega
      · rw [← hother p hp hps]
        exact hb p
      · rw [(hb slab).freeObjs]
        exact hfree
      · exact fun hs => absurd rfl (h.fullList.nodup.mem_erase_iff.mp hs).1
    · refine obj_erase hz hx hi h.aligned hmem (fun p hp hps => ?_) ?_
      · rw [(hb p).freeBitmap, hother p hp hps]
      · rw [(hb slab).freeBitmap, hbits]
  · rw [if_neg (by rwa [decide_eq_true_eq])]
    have hxF : slab ∉ F := fun hxF => hfull (h.fullFree slab hxF)
    have hxP : slab ∈ P := (List.mem_append.mp hx).resolve_right hxF
    refine ⟨{ c with numFrees := c.numFrees + 1 }, s₁, P, F, rfl, rfl, ?_, hxP, hw₁,
      fun _ => Iff.rfl, ?_⟩
    · refine h.update slab hw₁ rfl rfl rfl (fun p hp => hp) h.disjoint hP hF
        (fun p hp hps => ?_) hok (fun p hp _ => hp) (fun p hp _ => hp) (fun _ => hfree)
        (fun hs => absurd hs hxF)
      rw [hother p hp hps]
      exact .refl _
    · refine obj_erase hz hx hi h.aligned (fun _ => Iff.rfl) (fun p hp hps => ?_) hbits
      rw [hother p hp hps]

/-- What a free does besides its object: it may give the page of one slab back, and it writes the
headers of the cache's slabs only. -/
structure Returns (s : Phys) (l : List U64) (s' : Phys) (l' : List U64) : Prop where
  pages : (s'.pmm = s.pmm ∧ ∀ p, p ∈ l' ↔ p ∈ l) ∨
    ∃ r ∈ l, s'.pmm = s.pmm.release (pageOf r) ∧ ∀ p, p ∈ l' ↔ p ∈ l ∧ p ≠ r
  payload : ∀ (g : Nat) (i : Fin 512), 7 ≤ i.val → s'.mem g i = s.mem g i
  others : ∀ g, (∀ p ∈ l, pageOf p ≠ g) → s'.mem g = s.mem g

theorem Returns.write {l l' l'' : List U64} {s'' : Phys} (hw : HeaderWrites l s s')
    (hl : ∀ p, p ∈ l' ↔ p ∈ l) (h : Returns s' l' s'' l'') : Returns s l s'' l'' where
  pages := by
    rcases h.pages with ⟨hp, hm⟩ | ⟨r, hr, hp, hm⟩
    · exact Or.inl ⟨hp.trans hw.pmm, fun p => (hm p).trans (hl p)⟩
    · refine Or.inr ⟨r, (hl r).mp hr, by rw [hp, hw.pmm], fun p => ?_⟩
      rw [hm p, hl p]
  payload := fun g i hi => (h.payload g i hi).trans (hw.payload g i hi)
  others := fun g hg => (h.others g fun p hp => hg p ((hl p).mp hp)).trans (hw.others g hg)

/-- The pages in use after a free are those of before without the page of one slab at most. -/
theorem Returns.pmm {phys phys' : Phys} {l l' : List U64} (hr : Returns phys l phys' l')
    (hv : phys.pmm.Valid) (hal : ∀ p ∈ l, Aligned p) (h0 : ∀ p ∈ l, p ≠ 0)
    (hu : ∀ p ∈ l, phys.pmm.Used (pageOf p)) : phys'.pmm.Valid ∧ (∀ p ∈ l', p ∈ l) ∧
      (∀ g, (∀ p ∈ l, pageOf p ≠ g) → phys.pmm.Used g → phys'.pmm.Used g) ∧
      ∀ g, (∀ p ∈ l, pageOf p ≠ g) → phys'.pmm.Free g → phys.pmm.Free g := by
  rcases hr.pages with ⟨hp, hm⟩ | ⟨r, hrl, hp, hm⟩
  · rw [hp]
    exact ⟨hv, fun p hp => (hm p).mp hp, fun _ _ h => h, fun _ _ h => h⟩
  · have hr0 : pageOf r ≠ 0 := fun hz => h0 r hrl (by rw [← hal r hrl, hz]; rfl)
    rw [hp]
    refine ⟨hv.release (hu r hrl) hr0, fun p hp => ((hm p).mp hp).1, fun g hg hug => ?_,
      fun g hg hfg => ?_⟩
    · exact Pmm.used_release.mpr ⟨hug, fun hgr => hg r hrl hgr.symm⟩
    · exact ((Pmm.free_release (hu r hrl).1).mp hfg).resolve_right fun hgr => hg r hrl hgr.symm

theorem SlabHeader.Ok.test_of_empty {h : SlabHeader} (hok : h.Ok size)
    (he : h.freeObjs = h.totalObjs) (hi : idx < (slabTotal size).toNat) :
    PackedBits.test (bitmapWords h.freeBitmap) idx = false := by
  have hall : PackedBits.clearCount (bitmapWords h.freeBitmap) (slabTotal size).toNat =
      (slabTotal size).toNat := by
    rw [← hok.freeObjs, he, hok.totalObjs]
  exact Nat.count_iff_forall.mp hall idx hi

/-- **Giving a page back** keeps the objects of the cache. -/
theorem slabRelease_spec (h : CacheInv s c P F) (hx : slab ∈ P) :
    ∃ c' s' P', slabRelease slab c s = some (c', s') ∧ c'.objSize = c.objSize ∧
      CacheInv s' c' P' F ∧ Returns s (P ++ F) s' (P' ++ F) ∧
      ∀ q, Obj s' c.objSize (P' ++ F) q ↔ Obj s c.objSize (P ++ F) q := by
  have hxl := List.mem_append_left F hx
  unfold slabRelease
  by_cases hcond : (headerAt s slab).freeObjs = (headerAt s slab).totalObjs ∧ 2 < c.numSlabs
  · rw [if_pos hcond]
    obtain ⟨head', s₁, he, hw, hb, hP'⟩ := unlinkSlab_spec h.partialList hx
      (fun p hp => h.aligned p (List.mem_append_left F hp))
      ((Nat.le_add_right _ _).trans h.length_le)
    have hused := h.used slab hxl
    have hpmm : (s₁.free slab).pmm = s.pmm.release (pageOf slab) := by
      rw [Phys.free_pmm, hw.pmm, pmmFree_used hused]
    have hhead : ∀ p, (headerAt s p).SameBody (headerAt (s₁.free slab) p) := hb
    have hmem : ∀ p, p ∈ P.erase slab ++ F ↔ p ∈ P ++ F ∧ p ≠ slab := fun p => by
      rw [List.mem_append, List.mem_append, h.partialList.nodup.mem_erase_iff]
      constructor
      · rintro (⟨hne, hp⟩ | hp)
        · exact ⟨Or.inl hp, hne⟩
        · exact ⟨Or.inr hp, fun hps => h.disjoint slab hx (hps ▸ hp)⟩
      · rintro ⟨hp | hp, hne⟩
        · exact Or.inl ⟨hne, hp⟩
        · exact Or.inr hp
    have hwF : ∀ p ∈ F, headerAt s₁ p = headerAt s p := fun p hp =>
      hw.headerAt (fun q hq => h.aligned q (List.mem_append_left F hq))
        (h.aligned p (List.mem_append_right P hp)) fun hpP => h.disjoint p hpP hp
    refine ⟨{ c with partialHead := head', numSlabs := c.numSlabs - 1 }, s₁.free slab,
      P.erase slab, ?_, rfl, ?_, ?_, fun q => ?_⟩
    · rw [he]
      rfl
    · have hlt := hcond.2
      have hpos := List.length_pos_of_mem hx
      refine ⟨hP', h.fullList.congr fun p hp => congrArg SlabHeader.next (hwF p hp),
        fun p hp => h.disjoint p (List.mem_of_mem_erase hp), ?_,
        fun p hp => h.aligned p ((hmem p).mp hp).1, fun p hp => ?_,
        fun p hp => (hhead p).ok (h.ok p ((hmem p).mp hp).1), fun p hp => ?_, fun p hp => ?_⟩
      · rw [BitVec.lt_def, h.count] at hlt
        have hc := h.count
        dsimp only
        rw [BitVec.toNat_sub_of_le
            (by rw [BitVec.le_def, show (1 : U64).toNat = 1 from rfl]; omega), hc,
          List.length_erase_of_mem hx, show (1 : U64).toNat = 1 from rfl]
        omega
      · obtain ⟨hp, hne⟩ := (hmem p).mp hp
        rw [hpmm]
        exact Pmm.used_release.mpr
          ⟨h.used p hp, fun hpg => hne ((h.aligned p hp).inj (h.aligned slab hxl) hpg)⟩
      · rw [(hhead p).freeObjs]
        exact h.partialFree p (List.mem_of_mem_erase hp)
      · rw [(hhead p).freeObjs]
        exact h.fullFree p hp
    · exact ⟨Or.inr ⟨slab, hxl, hpmm, hmem⟩, hw.payload,
        fun g hg => hw.others g fun p hp => hg p (List.mem_append_left F hp)⟩
    · constructor
      · rintro ⟨p, hp, k, hk, ht, rfl⟩
        rw [(hhead p).freeBitmap] at ht
        exact ⟨p, ((hmem p).mp hp).1, k, hk, ht, rfl⟩
      · rintro ⟨p, hp, k, hk, ht, rfl⟩
        refine ⟨p, (hmem p).mpr ⟨hp, ?_⟩, k, hk, ?_, rfl⟩
        · rintro rfl
          rw [(h.ok p hp).test_of_empty hcond.1 hk] at ht
          exact Bool.noConfusion ht
        · rw [(hhead p).freeBitmap, ht]
  · rw [if_neg hcond]
    exact ⟨c, s, P, rfl, rfl, h, ⟨Or.inl ⟨rfl, fun _ => Iff.rfl⟩, fun _ _ _ => rfl,
      fun _ _ => rfl⟩, fun _ => Iff.rfl⟩

/-- The object at `ptr` was given back, and nothing else changed hands. -/
structure ObjFreed (s : Phys) (c : SlabCache) (P F : List U64) (ptr : U64) (s' : Phys)
    (c' : SlabCache) (P' F' : List U64) : Prop where
  size : c'.objSize = c.objSize
  inv : CacheInv s' c' P' F'
  returns : Returns s (P ++ F) s' (P' ++ F')
  obj : ∀ q, Obj s' c.objSize (P' ++ F') q ↔ Obj s c.objSize (P ++ F) q ∧ q ≠ ptr

theorem CacheInv.pageMask_obj (h : CacheInv s c P F) (hz : ObjSize c.objSize) {p : U64}
    (hp : p ∈ P ++ F) (hi : idx < (slabTotal c.objSize).toNat) :
    pageMask (objAddr p c.objSize idx) = p := by
  rw [pageMask_eq, pageOf_objAddr (h.aligned p hp) hz hi]
  exact h.aligned p hp

/-- **`slab_free`** of an object always ends, and gives that object back. -/
theorem slabFree_spec (h : CacheInv s c P F) (hz : ObjSize c.objSize) {ptr : U64}
    (ho : Obj s c.objSize (P ++ F) ptr) :
    ∃ c' s' P' F', slabFree c ptr s = some (c', s') ∧ ObjFreed s c P F ptr s' c' P' F' := by
  obtain ⟨slab, hx, idx, hi, hbit, rfl⟩ := ho
  have hok := h.ok slab hx
  have hal := h.aligned slab hx
  obtain ⟨c₁, s₁, P₁, F₁, he₁, hsz₁, hinv₁, hx₁, hw₁, hmem₁, hobj₁⟩ := slabGive_spec h hz hx hi hbit
  obtain ⟨c₂, s₂, P₂, he₂, hsz₂, hinv₂, hret₂, hobj₂⟩ := slabRelease_spec hinv₁ hx₁
  refine ⟨c₂, s₂, P₂, F₁, ?_, hsz₂.trans hsz₁, hinv₂, Returns.write hw₁ hmem₁ hret₂, fun q => ?_⟩
  · unfold slabFree
    dsimp only
    rw [if_neg (objAddr_ne_zero hal hz hi), h.pageMask_obj hz hx hi, if_neg (not_not.mpr hok.magic),
      slabFindObjIdx_objAddr hal hz hok hi]
    dsimp only
    rw [bitmapTest_eq (hi.trans_le (slabTotal_le _)), if_neg (by rw [hbit]; exact Bool.noConfusion),
      he₁]
    exact he₂
  · rw [hsz₁] at hobj₂
    rw [hobj₂ q, hobj₁ q]

end Sinux.Mm

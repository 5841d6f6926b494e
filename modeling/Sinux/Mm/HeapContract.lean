import Sinux.Mm.Heap

/-!
# What the kernel heap promises

* `HeapInv.disjoint`: two live blocks never share a byte.
* `slab_contract`: the representation invariant of the slab allocator and the contract of its calls,
  in every run of calls up to 2048 bytes.
-/

namespace Sinux.Mm

open Function Sinux.Lib

variable {s : HeapSys} {P F : Fin 8 → List U64}

/-! ## Live blocks are disjoint -/

/-- The bytes set aside for a block of `size` bytes: an object of its class, or the block. -/
def blockBytes (size : U64) : Nat :=
  match sizeClass size with
  | some i => (slabSizes i).toNat
  | none => size.toNat

theorem blockBytes_small {size : U64} {i : Fin 8} (h : sizeClass size = some i) :
    blockBytes size = (slabSizes i).toNat := by
  unfold blockBytes
  rw [h]

theorem blockBytes_large {size : U64} (h : 2048 < size) : blockBytes size = size.toNat := by
  unfold blockBytes
  cases hc : sizeClass size with
  | none => rfl
  | some i =>
    have hmax : ∀ j, slabSizes j ≤ 2048 := by decide
    have h1 := BitVec.le_def.mp (sizeClass_le hc)
    have h2 := BitVec.le_def.mp (hmax i)
    have h3 := BitVec.lt_def.mp h
    omega

theorem le_blockBytes (size : U64) : size.toNat ≤ blockBytes size := by
  unfold blockBytes
  cases hc : sizeClass size with
  | none => exact le_refl _
  | some i => exact BitVec.le_def.mp (sizeClass_le hc)

namespace HeapInv

theorem small_bounds (h : HeapInv s P F) {q size : U64} (hq : s.live q = some size)
    (hle : size ≤ 2048) : SlabPage P F (pageOf q) ∧ pageOf q * 4096 + 56 ≤ q.toNat ∧
      q.toNat + blockBytes size ≤ (pageOf q + 1) * 4096 := by
  obtain ⟨i, hc, ho⟩ := h.small q size hq hle
  obtain ⟨p, hp, hpg, hlo, hhi⟩ := ho.bounds (h.cache i).aligned (objSize_slabSizes i)
  rw [blockBytes_small hc]
  exact ⟨⟨i, p, hp, hpg.symm⟩, hlo, hhi⟩

theorem live_ne_zero (h : HeapInv s P F) {q size : U64} (hq : s.live q = some size) : q ≠ 0 := by
  rintro rfl
  by_cases hle : size ≤ 2048
  · have hlo := (h.small_bounds hq hle).2.1
    rw [show (0 : U64).toNat = 0 from rfl] at hlo
    omega
  · exact (h.large 0 size hq (BitVec.not_le.mp hle)).2 rfl

theorem disjoint_small_large (h : HeapInv s P F) {p q size sz : U64} (hp : s.live p = some size)
    (hq : s.live q = some sz) (hle : size ≤ 2048) (hlt : 2048 < sz) :
    p.toNat + blockBytes size ≤ q.toNat ∨ q.toNat + blockBytes sz ≤ p.toNat := by
  obtain ⟨hslab, hlo, hhi⟩ := h.small_bounds hp hle
  rw [blockBytes_large hlt]
  by_contra hcon
  -- the large block would have a byte in the slab
  have ho : Overlaps q sz (pageOf p) := by
    unfold Overlaps
    omega
  exact h.largeSlab q _ ⟨sz, hq, hlt, ho⟩ hslab

theorem disjoint (h : HeapInv s P F) {p q size sz : U64} (hp : s.live p = some size)
    (hq : s.live q = some sz) (hne : p ≠ q) :
    p.toNat + blockBytes size ≤ q.toNat ∨ q.toNat + blockBytes sz ≤ p.toNat := by
  by_cases hle : size ≤ 2048 <;> by_cases hle' : sz ≤ 2048
  · obtain ⟨i, hc, ho⟩ := h.small p size hp hle
    obtain ⟨j, hc', ho'⟩ := h.small q sz hq hle'
    have hal := (h.cache i).aligned
    have hal' := (h.cache j).aligned
    rw [blockBytes_small hc, blockBytes_small hc']
    by_cases hij : i = j
    · subst hij
      exact ho.disjoint hal (objSize_slabSizes i) ho' hne
    · -- objects of two classes lie in different slabs
      obtain ⟨r, hr, hpr, hlo, hhi⟩ := ho.bounds hal (objSize_slabSizes i)
      obtain ⟨r', hr', hqr, hlo', hhi'⟩ := ho'.bounds hal' (objSize_slabSizes j)
      have hpages : pageOf p ≠ pageOf q := fun hpq => by
        rw [hpr, hqr] at hpq
        rw [(hal r hr).inj (hal' r' hr') hpq] at hr
        exact h.apart i j hij r' hr hr'
      omega
  · exact h.disjoint_small_large hp hq hle (BitVec.not_le.mp hle')
  · exact (h.disjoint_small_large hq hp hle' (BitVec.not_le.mp hle)).symm
  · have hlt := BitVec.not_le.mp hle
    have hlt' := BitVec.not_le.mp hle'
    have hpos := BitVec.lt_def.mp hlt
    have hpos' := BitVec.lt_def.mp hlt'
    have hpt := (h.large p size hp hlt).1.toNat
    have hqt := (h.large q sz hq hlt').1.toNat
    rw [blockBytes_large hlt, blockBytes_large hlt']
    by_contra hcon
    -- the later of the two first pages would belong to both blocks
    have hshare : ∃ g, Overlaps p size g ∧ Overlaps q sz g := by
      unfold Overlaps
      rcases Nat.le_total (pageOf p) (pageOf q) with hpq | hpq
      · exact ⟨pageOf q, by omega, by omega⟩
      · exact ⟨pageOf p, by omega, by omega⟩
    obtain ⟨g, ho, ho'⟩ := hshare
    exact hne (h.largeApart p q g ⟨size, hp, hlt, ho⟩ ⟨sz, hq, hlt', ho'⟩)

theorem taken_fresh (h : HeapInv s P F) {p : U64} {i : Fin 8} {c' : SlabCache} {phys' : Phys}
    {P' F' : List U64}
    (ht : ObjTaken s.heap.phys (s.heap.caches i) (P i) (F i) p phys' c' P' F') :
    s.live p = none := by
  have hz : ObjSize (s.heap.caches i).objSize := h.size i ▸ objSize_slabSizes i
  obtain ⟨r, hr, hpr, hlo, _⟩ := Obj.bounds ht.inv.aligned hz ((ht.obj p).mpr (Or.inr rfl))
  cases hl : s.live p with
  | none => rfl
  | some sz =>
    exfalso
    by_cases hle : sz ≤ 2048
    · obtain ⟨j, _, ho⟩ := h.small p sz hl hle
      by_cases hj : j = i
      · subst hj
        exact ht.fresh (h.size j ▸ ho)
      · obtain ⟨q, hq, hpq, _⟩ := ho.bounds (h.cache j).aligned (objSize_slabSizes j)
        have hrq : r = q := (ht.inv.aligned r hr).inj ((h.cache j).aligned q hq)
          (hpr.symm.trans hpq)
        rcases (ht.touches.pmm h.valid).2.2.2 r hr with hri | hf
        · exact h.apart j i hj q hq (hrq ▸ hri)
        · exact Pmm.not_free_of_used ((h.cache j).used q hq) (hrq ▸ hf)
    · have hal := (h.large p sz hl (BitVec.not_le.mp hle)).1.toNat
      omega

theorem large_fresh (h : HeapInv s P F) {f : Nat} (hf : s.heap.phys.pmm.Free f) :
    s.live (pageAddr f) = none := by
  cases hl : s.live (pageAddr f) with
  | none => rfl
  | some sz =>
    exfalso
    have hpg := pageOf_pageAddr hf.lt
    by_cases hle : sz ≤ 2048
    · have hslab := (h.small_bounds hl hle).1
      rw [hpg] at hslab
      exact Pmm.not_free_of_used (h.slabUsed hslab) hf
    · have hlt := BitVec.not_le.mp hle
      have ho : Overlaps (pageAddr f) sz f := by
        have hpos := BitVec.lt_def.mp hlt
        unfold Overlaps
        rw [pageAddr_toNat hf.lt]
        omega
      exact Pmm.not_free_of_used (h.largeUsed _ f ⟨sz, hl, hlt, ho⟩) hf

end HeapInv

/-! ## The slab allocator's contract -/

/-- `P` and `F` are the partial and the full list of the cache, and its counters are right. -/
structure CacheRep (s : Phys) (c : SlabCache) (P F : List U64) : Prop where
  partialList : Chain (nextOf s) 0 c.partialHead P
  fullList : Chain (nextOf s) 0 c.fullHead F
  /-- The lists are acyclic and have no slab in common. -/
  nodup : (P ++ F).Nodup
  /-- Every slab is a page in use. -/
  page : ∀ p ∈ P ++ F, Aligned p ∧ s.pmm.Used (pageOf p)
  /-- Together they hold `num_slabs` pages. -/
  count : c.numSlabs.toNat = (P ++ F).length
  partialFree : ∀ p ∈ P, 0 < (headerAt s p).freeObjs.toNat ∧
    (headerAt s p).freeObjs.toNat ≤ (headerAt s p).totalObjs.toNat
  fullFree : ∀ p ∈ F, (headerAt s p).freeObjs = 0
  /-- `free_objs` is `total_objs` less the set bits. -/
  counter : ∀ p ∈ P ++ F, (headerAt s p).freeObjs.toNat +
    Nat.count (fun i => bitmapTest (headerAt s p).freeBitmap i = true)
      (headerAt s p).totalObjs.toNat = (headerAt s p).totalObjs.toNat

theorem clearCount_add_count (bm : Fin 4 → U64) {n : Nat} (hn : n ≤ 256) :
    PackedBits.clearCount (bitmapWords bm) n + Nat.count (fun i => bitmapTest bm i = true) n = n
    := by
  induction n with
  | zero => rfl
  | succ n ih =>
    have ih := ih (Nat.le_of_succ_le hn)
    rw [PackedBits.clearCount_succ, Nat.count_succ, bitmapTest_eq hn]
    cases PackedBits.test (bitmapWords bm) n
    · simp only [if_true, Bool.false_eq_true, if_false]
      omega
    · simp only [if_true, Bool.true_eq_false, if_false]
      omega

theorem CacheInv.rep {phys : Phys} {c : SlabCache} {P F : List U64} (h : CacheInv phys c P F) :
    CacheRep phys c P F where
  partialList := h.partialList
  fullList := h.fullList
  nodup := h.nodup
  page := fun p hp => ⟨h.aligned p hp, h.used p hp⟩
  count := by rw [h.count, List.length_append]
  partialFree := fun p hp => by
    have hok := h.ok p (List.mem_append_left F hp)
    refine ⟨Nat.pos_of_ne_zero fun h0 => h.partialFree p hp (BitVec.eq_of_toNat_eq h0), ?_⟩
    rw [hok.freeObjs, hok.totalObjs]
    exact PackedBits.clearCount_le _
  fullFree := h.fullFree
  counter := fun p hp => by
    have hok := h.ok p hp
    rw [hok.freeObjs, hok.totalObjs]
    exact clearCount_add_count _ (slabTotal_le _)

/-- The block at `p` returned for `size` bytes, with the heap `h'` after the call. -/
structure SlabBlock (s : HeapSys) (size p : U64) (h' : Heap) : Prop where
  /-- It lies in its page after the 56 bytes of the header. -/
  inside : pageOf p * 4096 + 56 ≤ p.toNat ∧ p.toNat + blockBytes size ≤ (pageOf p + 1) * 4096
  /-- It is long enough. -/
  long : size.toNat ≤ blockBytes size
  /-- It shares no byte with a live object. -/
  disjoint : ∀ q sz, s.live q = some sz →
    p.toNat + blockBytes size ≤ q.toNat ∨ q.toNat + blockBytes sz ≤ p.toNat
  /-- Its page is a slab of its class. -/
  slab : ∃ i P F, sizeClass size = some i ∧ CacheRep h'.phys (h'.caches i) P F ∧
    pageAddr (pageOf p) ∈ P ++ F

/-- The contract of the slab allocator in a state of a run. -/
structure SlabContract (s : HeapSys) : Prop where
  lists : ∀ i, ∃ P F, CacheRep s.heap.phys (s.heap.caches i) P F
  /-- `bitmap_find_free` finds an object in the slab `slab_alloc` looks at first. -/
  branch : ∀ i, (slabPick (s.heap.caches i) s.heap.phys).1 ≠ 0 →
    let slab := (slabPick (s.heap.caches i) s.heap.phys).1
    let h := headerAt (slabPick (s.heap.caches i) s.heap.phys).2.2 slab
    (bitmapFindFree h.freeBitmap h.totalObjs.toNat).isSome
  /-- `kmalloc_slab` returns, `NULL` with nothing changed or a block. -/
  malloc : ∀ size, 1 ≤ size → size ≤ 2048 → ∃ p h', kmallocSlab size s.heap = some (p, h') ∧
    ((p = 0 ∧ h' = s.heap) ∨ (p ≠ 0 ∧ SlabBlock s size p h'))
  /-- `kfree_slab` of a live block returns. -/
  free : ∀ p, (s.live p).isSome → (kfreeSlab p s.heap).isSome

theorem HeapInv.slabBlock (h : HeapInv s P F) {size p : U64} {i : Fin 8} {c' : SlabCache}
    {phys' : Phys} {P' F' : List U64} (hle : size ≤ 2048) (hc : sizeClass size = some i)
    (ht : ObjTaken s.heap.phys (s.heap.caches i) (P i) (F i) p phys' c' P' F') :
    SlabBlock s size p ⟨phys', update s.heap.caches i c'⟩ := by
  have h' := h.taken hle hc ht
  have hp : update s.live p (some size) p = some size := update_self ..
  obtain ⟨_, hlo, hhi⟩ := h'.small_bounds hp hle
  have hz : ObjSize (s.heap.caches i).objSize := h.size i ▸ objSize_slabSizes i
  obtain ⟨r, hr, hpr, _⟩ := Obj.bounds ht.inv.aligned hz ((ht.obj p).mpr (Or.inr rfl))
  refine ⟨⟨hlo, hhi⟩, le_blockBytes size, fun q sz hq => ?_, i, P', F', hc, ?_, ?_⟩
  · have hqp : q ≠ p := by
      rintro rfl
      rw [h.taken_fresh ht] at hq
      exact absurd hq (Option.some_ne_none sz).symm
    exact h'.disjoint hp ((update_of_ne hqp _ _).trans hq) hqp.symm
  · dsimp only
    rw [update_self]
    exact ht.inv.rep
  · rw [hpr, ht.inv.aligned r hr]
    exact hr

/-- **The slab allocator over whole runs.** From `slab_init` on any valid page-frame allocator,
after every sequence of allocations of 1 to 2048 bytes and frees of live blocks over the eight
classes, while others take and return pages and clients write into their blocks, the contract
holds. -/
theorem slab_contract {s0 : Phys} (hv : s0.pmm.Valid)
    (hr : HeapReach (fun _ size => 1 ≤ size ∧ size ≤ 2048) s0 s) : SlabContract s := by
  obtain ⟨P, F, h⟩ := heapInv_of_reach (fun _ _ hok => Or.inl hok.2) hv hr
  refine ⟨fun i => ⟨P i, F i, (h.cache i).rep⟩, fun i hne => ?_, fun size h1 hle => ?_,
    fun p hp => ?_⟩
  · have hz : ObjSize (s.heap.caches i).objSize := h.size i ▸ objSize_slabSizes i
    rcases slabPick_spec (h.cache i) hz h.valid with ⟨_, he⟩ |
      ⟨slab, c', s', P', _, he, hx, _, hinv, _⟩
    · rw [he] at hne
      exact absurd rfl hne
    · rw [he]
      obtain ⟨idx, hfind, _⟩ := hinv.findFree hx
      exact Option.isSome_iff_exists.mpr ⟨idx, hfind⟩
  · have h0 : size ≠ 0 := by
      rintro rfl
      exact absurd h1 (by decide)
    rcases h.malloc_small h0 hle with he | ⟨i, p, c', phys', P', F', hp, hc, he, ht⟩
    · exact ⟨0, s.heap, he, Or.inl ⟨rfl, rfl⟩⟩
    · exact ⟨p, _, he, Or.inr ⟨hp, h.slabBlock hle hc ht⟩⟩
  · obtain ⟨size, hp⟩ := Option.isSome_iff_exists.mp hp
    by_cases hle : size ≤ 2048
    · obtain ⟨i, c', phys', P', F', _, he, _⟩ := h.free_small hp hle
      rw [he]
      rfl
    · obtain ⟨hal, h0⟩ := h.large p size hp (BitVec.not_le.mp hle)
      rcases kfreeSlab_large hal h0 s.heap with he | he <;> rw [he] <;> rfl

/-- On eight pages, 24 bytes come from the class of 32: the first object of a slab in page 1. -/
theorem slab_contract_eightPages :
    ∃ h', kmallocSlab 24 (slabInit eightPages) = some (0x1038, h') ∧
      SlabContract ⟨h', update (fun _ => none) 0x1038 (some 24),
        {f | ¬ eightPages.pmm.Free f}⟩ := by
  obtain ⟨p, h', he, _⟩ :=
    (slab_contract eightPages_valid Relation.ReflTransGen.refl).malloc 24 (by decide) (by decide)
  have hp : some p = some 0x1038 := by
    rw [← show (kmallocSlab 24 (slabInit eightPages)).map Prod.fst = some 0x1038 by decide]
    exact (congrArg (Option.map Prod.fst) he).symm
  obtain rfl := Option.some.inj hp
  exact ⟨h', he, slab_contract eightPages_valid (Relation.ReflTransGen.single
    (HeapStep.malloc (heapInit eightPages) 24 0x1038 h' (by decide) he))⟩

end Sinux.Mm

import Mathlib.Data.Nat.Prime.Basic
import Sinux.Mm.HeapContract

/-!
# Size and alignment of slab objects

The model:

- `slabCacheCreate` is `slab_cache_create`; a cache is a `SlabCache` with its `align`.
- `CacheStep`: a run of `slab_alloc` and `slab_free` on one cache, while others use the rest of
  memory.

Objects start 56 bytes into a page, behind the header, and lie `obj_size` apart.

Results:

- `slab_law_iff`: the objects of a cache that `slab_cache_create` returns have the size and
  alignment asked for, in every run, exactly when `align` is 1, 2, 4 or 8. The eight built-in
  caches, whose `align` is 16, never have.
-/

namespace Sinux.Mm

open Sinux.Lib

/-! ## Creating a cache -/

/-- `slab_cache_t` with its `align`. -/
structure AlignedCache where
  cache : SlabCache
  align : U64

/-- `(size + align - 1) & ~(align - 1)`, at least 16. -/
def alignedSize (size align : U64) : U64 :=
  let aligned := (size + align - 1) &&& ~~~(align - 1)
  if aligned < 16 then 16 else aligned

/-- `MAX_CACHES`. -/
def maxCaches : Nat := 32

/-- `slab_cache_create` with `num_caches` caches there: `NULL` or the cache, and the heap after. The
structure itself is a block of 64 bytes. -/
def slabCacheCreate (size align : U64) (numCaches : Nat) (h : Heap) :
    Option (Option AlignedCache × Heap) :=
  if maxCaches ≤ numCaches then some (none, h)
  else if size = 0 ∨ 4096 / 2 < size then some (none, h)
  else do
    let (cache, h) ← kmallocSlab 64 h
    if cache = 0 then some (none, h)
    else some (some ⟨⟨alignedSize size align, 0, 0, 0, 0, 0⟩, align⟩, h)

/-- The `align` of the caches of `slab_init`. -/
def slabInitAlign : U64 := 16

/-! ## Runs of one cache -/

/-- The slab is in one of the lists of the cache. -/
def SlabOf (s : Phys) (c : SlabCache) (slab : U64) : Prop :=
  slab ≠ 0 ∧ ∃ head, (head = c.partialHead ∨ head = c.fullHead) ∧
    Relation.ReflTransGen (fun p q => p ≠ 0 ∧ q = nextOf s p) head slab

/-- A cache in memory, with the objects returned and not freed. -/
structure CacheSys where
  phys : Phys
  cache : SlabCache
  live : Set U64

/-- `slab_alloc`, `slab_free` of an object returned, and whatever others do that leaves the headers
of the slabs alone and their pages in use. -/
inductive CacheStep : CacheSys → CacheSys → Prop
  | alloc (s : CacheSys) (p : U64) (c' : SlabCache) (phys' : Phys)
      (he : slabAlloc s.cache s.phys = some (p, c', phys')) :
      CacheStep s ⟨phys', c', if p = 0 then s.live else insert p s.live⟩
  | free (s : CacheSys) (p : U64) (c' : SlabCache) (phys' : Phys) (hp : p ∈ s.live)
      (he : slabFree s.cache p s.phys = some (c', phys')) :
      CacheStep s ⟨phys', c', s.live \ {p}⟩
  | env (s : CacheSys) (phys' : Phys) (hv : phys'.pmm.Valid)
      (hslab : ∀ slab, SlabOf s.phys s.cache slab → headerAt phys' slab = headerAt s.phys slab ∧
        (s.phys.pmm.Used (pageOf slab) → phys'.pmm.Used (pageOf slab))) :
      CacheStep s ⟨phys', s.cache, s.live⟩

/-- The object at `p` has the size and alignment promised. -/
structure ObjectLaw (size align : U64) (s : Phys) (p : U64) : Prop where
  long : size.toNat ≤ (headerAt s (pageMask p)).objSize.toNat
  aligned : align.toNat ∣ p.toNat
  /-- It lies in one page, after the header. -/
  inside : pageOf p * 4096 + 56 ≤ p.toNat ∧
    p.toNat + (headerAt s (pageMask p)).objSize.toNat ≤ (pageOf p + 1) * 4096

/-- **The law of a cache**: in every run, its slabs have room for an object and what `slab_alloc`
returns is as promised. -/
def CacheLaw (c : SlabCache) (size align : U64) : Prop :=
  ∀ s₀ : Phys, s₀.pmm.Valid → ∀ s, Relation.ReflTransGen CacheStep ⟨s₀, c, ∅⟩ s →
    (∀ slab, SlabOf s.phys s.cache slab → 1 ≤ (headerAt s.phys slab).totalObjs.toNat) ∧
    ∀ p c' phys', slabAlloc s.cache s.phys = some (p, c', phys') → p ≠ 0 →
      ObjectLaw size align phys' p

/-! ## A cache with room -/

section

variable {s : Phys} {c : SlabCache} {P F : List U64} {size align : U64}

theorem mem_of_reaches {head slab : U64} {l : List U64} (hc : Chain (nextOf s) 0 head l)
    (hr : Relation.ReflTransGen (fun p q => p ≠ 0 ∧ q = nextOf s p) head slab) (h0 : slab ≠ 0) :
    slab ∈ l := by
  induction hr using Relation.ReflTransGen.head_induction_on generalizing l with
  | refl =>
    obtain ⟨l', rfl, -⟩ := hc.exists_cons h0
    exact List.mem_cons_self
  | head hstep _ ih =>
    obtain ⟨hne, rfl⟩ := hstep
    obtain ⟨l', rfl, hl'⟩ := hc.exists_cons hne
    exact List.mem_cons_of_mem _ (ih hl')

theorem reaches_of_mem {head slab : U64} {l : List U64} (hc : Chain (nextOf s) 0 head l)
    (hx : slab ∈ l) : Relation.ReflTransGen (fun p q => p ≠ 0 ∧ q = nextOf s p) head slab := by
  induction hc with
  | nil => cases hx
  | cons h0 _ ih =>
    rcases List.mem_cons.mp hx with rfl | hx
    · exact .refl
    · exact .head ⟨h0, rfl⟩ (ih hx)

theorem CacheInv.mem_of_slabOf (h : CacheInv s c P F) {slab : U64} (hs : SlabOf s c slab) :
    slab ∈ P ++ F := by
  obtain ⟨h0, head, hhead | hhead, hr⟩ := hs
  · exact List.mem_append_left F (mem_of_reaches (hhead ▸ h.partialList) hr h0)
  · exact List.mem_append_right P (mem_of_reaches (hhead ▸ h.fullList) hr h0)

/-- The lists of the cache are in order, and what is live was handed out. -/
structure CacheRun (size : U64) (s : CacheSys) (P F : List U64) : Prop where
  objSize : s.cache.objSize = size
  valid : s.phys.pmm.Valid
  inv : CacheInv s.phys s.cache P F
  live : ∀ p ∈ s.live, Obj s.phys size (P ++ F) p

theorem CacheInv.slabOf_of_mem (h : CacheInv s c P F) {slab : U64} (hs : slab ∈ P ++ F) :
    SlabOf s c slab := by
  refine ⟨h.ne_zero hs, ?_⟩
  rcases List.mem_append.mp hs with hs | hs
  · exact ⟨_, .inl rfl, reaches_of_mem h.partialList hs⟩
  · exact ⟨_, .inr rfl, reaches_of_mem h.fullList hs⟩

theorem cacheInv_new (s : Phys) (size : U64) : CacheInv s ⟨size, 0, 0, 0, 0, 0⟩ [] [] :=
  ⟨.nil, .nil, nofun, rfl, nofun, nofun, nofun, nofun, nofun⟩

theorem CacheRun.step {s t : CacheSys} (hz : ObjSize size) (h : CacheRun size s P F)
    (hst : CacheStep s t) : ∃ P' F', CacheRun size t P' F' := by
  have hz' : ObjSize s.cache.objSize := h.objSize.symm ▸ hz
  cases hst with
  | alloc p c' phys' he =>
    rcases slabAlloc_spec h.inv hz' h.valid with ⟨-, hnull⟩ | ⟨q, c₁, s₁, P', F', hq, hs, ht⟩
    · obtain ⟨rfl, rfl, rfl⟩ := (by simpa using hnull.symm.trans he : 0 = p ∧ _ = c' ∧ _ = phys')
      exact ⟨P, F, h⟩
    · obtain ⟨rfl, rfl, rfl⟩ := (by simpa using hs.symm.trans he : q = p ∧ c₁ = c' ∧ s₁ = phys')
      have hobj := ht.obj
      rw [h.objSize] at hobj
      refine ⟨P', F', ht.size.trans h.objSize, (ht.touches.pmm h.valid).1, ht.inv, fun r hr => ?_⟩
      dsimp only at hr
      rw [if_neg hq] at hr
      rcases hr with rfl | hr
      · exact (hobj r).mpr (.inr rfl)
      · exact (hobj r).mpr (.inl (h.live r hr))
  | free p c' phys' hp he =>
    have ho := h.live p hp
    rw [← h.objSize] at ho
    obtain ⟨c₁, s₁, P', F', hs, ht⟩ := slabFree_spec h.inv hz' ho
    obtain ⟨rfl, rfl⟩ := (by simpa using hs.symm.trans he : c₁ = c' ∧ s₁ = phys')
    have hobj := ht.obj
    rw [h.objSize] at hobj
    have hv := (ht.returns.pmm h.valid h.inv.aligned (fun r hr => h.inv.ne_zero hr) h.inv.used).1
    exact ⟨P', F', ht.size.trans h.objSize, hv, ht.inv,
      fun r hr => (hobj r).mpr ⟨h.live r hr.1, hr.2⟩⟩
  | env phys' hv hslab =>
    have hslab (r : U64) (hr : r ∈ P ++ F) := hslab r (h.inv.slabOf_of_mem hr)
    exact ⟨P, F, h.objSize, hv, h.inv.congr (fun r hr => (hslab r hr).1)
      fun r hr => (hslab r hr).2 (h.inv.used r hr),
      fun r hr => (obj_congr (fun x hx => (hslab x hx).1) r).mpr (h.live r hr)⟩

theorem CacheRun.run {s t : CacheSys} (hz : ObjSize size) (h : CacheRun size s P F)
    (hrun : Relation.ReflTransGen CacheStep s t) : ∃ P' F', CacheRun size t P' F' := by
  induction hrun with
  | refl => exact ⟨P, F, h⟩
  | tail _ hst ih =>
    obtain ⟨P', F', h'⟩ := ih
    exact h'.step hz hst

theorem objectLaw_of_obj {objSize p : U64} (hz : ObjSize objSize) (hsize : size ≤ objSize)
    (h8 : align.toNat ∣ 8) (hmul : align.toNat ∣ objSize.toNat) {c : SlabCache}
    (hinv : CacheInv s c P F) (hc : c.objSize = objSize) (ho : Obj s objSize (P ++ F) p) :
    ObjectLaw size align s p := by
  obtain ⟨q, hq, hpq, hlo, hhi⟩ := ho.bounds hinv.aligned hz
  have hmask : pageMask p = q := by
    rw [pageMask_eq, hpq]
    exact hinv.aligned q hq
  have hobj : (headerAt s (pageMask p)).objSize.toNat = objSize.toNat := by
    rw [hmask, (hinv.ok q hq).objSize, hc, BitVec.toNat_setWidth]
    exact Nat.mod_eq_of_lt (by have := hz.le; omega)
  refine ⟨by rw [hobj]; exact BitVec.le_def.mp hsize, ?_, hlo, by rw [hobj]; exact hhi⟩
  obtain ⟨r, hr, idx, hi, -, rfl⟩ := ho
  rw [objAddr_toNat (hinv.aligned r hr) hz hi]
  have h4096 : align.toNat ∣ 4096 := Nat.dvd_trans h8 (by decide)
  have h56 : align.toNat ∣ 56 := Nat.dvd_trans h8 (by decide)
  exact Nat.dvd_add (Nat.dvd_add (Nat.dvd_trans h4096 (Nat.dvd_mul_left ..)) h56)
    (Nat.dvd_trans hmul (Nat.dvd_mul_left ..))

theorem cacheLaw_of_room {objSize : U64} (hz : ObjSize objSize) (hsize : size ≤ objSize)
    (h8 : align.toNat ∣ 8) (hmul : align.toNat ∣ objSize.toNat) :
    CacheLaw ⟨objSize, 0, 0, 0, 0, 0⟩ size align := by
  intro s₀ hv s hrun
  have hstart : CacheRun objSize ⟨s₀, ⟨objSize, 0, 0, 0, 0, 0⟩, ∅⟩ [] [] :=
    ⟨rfl, hv, cacheInv_new s₀ objSize, nofun⟩
  obtain ⟨P, F, h⟩ := hstart.run hz hrun
  have hz' : ObjSize s.cache.objSize := h.objSize.symm ▸ hz
  refine ⟨fun slab hs => ?_, fun p c' phys' he hp => ?_⟩
  · rw [(h.inv.ok slab (h.inv.mem_of_slabOf hs)).totalObjs]
    exact hz'.total_pos
  · rcases slabAlloc_spec h.inv hz' h.valid with ⟨-, hnull⟩ | ⟨q, c₁, s₁, P', F', -, hs, ht⟩
    · exact absurd (congrArg Prod.fst (Option.some.inj (he.symm.trans hnull))) hp
    · obtain ⟨rfl, rfl, rfl⟩ := (by simpa using hs.symm.trans he : q = p ∧ c₁ = c' ∧ s₁ = phys')
      have ho := (ht.obj q).mpr (.inr rfl)
      rw [h.objSize] at ho
      exact objectLaw_of_obj hz hsize h8 hmul ht.inv (ht.size.trans h.objSize) ho

/-! ## The first object -/

theorem slabGrow_eq {i : Nat} {t : Phys} (he : s.alloc = (pageAddr i, t)) (h0 : pageAddr i ≠ 0) :
    ∃ u, slabGrow c s = (pageAddr i,
        { c with partialHead := pageAddr i, numSlabs := c.numSlabs + 1 }, u) ∧
      headerAt u (pageAddr i) = emptyHeader c.objSize c.partialHead ∧ u.pmm = t.pmm := by
  let u := setHeader (pageAddr i) (fun _ => emptyHeader c.objSize 0) t
  have hcreate : slabCreate c.objSize s = (pageAddr i, u) := by
    unfold slabCreate
    rw [he]
    exact if_neg h0
  refine ⟨setHeader (pageAddr i) (fun h => { h with next := c.partialHead }) u, ?_, ?_, rfl⟩
  · unfold slabGrow
    rw [hcreate]
    exact if_neg h0
  · rw [headerAt_setHeader_self, headerAt_setHeader_self]
    rfl

theorem slabGetObj_zero (s : Phys) (slab : U64) : slabGetObj s slab 0 = slab + 56 := by
  simp [slabGetObj]

theorem Phys.alloc_first {i : Nat} (hf : s.pmm.Free i) (hlow : ∀ j, j < i → ¬ s.pmm.Free j) :
    s.alloc = (pageAddr i, { s with pmm := s.pmm.mark i }) := by
  unfold Phys.alloc
  rcases pmmAlloc_cases s.pmm with ⟨hn, -⟩ | ⟨j, hj, hlow', he⟩
  · exact absurd hf (hn i)
  · obtain rfl : j = i := Nat.le_antisymm (Nat.le_of_not_lt fun h => hlow' i h hf)
      (Nat.le_of_not_lt fun h => hlow j h hj)
    rw [he]

/-- The first object of the first slab of a cache starts 56 bytes into the page. -/
theorem slabAlloc_first {i : Nat} (hp : c.partialHead = 0) (hf : s.pmm.Free i)
    (hlow : ∀ j, j < i → ¬ s.pmm.Free j) (h0 : pageAddr i ≠ 0) (hroom : slabTotal c.objSize ≠ 0) :
    ∃ c' s', slabAlloc c s = some (pageAddr i + 56, c', s') := by
  obtain ⟨u, hgrow, hheader, -⟩ := slabGrow_eq (c := c) (Phys.alloc_first hf hlow) h0
  have hpos : 0 < (slabTotal c.objSize).toNat :=
    Nat.pos_of_ne_zero fun h => hroom (BitVec.eq_of_toNat_eq h)
  have hfind : bitmapFindFree (headerAt u (pageAddr i)).freeBitmap
      (headerAt u (pageAddr i)).totalObjs.toNat = some 0 := by
    rw [hheader]
    unfold bitmapFindFree
    rw [List.find?_range_eq_some]
    exact ⟨by simp [bitmapTest, emptyHeader], List.mem_range.mpr hpos,
      fun j hj => absurd hj (Nat.not_lt_zero j)⟩
  unfold slabAlloc slabPick
  rw [if_pos hp, hgrow]
  dsimp only
  rw [if_neg h0, hfind]
  unfold slabTake
  dsimp only
  split
  · unfold moveSlab unlinkSlab
    rw [if_pos rfl]
    exact ⟨_, _, congrArg (fun p => some (p, _)) (slabGetObj_zero _ _)⟩
  · exact ⟨_, _, congrArg (fun p => some (p, _)) (slabGetObj_zero _ _)⟩

/-- Objects too long for a page: a second slab is made, and it has no room either. -/
theorem slabAlloc_no_room {i j : Nat} (hp : c.partialHead = 0) (hf : s.pmm.Free i)
    (hlow : ∀ k, k < i → ¬ s.pmm.Free k) (h0 : pageAddr i ≠ 0) (hf' : (s.pmm.mark i).Free j)
    (hlow' : ∀ k, k < j → ¬ (s.pmm.mark i).Free k) (hj0 : pageAddr j ≠ 0)
    (hroom : slabTotal c.objSize = 0) :
    ∃ p c' s', slabAlloc c s = some (p, c', s') ∧ SlabOf s' c' (pageAddr j) ∧
      (headerAt s' (pageAddr j)).totalObjs = 0 := by
  obtain ⟨u, hgrow, hheader, hpmm⟩ := slabGrow_eq (c := c) (Phys.alloc_first hf hlow) h0
  obtain ⟨v, hgrow', hheader', -⟩ := slabGrow_eq
    (c := { c with partialHead := pageAddr i, numSlabs := c.numSlabs + 1 })
    (Phys.alloc_first (s := u) (hpmm.symm ▸ hf') (hpmm.symm ▸ hlow')) hj0
  have hfind : bitmapFindFree (headerAt u (pageAddr i)).freeBitmap
      (headerAt u (pageAddr i)).totalObjs.toNat = none := by
    rw [hheader, show (emptyHeader c.objSize c.partialHead).totalObjs = 0 from hroom]
    rfl
  -- `free_objs` is 0 - 1, so the slab does not even count as full
  have htake : (headerAt (setHeader (pageAddr j) (SlabHeader.take 0) v) (pageAddr j)).totalObjs = 0
      ∧ (headerAt (setHeader (pageAddr j) (SlabHeader.take 0) v) (pageAddr j)).freeObjs ≠ 0 := by
    rw [headerAt_setHeader_self, hheader']
    unfold emptyHeader SlabHeader.take
    dsimp only
    rw [hroom]
    exact ⟨rfl, by decide⟩
  unfold slabAlloc slabPick
  rw [if_pos hp, hgrow]
  dsimp only
  rw [if_neg h0, hfind]
  dsimp only
  rw [hgrow']
  dsimp only
  rw [if_neg hj0]
  unfold slabTake
  dsimp only
  rw [if_neg htake.2]
  exact ⟨_, _, _, rfl, ⟨hj0, _, .inl rfl, .refl⟩, htake.1⟩

/-- A cache that keeps the law has an `align` that divides 8: its first object may lie in page 1 or
in page 2. -/
theorem CacheLaw.align_dvd {objSize : U64} (h : CacheLaw ⟨objSize, 0, 0, 0, 0, 0⟩ size align) :
    align.toNat ∣ 8 := by
  have hf : eightPages.pmm.Free 1 := by decide
  have hf' : (eightPages.pmm.mark 1).Free 2 := by decide
  by_cases hroom : slabTotal objSize = 0
  · obtain ⟨p, c', s', he, hslab, hzero⟩ := slabAlloc_no_room (s := eightPages)
      (c := ⟨objSize, 0, 0, 0, 0, 0⟩) rfl hf (by decide) (by decide) hf' (by decide) (by decide)
      hroom
    have hone := (h eightPages eightPages_valid _ (.single (.alloc _ p c' s' he))).1 _ hslab
    rw [hzero] at hone
    exact absurd hone (by decide)
  · obtain ⟨c₁, s₁, h₁⟩ := slabAlloc_first (s := eightPages) (c := ⟨objSize, 0, 0, 0, 0, 0⟩) rfl hf
      (by decide) (by decide) hroom
    obtain ⟨c₂, s₂, h₂⟩ := slabAlloc_first (s := ⟨eightPages.pmm.mark 1, eightPages.mem⟩)
      (c := ⟨objSize, 0, 0, 0, 0, 0⟩) rfl hf' (by decide) (by decide) hroom
    have hd₁ : align.toNat ∣ 4152 :=
      ((h _ eightPages_valid _ .refl).2 _ _ _ h₁ (by decide)).aligned
    have hd₂ : align.toNat ∣ 8248 :=
      ((h _ (eightPages_valid.mark hf) _ .refl).2 _ _ _ h₂ (by decide)).aligned
    exact Nat.dvd_gcd hd₁ hd₂

/-! ## The size of an object -/

theorem alignedSize_toNat {k : Nat} (hk : k ≤ 3) (hsize : size ≤ 2048) :
    (alignedSize size (BitVec.ofNat 64 (2 ^ k))).toNat =
      max 16 ((size.toNat + (2 ^ k - 1)) / 2 ^ k * 2 ^ k) := by
  have hle : size.toNat ≤ 2048 := BitVec.le_def.mp hsize
  have hpow : 2 ^ k ≤ 2 ^ 3 := Nat.pow_le_pow_right (by decide) hk
  have hpos : 0 < 2 ^ k := Nat.two_pow_pos k
  have hone : (1 : U64).toNat = 1 := rfl
  have hmask : BitVec.ofNat 64 (2 ^ k) - 1 = BitVec.ofNat 64 (2 ^ k - 1) := by
    apply BitVec.eq_of_toNat_eq
    simp only [BitVec.toNat_sub, BitVec.toNat_ofNat]
    omega
  have hsum : (size + BitVec.ofNat 64 (2 ^ k) - 1).toNat = size.toNat + (2 ^ k - 1) := by
    simp only [BitVec.toNat_sub, BitVec.toNat_add, BitVec.toNat_ofNat]
    omega
  have hround := lowMask_toNat (size + BitVec.ofNat 64 (2 ^ k) - 1) k
  rw [hsum] at hround
  unfold alignedSize
  rw [hmask]
  dsimp only
  split
  · next hlt =>
    rw [BitVec.lt_def, hround] at hlt
    exact (Nat.max_eq_left (Nat.le_of_lt hlt)).symm
  · next hlt =>
    rw [BitVec.lt_def, hround] at hlt
    rw [hround]
    exact (Nat.max_eq_right (Nat.le_of_not_lt hlt)).symm

/-- With an `align` that divides 8 an object has room for `size` bytes, and a page for an object. -/
theorem alignedSize_room (hsize : size ≤ 2048) (h8 : align.toNat ∣ 8) :
    ObjSize (alignedSize size align) ∧ size ≤ alignedSize size align ∧
      align.toNat ∣ (alignedSize size align).toNat := by
  obtain ⟨k, hk, hpow⟩ := (Nat.dvd_prime_pow Nat.prime_two (m := 3)).mp h8
  obtain rfl : align = BitVec.ofNat 64 (2 ^ k) := by
    rw [← hpow, BitVec.ofNat_toNat, BitVec.setWidth_eq]
  have hle : size.toNat ≤ 2048 := BitVec.le_def.mp hsize
  have hpos : 0 < 2 ^ k := Nat.two_pow_pos k
  have hp : 2 ^ k ≤ 2 ^ 3 := Nat.pow_le_pow_right (by decide) hk
  have hdiv := Nat.div_add_mod' (size.toNat + (2 ^ k - 1)) (2 ^ k)
  have hmod := Nat.mod_lt (size.toNat + (2 ^ k - 1)) hpos
  refine ⟨⟨?_, ?_⟩, ?_, ?_⟩
  · rw [alignedSize_toNat hk hsize]
    omega
  · rw [alignedSize_toNat hk hsize]
    omega
  · rw [BitVec.le_def, alignedSize_toNat hk hsize]
    omega
  · rw [hpow, alignedSize_toNat hk hsize]
    rcases Nat.le_total 16 ((size.toNat + (2 ^ k - 1)) / 2 ^ k * 2 ^ k) with h | h
    · rw [Nat.max_eq_right h]
      exact Nat.dvd_mul_left _ _
    · rw [Nat.max_eq_left h]
      exact Nat.pow_dvd_pow 2 (n := 4) (Nat.le_trans hk (by decide))

end

/-! ## The caches of the kernel -/

theorem slabCacheCreate_some {size align : U64} {n : Nat} {h h' : Heap} {d : AlignedCache}
    (he : slabCacheCreate size align n h = some (some d, h')) :
    size ≤ 2048 ∧ d = ⟨⟨alignedSize size align, 0, 0, 0, 0, 0⟩, align⟩ := by
  unfold slabCacheCreate at he
  split at he
  · cases he
  split at he
  · cases he
  next hsize =>
    cases hk : kmallocSlab 64 h with
    | none =>
      rw [hk] at he
      cases he
    | some r =>
      rw [hk] at he
      obtain ⟨p, h₁⟩ := r
      replace he : (if p = 0 then some (none, h₁)
          else some (some ⟨⟨alignedSize size align, 0, 0, 0, 0, 0⟩, align⟩, h₁)) =
            some (some d, h') := he
      split at he
      · cases he
      · cases he
        exact ⟨BitVec.not_lt.mp fun hlt => hsize (.inr hlt), rfl⟩

/-- **Objects are as promised exactly for an `align` of 1, 2, 4 or 8**: `d` is any cache that
`slab_cache_create` returns, and the eight caches of `slab_init` never keep the law. -/
theorem slab_law_iff {size align : U64} {n : Nat} {h h' : Heap} {d : AlignedCache}
    (he : slabCacheCreate size align n h = some (some d, h')) :
    (CacheLaw d.cache size d.align ↔ d.align.toNat ∣ 8) ∧
      ∀ s i, ¬ CacheLaw ((slabInit s).caches i) (slabSizes i) slabInitAlign := by
  obtain ⟨hsize, rfl⟩ := slabCacheCreate_some he
  refine ⟨⟨CacheLaw.align_dvd, fun h8 => ?_⟩, fun s i hlaw => ?_⟩
  · obtain ⟨hz, hle, hdvd⟩ := alignedSize_room hsize h8
    exact cacheLaw_of_room hz hle h8 hdvd
  · exact absurd hlaw.align_dvd (by decide)

/-- A cache of 24 bytes with `align` 8, on eight pages. -/
theorem slab_law_eight :
    ∃ d h', slabCacheCreate 24 8 8 (slabInit eightPages) = some (some d, h') ∧
      CacheLaw d.cache 24 d.align := by
  have hp : (kmallocSlab 64 (slabInit eightPages)).map Prod.fst = some 0x1038 := by decide
  obtain ⟨⟨p, h'⟩, hk, rfl⟩ := Option.map_eq_some_iff.mp hp
  have he : slabCacheCreate 24 8 8 (slabInit eightPages) =
      some (some ⟨⟨alignedSize 24 8, 0, 0, 0, 0, 0⟩, 8⟩, h') := by
    unfold slabCacheCreate
    rw [hk]
    rfl
  exact ⟨_, h', he, (slab_law_iff he).1.mpr (by decide)⟩

/-- The first object of `kmalloc-16` on eight pages lies at `0x1038`, no multiple of 16. -/
theorem kmalloc16_misaligned :
    (slabAlloc ((slabInit eightPages).caches 0) eightPages).map Prod.fst = some 0x1038 ∧
      ¬ slabInitAlign.toNat ∣ (0x1038 : U64).toNat ∧
      ¬ CacheLaw ((slabInit eightPages).caches 0) (slabSizes 0) slabInitAlign := by
  refine ⟨by decide, by decide, fun hlaw => ?_⟩
  exact absurd hlaw.align_dvd (by decide)

end Sinux.Mm

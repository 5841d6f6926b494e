import Sinux.Mm.SlabInv
import Sinux.Mm.Large

/-!
# The kernel heap over whole runs

A run of the heap after `slab_init`: calls of `kmalloc_slab` and `kfree_slab` of live blocks, in any
order and over all size classes, while the rest of the kernel takes and returns pages of the
page-frame allocator and clients write into their blocks.

* `HeapInv`: the lists, bitmaps and counters of the eight caches are consistent, and every page has
  one owner.
* `heapInv_step`, `heapInv_of_reach`: one step keeps that, so it holds in every state of a run whose
  large calls find consecutive pages.
-/

namespace Sinux.Mm

open Function Sinux.Lib

/-! ## Size classes -/

/-- The cache a small block comes from. -/
def sizeClass (size : U64) : Option (Fin 8) :=
  (List.finRange 8).find? fun i => decide (size ≤ slabSizes i)

theorem sizeClass_le {size : U64} {i : Fin 8} (h : sizeClass size = some i) : size ≤ slabSizes i :=
  of_decide_eq_true (List.find?_some (p := fun i => decide (size ≤ slabSizes i)) h)

theorem sizeClass_of_le {size : U64} (h : size ≤ 2048) : ∃ i, sizeClass size = some i := by
  cases hc : sizeClass size with
  | some i => exact ⟨i, rfl⟩
  | none => exact absurd (decide_eq_true h) (List.find?_eq_none.mp hc 7 (List.mem_finRange 7))

theorem objSize_slabSizes (i : Fin 8) : ObjSize (slabSizes i) := by
  revert i
  have h : ∀ i, 0 < (slabSizes i).toNat ∧ (slabSizes i).toNat ≤ 4040 := by decide
  exact fun i => ⟨(h i).1, (h i).2⟩

theorem find_objSize (i : Fin 8) : (List.finRange 8).find? (fun j =>
    decide (slabSizes j = ((slabSizes i).setWidth 32).setWidth 64)) = some i := by
  revert i
  decide

/-! ## Runs -/

/-- A run's state: the heap, the live blocks with the sizes they were asked for, and the pages that
belong to the rest of the kernel. -/
structure HeapSys where
  heap : Heap
  live : U64 → Option U64
  ext : Set Nat

/-- The block at `q` is live and has a byte in word `k` of page `f`. -/
def InBlock (s : HeapSys) (f : Nat) (k : Fin 512) : Prop :=
  ∃ q size, s.live q = some size ∧ f * 4096 + 8 * k.val < q.toNat + size.toNat ∧
    q.toNat < f * 4096 + 8 * k.val + 8

/-- What the rest of the kernel does: `pmm_alloc()`, `pmm_free` of a page of its own, and stores
into its own pages or into live blocks. -/
inductive EnvStep : HeapSys → HeapSys → Prop
  | alloc (s : HeapSys) :
      EnvStep s ⟨{ s.heap with phys := s.heap.phys.alloc.2 }, s.live,
        if s.heap.phys.alloc.1 = 0 then s.ext else insert (pageOf s.heap.phys.alloc.1) s.ext⟩
  | free (s : HeapSys) (page : U64) (hp : pageOf page ∈ s.ext) (h0 : pageOf page ≠ 0) :
      EnvStep s ⟨{ s.heap with phys := s.heap.phys.free page }, s.live, s.ext \ {pageOf page}⟩
  | store (s : HeapSys) (f : Nat) (k : Fin 512) (v : U64) (hf : f ∈ s.ext ∨ InBlock s f k) :
      EnvStep s ⟨{ s.heap with phys :=
        { s.heap.phys with mem := Radix.store s.heap.phys.mem f k v } }, s.live, s.ext⟩

/-- One step of a run whose calls of `kmalloc_slab` meet the condition `ok`. -/
inductive HeapStep (ok : Pmm → U64 → Prop) : HeapSys → HeapSys → Prop
  | malloc (s : HeapSys) (size p : U64) (h' : Heap) (hok : ok s.heap.phys.pmm size)
      (he : kmallocSlab size s.heap = some (p, h')) :
      HeapStep ok s ⟨h', if p = 0 then s.live else update s.live p (some size), s.ext⟩
  | free (s : HeapSys) (p : U64) (h' : Heap) (hp : (s.live p).isSome)
      (he : kfreeSlab p s.heap = some h') :
      HeapStep ok s ⟨h', update s.live p none, s.ext⟩
  | env (s t : HeapSys) (he : EnvStep s t) : HeapStep ok s t

/-- `slab_init` on the memory `s0`: nothing is live, and what is not free belongs to others. -/
def heapInit (s0 : Phys) : HeapSys := ⟨slabInit s0, fun _ => none, {f | ¬ s0.pmm.Free f}⟩

/-- The states of the runs from `slab_init`. -/
def HeapReach (ok : Pmm → U64 → Prop) (s0 : Phys) : HeapSys → Prop :=
  Relation.ReflTransGen (HeapStep ok) (heapInit s0)

/-! ## The invariant -/

/-- Page `g` is a slab of one of the caches. -/
def SlabPage (P F : Fin 8 → List U64) (g : Nat) : Prop := ∃ i, ∃ p ∈ P i ++ F i, pageOf p = g

/-- Page `g` belongs to the live block above 2048 bytes at `q`. -/
def LargePage (live : U64 → Option U64) (q : U64) (g : Nat) : Prop :=
  ∃ size, live q = some size ∧ 2048 < size ∧ Overlaps q size g

/-- The heap's state is consistent: every page has one owner. -/
structure HeapInv (s : HeapSys) (P F : Fin 8 → List U64) : Prop where
  valid : s.heap.phys.pmm.Valid
  size : ∀ i, (s.heap.caches i).objSize = slabSizes i
  cache : ∀ i, CacheInv s.heap.phys (s.heap.caches i) (P i) (F i)
  /-- No slab belongs to two caches. -/
  apart : ∀ i j, i ≠ j → ∀ p ∈ P i ++ F i, p ∉ P j ++ F j
  /-- A small live block is an object of its class. -/
  small : ∀ q size, s.live q = some size → size ≤ 2048 →
    ∃ i, sizeClass size = some i ∧ Obj s.heap.phys (slabSizes i) (P i ++ F i) q
  /-- A large live block starts on a page, and its pages are in use. -/
  large : ∀ q size, s.live q = some size → 2048 < size → Aligned q ∧ q ≠ 0
  largeUsed : ∀ q g, LargePage s.live q g → s.heap.phys.pmm.Used g
  largeSlab : ∀ q g, LargePage s.live q g → ¬ SlabPage P F g
  largeApart : ∀ q q' g, LargePage s.live q g → LargePage s.live q' g → q = q'
  extFree : ∀ g ∈ s.ext, ¬ s.heap.phys.pmm.Free g
  extSlab : ∀ g ∈ s.ext, ¬ SlabPage P F g
  extLarge : ∀ g ∈ s.ext, ∀ q, ¬ LargePage s.live q g

theorem heapInv_init {s0 : Phys} (hv : s0.pmm.Valid) :
    HeapInv (heapInit s0) (fun _ => []) (fun _ => []) := by
  have hnone : ∀ q g, ¬ LargePage (heapInit s0).live q g := by
    rintro q g ⟨size, h, _⟩
    exact absurd h (Option.some_ne_none size).symm
  have hslab : ∀ g, ¬ SlabPage (fun _ => []) (fun _ => []) g := by
    rintro g ⟨i, p, hp, _⟩
    exact absurd hp List.not_mem_nil
  refine ⟨hv, fun _ => rfl, fun i => ?_, fun _ _ _ _ hp => absurd hp List.not_mem_nil,
    fun q size h => absurd h (Option.some_ne_none size).symm,
    fun q size h => absurd h (Option.some_ne_none size).symm,
    fun q g h => absurd h (hnone q g), fun q g h => absurd h (hnone q g),
    fun q _ g h => absurd h (hnone q g), fun _ hg => hg, fun g _ => hslab g, fun g _ q => hnone q g⟩
  exact ⟨Chain.nil, Chain.nil, fun _ hp => absurd hp List.not_mem_nil, rfl,
    fun _ hp => absurd hp List.not_mem_nil, fun _ hp => absurd hp List.not_mem_nil,
    fun _ hp => absurd hp List.not_mem_nil, fun _ hp => absurd hp List.not_mem_nil,
    fun _ hp => absurd hp List.not_mem_nil⟩

/-! ## Steps -/

variable {s : HeapSys} {P F : Fin 8 → List U64}

theorem live_insert (live : U64 → Option U64) (p size q sz : U64)
    (h : update live p (some size) q = some sz) :
    (q = p ∧ sz = size) ∨ (q ≠ p ∧ live q = some sz) := by
  by_cases hqp : q = p
  · rw [hqp, update_self, Option.some_inj] at h
    exact Or.inl ⟨hqp, h.symm⟩
  · rw [update_of_ne hqp] at h
    exact Or.inr ⟨hqp, h⟩

theorem live_erase (live : U64 → Option U64) (p q sz : U64)
    (h : update live p none q = some sz) : q ≠ p ∧ live q = some sz := by
  by_cases hqp : q = p
  · rw [hqp, update_self] at h
    exact absurd h (Option.some_ne_none sz).symm
  · rw [update_of_ne hqp] at h
    exact ⟨hqp, h⟩

theorem LargePage.mono {live live' : U64 → Option U64} {q : U64} {g : Nat}
    (hlive : ∀ q size, live' q = some size → 2048 < size → live q = some size)
    (h : LargePage live' q g) : LargePage live q g := by
  obtain ⟨size, hq, hlt, ho⟩ := h
  exact ⟨size, hlive q size hq hlt, hlt, ho⟩

namespace HeapInv

theorem slabUsed (h : HeapInv s P F) {g : Nat} (hg : SlabPage P F g) :
    s.heap.phys.pmm.Used g := by
  obtain ⟨i, p, hp, rfl⟩ := hg
  exact (h.cache i).used p hp

/-- The caches stay: the headers of their slabs and the pages of the blocks are as before. -/
theorem frame (h : HeapInv s P F) {phys' : Phys} {live' : U64 → Option U64} {ext' : Set Nat}
    (hv : phys'.pmm.Valid)
    (hhead : ∀ g, SlabPage P F g → readHeader phys'.mem g = readHeader s.heap.phys.mem g)
    (hslab : ∀ g, SlabPage P F g → phys'.pmm.Used g)
    (hlive : ∀ q size, live' q = some size → s.live q = some size)
    (hlarge : ∀ q g, LargePage live' q g → phys'.pmm.Used g)
    (hext : ∀ g ∈ ext', ¬ phys'.pmm.Free g ∧ ¬ SlabPage P F g ∧ ∀ q, ¬ LargePage s.live q g) :
    HeapInv ⟨{ s.heap with phys := phys' }, live', ext'⟩ P F := by
  have hmono : ∀ q g, LargePage live' q g → LargePage s.live q g := fun q g =>
    LargePage.mono fun q size hq _ => hlive q size hq
  have hh : ∀ i, ∀ p ∈ P i ++ F i, headerAt phys' p = headerAt s.heap.phys p := fun i p hp =>
    hhead _ ⟨i, p, hp, rfl⟩
  refine ⟨hv, h.size, fun i => ?_, h.apart, fun q size hq hle => ?_,
    fun q size hq => h.large q size (hlive q size hq), hlarge,
    fun q g hg => h.largeSlab q g (hmono q g hg),
    fun q q' g hg hg' => h.largeApart q q' g (hmono q g hg) (hmono q' g hg'),
    fun g hg => (hext g hg).1, fun g hg => (hext g hg).2.1,
    fun g hg q hq => (hext g hg).2.2 q (hmono q g hq)⟩
  · exact (h.cache i).congr (hh i) fun p hp => hslab _ ⟨i, p, hp, rfl⟩
  · obtain ⟨i, hc, ho⟩ := h.small q size (hlive q size hq) hle
    exact ⟨i, hc, (obj_congr (hh i) q).mpr ho⟩

theorem setCache (h : HeapInv s P F) (i : Fin 8) {phys' : Phys} {c' : SlabCache} {P' F' : List U64}
    {live' : U64 → Option U64} (hv : phys'.pmm.Valid) (hsize : c'.objSize = slabSizes i)
    (hinv : CacheInv phys' c' P' F')
    (hother : ∀ j, j ≠ i → ∀ p ∈ P j ++ F j, headerAt phys' p = headerAt s.heap.phys p ∧
      phys'.pmm.Used (pageOf p))
    (hnew : ∀ p ∈ P' ++ F', p ∈ P i ++ F i ∨ s.heap.phys.pmm.Free (pageOf p))
    (hused : ∀ q g, LargePage s.live q g → phys'.pmm.Used g)
    (hfree : ∀ g ∈ s.ext, ¬ phys'.pmm.Free g)
    (hlive : ∀ q size, live' q = some size → 2048 < size → s.live q = some size)
    (hsmall : ∀ q size, live' q = some size → size ≤ 2048 →
      (∃ j, j ≠ i ∧ sizeClass size = some j ∧
        Obj s.heap.phys (slabSizes j) (P j ++ F j) q) ∨
      (sizeClass size = some i ∧ Obj phys' (slabSizes i) (P' ++ F') q)) :
    HeapInv ⟨⟨phys', update s.heap.caches i c'⟩, live', s.ext⟩
      (update P i P') (update F i F') := by
  have hmono : ∀ q g, LargePage live' q g → LargePage s.live q g := fun q g => LargePage.mono hlive
  -- a slab is one of before or was a free page
  have hpage : ∀ g, SlabPage (update P i P') (update F i F') g →
      SlabPage P F g ∨ s.heap.phys.pmm.Free g := by
    rintro g ⟨j, p, hp, rfl⟩
    by_cases hj : j = i
    · subst hj
      rw [update_self, update_self] at hp
      exact (hnew p hp).imp (fun hp => ⟨j, p, hp, rfl⟩) id
    · rw [update_of_ne hj, update_of_ne hj] at hp
      exact Or.inl ⟨j, p, hp, rfl⟩
  have hcross : ∀ j, j ≠ i → ∀ p ∈ P j ++ F j, p ∉ P' ++ F' := fun j hj p hp hp' => by
    rcases hnew p hp' with hpi | hpf
    · exact h.apart j i hj p hp hpi
    · exact Pmm.not_free_of_used ((h.cache j).used p hp) hpf
  refine ⟨hv, fun j => ?_, fun j => ?_, fun j k hjk p hp => ?_, fun q size hq hle => ?_,
    fun q size hq hlt => h.large q size (hlive q size hq hlt) hlt,
    fun q g hg => hused q g (hmono q g hg), fun q g hg hs => ?_,
    fun q q' g hg hg' => h.largeApart q q' g (hmono q g hg) (hmono q' g hg'), hfree,
    fun g hg hs => ?_, fun g hg q hq => h.extLarge g hg q (hmono q g hq)⟩
  · dsimp only
    by_cases hj : j = i
    · rw [hj, update_self, hsize]
    · rw [update_of_ne hj, h.size j]
  · dsimp only
    by_cases hj : j = i
    · subst hj
      rw [update_self, update_self, update_self]
      exact hinv
    · rw [update_of_ne hj, update_of_ne hj, update_of_ne hj]
      exact (h.cache j).congr (fun p hp => (hother j hj p hp).1) fun p hp => (hother j hj p hp).2
  · by_cases hj : j = i
    · have hk : k ≠ i := fun hk => hjk (hj.trans hk.symm)
      subst hj
      rw [update_self, update_self] at hp
      rw [update_of_ne hk, update_of_ne hk]
      exact fun hp' => hcross k hk p hp' hp
    · rw [update_of_ne hj, update_of_ne hj] at hp
      by_cases hk : k = i
      · subst hk
        rw [update_self, update_self]
        exact hcross j hj p hp
      · rw [update_of_ne hk, update_of_ne hk]
        exact h.apart j k hjk p hp
  · rcases hsmall q size hq hle with ⟨j, hj, hc, ho⟩ | ⟨hc, ho⟩
    · refine ⟨j, hc, ?_⟩
      rw [update_of_ne hj, update_of_ne hj]
      exact (obj_congr (fun p hp => (hother j hj p hp).1) q).mpr ho
    · refine ⟨i, hc, ?_⟩
      rw [update_self, update_self]
      exact ho
  · rcases hpage g hs with hs | hf
    · exact h.largeSlab q g (hmono q g hg) hs
    · exact Pmm.not_free_of_used (h.largeUsed q g (hmono q g hg)) hf
  · rcases hpage g hs with hs | hf
    · exact h.extSlab g hg hs
    · exact h.extFree g hg hf

/-- A store into a block or into a page of others leaves every slab header alone. -/
theorem store_header (h : HeapInv s P F) {f : Nat} {k : Fin 512} (v : U64)
    (hf : f ∈ s.ext ∨ InBlock s f k) {g : Nat} (hg : SlabPage P F g) :
    readHeader (Radix.store s.heap.phys.mem f k v) g = readHeader s.heap.phys.mem g := by
  refine readHeader_congr fun i hi => ?_
  by_cases hgf : g = f
  · subst hgf
    rcases hf with hf | ⟨q, size, hq, hlo, hhi⟩
    · exact absurd hg (h.extSlab g hf)
    · have hk : 7 ≤ k.val := by
        by_cases hle : size ≤ 2048
        · obtain ⟨i, hc, ho⟩ := h.small q size hq hle
          obtain ⟨p, _, _, hlow, hhigh⟩ := ho.bounds (h.cache i).aligned (objSize_slabSizes i)
          have hsz := BitVec.le_def.mp (sizeClass_le hc)
          have := k.isLt
          omega
        · have hlt : 2048 < size := BitVec.not_le.mp hle
          have ho : Overlaps q size g := by
            have := k.isLt
            unfold Overlaps
            omega
          exact absurd hg (h.largeSlab q g ⟨size, hq, hlt, ho⟩)
      refine Radix.store_ne fun hik => ?_
      rw [hik.2] at hi
      omega
  · exact Radix.store_ne fun hik => hgf hik.1

/-- **The rest of the kernel** cannot break the heap. -/
theorem env (h : HeapInv s P F) {t : HeapSys} (hst : EnvStep s t) : HeapInv t P F := by
  cases hst with
  | alloc =>
    rcases Phys.alloc_cases h.valid with ⟨_, he⟩ | ⟨f, hf, _, h0, he⟩
    · rw [he, if_pos rfl]
      exact h
    · rw [he]
      dsimp only
      rw [if_neg h0, pageOf_pageAddr hf.lt]
      refine h.frame (h.valid.mark hf) (fun _ _ => rfl)
        (fun g hg => (Pmm.used_mark hf.1).mpr (Or.inl (h.slabUsed hg))) (fun _ _ hq => hq)
        (fun q g hg => (Pmm.used_mark hf.1).mpr (Or.inl (h.largeUsed q g hg))) fun g hg => ?_
      rcases Set.mem_insert_iff.mp hg with rfl | hg
      · exact ⟨fun hf' => (Pmm.free_mark.mp hf').2 rfl,
          fun hs => Pmm.not_free_of_used (h.slabUsed hs) hf,
          fun q hq => Pmm.not_free_of_used (h.largeUsed q g hq) hf⟩
      · exact ⟨fun hf' => h.extFree g hg (Pmm.free_mark.mp hf').1, h.extSlab g hg,
          h.extLarge g hg⟩
  | free page hp h0 =>
    by_cases hu : s.heap.phys.pmm.Used (pageOf page)
    · have hpmm : (s.heap.phys.free page).pmm = s.heap.phys.pmm.release (pageOf page) :=
        pmmFree_used hu
      refine h.frame (hpmm ▸ h.valid.release hu h0) (fun _ _ => rfl) (fun g hg => ?_)
        (fun _ _ hq => hq) (fun q g hg => ?_) fun g hg => ?_
      · rw [hpmm, Pmm.used_release]
        exact ⟨h.slabUsed hg, fun hgp => h.extSlab _ hp (hgp ▸ hg)⟩
      · rw [hpmm, Pmm.used_release]
        exact ⟨h.largeUsed q g hg, fun hgp => h.extLarge _ hp q (hgp ▸ hg)⟩
      · rw [hpmm, Pmm.free_release hu.1]
        exact ⟨fun hf => hf.elim (h.extFree g hg.1) hg.2, h.extSlab g hg.1, h.extLarge g hg.1⟩
    · have hpmm : (s.heap.phys.free page).pmm = s.heap.phys.pmm := pmmFree_not_used hu
      exact h.frame (hpmm ▸ h.valid) (fun _ _ => rfl) (fun g hg => hpmm ▸ h.slabUsed hg)
        (fun _ _ hq => hq) (fun q g hg => hpmm ▸ h.largeUsed q g hg)
        fun g hg => ⟨hpmm ▸ h.extFree g hg.1, h.extSlab g hg.1, h.extLarge g hg.1⟩
  | store f k v hf =>
    exact h.frame h.valid (fun g hg => h.store_header v hf hg) (fun g hg => h.slabUsed hg)
      (fun _ _ hq => hq) h.largeUsed
      fun g hg => ⟨h.extFree g hg, h.extSlab g hg, h.extLarge g hg⟩

/-! ### `kmalloc_slab` -/

theorem kmallocSlab_small (h : HeapInv s P F) {size : U64} {i : Fin 8} (h0 : size ≠ 0)
    (hle : size ≤ 2048) (hc : sizeClass size = some i) :
    kmallocSlab size s.heap = (slabAlloc (s.heap.caches i) s.heap.phys).bind fun r =>
      some (r.1, ⟨r.2.2, update s.heap.caches i r.2.1⟩) := by
  unfold sizeClass at hc
  unfold kmallocSlab
  simp only [h.size]
  rw [if_neg h0, if_neg (BitVec.not_lt.mpr hle), hc]
  rfl

/-- **A small block**: the call ends, and hands out an object of its class or finds no page. -/
theorem malloc_small (h : HeapInv s P F) {size : U64} (h0 : size ≠ 0) (hle : size ≤ 2048) :
    kmallocSlab size s.heap = some (0, s.heap) ∨
      ∃ i p c' phys' P' F', p ≠ 0 ∧ sizeClass size = some i ∧
        kmallocSlab size s.heap = some (p, ⟨phys', update s.heap.caches i c'⟩) ∧
        ObjTaken s.heap.phys (s.heap.caches i) (P i) (F i) p phys' c' P' F' := by
  obtain ⟨i, hc⟩ := sizeClass_of_le hle
  have he := h.kmallocSlab_small h0 hle hc
  have hz : ObjSize (s.heap.caches i).objSize := h.size i ▸ objSize_slabSizes i
  rcases slabAlloc_spec (h.cache i) hz h.valid with ⟨_, hs⟩ | ⟨p, c', phys', P', F', hp, hs, ht⟩
  · rw [hs] at he
    refine Or.inl (he.trans ?_)
    show some ((0 : U64),
      (⟨s.heap.phys, update s.heap.caches i (s.heap.caches i)⟩ : Heap)) = _
    rw [update_eq_self]
  · rw [hs] at he
    exact Or.inr ⟨i, p, c', phys', P', F', hp, hc, he, ht⟩

theorem taken_other (h : HeapInv s P F) {p : U64} {i : Fin 8} {c' : SlabCache} {phys' : Phys}
    {P' F' : List U64} (ht : ObjTaken s.heap.phys (s.heap.caches i) (P i) (F i) p phys' c' P' F')
    {j : Fin 8} (hj : j ≠ i) {q : U64} (hq : q ∈ P j ++ F j) :
    headerAt phys' q = headerAt s.heap.phys q := by
  have hal := (h.cache j).aligned q hq
  have hne : ∀ r ∈ P' ++ F', pageOf r ≠ pageOf q := fun r hr hrq => by
    rcases (ht.touches.pmm h.valid).2.2.2 r hr with hr' | hf
    · rw [((h.cache i).aligned r hr').inj hal hrq] at hr'
      exact h.apart j i hj q hq hr'
    · rw [hrq] at hf
      exact Pmm.not_free_of_used ((h.cache j).used q hq) hf
  exact congrArg (fun m => readHeader (fun _ => m) (pageOf q)) (ht.touches.others _ hne)

theorem taken (h : HeapInv s P F) {size p : U64} {i : Fin 8} {c' : SlabCache} {phys' : Phys}
    {P' F' : List U64} (hle : size ≤ 2048) (hc : sizeClass size = some i)
    (ht : ObjTaken s.heap.phys (s.heap.caches i) (P i) (F i) p phys' c' P' F') :
    HeapInv ⟨⟨phys', update s.heap.caches i c'⟩,
      update s.live p (some size), s.ext⟩
      (update P i P') (update F i F') := by
  obtain ⟨hv, hused, hfree, hnew⟩ := ht.touches.pmm h.valid
  have hobj := ht.obj
  rw [h.size i] at hobj
  refine h.setCache i hv (ht.size.trans (h.size i)) ht.inv (fun j hj q hq => ⟨?_, ?_⟩) hnew
    (fun q g hg => hused g (h.largeUsed q g hg)) (fun g hg hf => h.extFree g hg (hfree g hf))
    (fun q sz hq hlt => ?_) fun q sz hq hsz => ?_
  · exact h.taken_other ht hj hq
  · exact hused _ ((h.cache j).used q hq)
  · rcases live_insert s.live p size q sz hq with ⟨_, rfl⟩ | ⟨_, hq⟩
    · exact absurd hle (BitVec.not_le.mpr hlt)
    · exact hq
  · rcases live_insert s.live p size q sz hq with ⟨rfl, rfl⟩ | ⟨_, hq⟩
    · exact Or.inr ⟨hc, (hobj q).mpr (Or.inr rfl)⟩
    · obtain ⟨j, hcj, ho⟩ := h.small q sz hq hsz
      by_cases hj : j = i
      · subst hj
        exact Or.inr ⟨hcj, (hobj q).mpr (Or.inl ho)⟩
      · exact Or.inl ⟨j, hj, hcj, ho⟩

theorem addLarge (h : HeapInv s P F) {q size : U64} (hlt : 2048 < size) (hal : Aligned q)
    (h0 : q ≠ 0) (hpages : ∀ g, Overlaps q size g → s.heap.phys.pmm.Used g ∧ ¬ SlabPage P F g ∧
      g ∉ s.ext ∧ ∀ q', ¬ LargePage s.live q' g) :
    HeapInv ⟨s.heap, update s.live q (some size), s.ext⟩ P F := by
  have hlive := live_insert s.live q size
  -- a page of a large block is one of before or one of the new block
  have hcases : ∀ r g, LargePage (update s.live q (some size)) r g →
      (r = q ∧ Overlaps q size g) ∨ (r ≠ q ∧ LargePage s.live r g) := by
    rintro r g ⟨sz, hr, hsz, ho⟩
    rcases hlive r sz hr with ⟨rfl, rfl⟩ | ⟨hrq, hr⟩
    · exact Or.inl ⟨rfl, ho⟩
    · exact Or.inr ⟨hrq, sz, hr, hsz, ho⟩
  refine ⟨h.valid, h.size, h.cache, h.apart, fun r sz hr hsz => ?_, fun r sz hr hsz => ?_,
    fun r g hg => ?_, fun r g hg => ?_, fun r r' g hg hg' => ?_, h.extFree, h.extSlab,
    fun g hg r hr => ?_⟩
  · rcases hlive r sz hr with ⟨_, rfl⟩ | ⟨_, hr⟩
    · exact absurd hsz (BitVec.not_le.mpr hlt)
    · exact h.small r sz hr hsz
  · rcases hlive r sz hr with ⟨rfl, _⟩ | ⟨_, hr⟩
    · exact ⟨hal, h0⟩
    · exact h.large r sz hr hsz
  · rcases hcases r g hg with ⟨_, ho⟩ | ⟨_, hg⟩
    · exact (hpages g ho).1
    · exact h.largeUsed r g hg
  · rcases hcases r g hg with ⟨_, ho⟩ | ⟨_, hg⟩
    · exact (hpages g ho).2.1
    · exact h.largeSlab r g hg
  · rcases hcases r g hg with ⟨hr, ho⟩ | ⟨_, hg⟩ <;>
      rcases hcases r' g hg' with ⟨hr', ho'⟩ | ⟨_, hg'⟩
    · exact hr.trans hr'.symm
    · exact absurd hg' ((hpages g ho).2.2.2 r')
    · exact absurd hg ((hpages g ho').2.2.2 r)
    · exact h.largeApart r r' g hg hg'
  · rcases hcases r g hr with ⟨_, ho⟩ | ⟨_, hr⟩
    · exact (hpages g ho).2.2.1 hg
    · exact h.extLarge g hg r hr

theorem taken_large (h : HeapInv s P F) {size : U64} {f : Nat} {t : Phys} (hlt : 2048 < size)
    (hf : s.heap.phys.pmm.Free f) (h0 : pageAddr f ≠ 0) (hm : t.mem = s.heap.phys.mem)
    (ht : s.heap.phys.pmm.Takes (List.range' f ((size.toNat + 4095) / 4096)) t.pmm) :
    HeapInv ⟨{ s.heap with phys := t }, update s.live (pageAddr f) (some size), s.ext⟩
      P F := by
  have hframe : HeapInv ⟨{ s.heap with phys := t }, s.live, s.ext⟩ P F :=
    h.frame (ht.valid h.valid) (fun _ _ => by rw [hm]) (fun g hg => ht.used_mono (h.slabUsed hg))
      (fun _ _ hq => hq) (fun q g hg => ht.used_mono (h.largeUsed q g hg))
      fun g hg => ⟨fun hfr => h.extFree g hg ((ht.free_iff g).mp hfr).1, h.extSlab g hg,
        h.extLarge g hg⟩
  refine hframe.addLarge hlt (aligned_pageAddr hf.lt) h0 fun g ho => ?_
  have hg : g ∈ List.range' f ((size.toNat + 4095) / 4096) :=
    List.mem_range'_1.mpr ((overlaps_pageAddr hf.lt size g).mp ho)
  have hfree := ht.free_of_mem g hg
  exact ⟨ht.used_of_mem g hg, fun hs => Pmm.not_free_of_used (h.slabUsed hs) hfree,
    fun he => h.extFree g he hfree, fun q hq => Pmm.not_free_of_used (h.largeUsed q g hq) hfree⟩

/-! ### `kfree_slab` -/

/-- **Freeing a small block**: the call ends and gives the object back. -/
theorem free_small (h : HeapInv s P F) {p size : U64} (hp : s.live p = some size)
    (hle : size ≤ 2048) : ∃ i c' phys' P' F', sizeClass size = some i ∧
      kfreeSlab p s.heap = some ⟨phys', update s.heap.caches i c'⟩ ∧
      ObjFreed s.heap.phys (s.heap.caches i) (P i) (F i) p phys' c' P' F' := by
  obtain ⟨i, hc, ho⟩ := h.small p size hp hle
  have hz := objSize_slabSizes i
  rw [← h.size i] at ho hz
  obtain ⟨c', phys', P', F', he, hfreed⟩ := slabFree_spec (h.cache i) hz ho
  refine ⟨i, c', phys', P', F', hc, ?_, hfreed⟩
  obtain ⟨slab, hx, idx, hi, _, hpe⟩ := ho
  have hok := (h.cache i).ok slab hx
  have hp0 : p ≠ 0 := hpe ▸ objAddr_ne_zero ((h.cache i).aligned slab hx) hz hi
  have hmask : pageMask p = slab := hpe ▸ (h.cache i).pageMask_obj hz hx hi
  unfold kfreeSlab
  simp only [h.size]
  rw [if_neg hp0, hmask, if_neg (not_not.mpr hok.magic), hok.objSize, h.size i, find_objSize i]
  dsimp only
  rw [he]
  rfl

theorem page_apart (h : HeapInv s P F) {i j : Fin 8} (hj : j ≠ i) {q r : U64}
    (hq : q ∈ P j ++ F j) (hr : r ∈ P i ++ F i) : pageOf r ≠ pageOf q := fun hrq => by
  rw [((h.cache i).aligned r hr).inj ((h.cache j).aligned q hq) hrq] at hr
  exact h.apart j i hj q hq hr

theorem freed_other (h : HeapInv s P F) {p : U64} {i : Fin 8} {c' : SlabCache} {phys' : Phys}
    {P' F' : List U64} (ht : ObjFreed s.heap.phys (s.heap.caches i) (P i) (F i) p phys' c' P' F')
    {j : Fin 8} (hj : j ≠ i) {q : U64} (hq : q ∈ P j ++ F j) :
    headerAt phys' q = headerAt s.heap.phys q :=
  congrArg (fun m => readHeader (fun _ => m) (pageOf q))
    (ht.returns.others _ fun _ hr => h.page_apart hj hq hr)

theorem freed (h : HeapInv s P F) {p : U64} {i : Fin 8} {c' : SlabCache} {phys' : Phys}
    {P' F' : List U64}
    (ht : ObjFreed s.heap.phys (s.heap.caches i) (P i) (F i) p phys' c' P' F') :
    HeapInv ⟨⟨phys', update s.heap.caches i c'⟩, update s.live p none, s.ext⟩
      (update P i P') (update F i F') := by
  obtain ⟨hv, hsub, hused, hfree⟩ := ht.returns.pmm h.valid (h.cache i).aligned
    (fun p hp => (h.cache i).ne_zero hp) (h.cache i).used
  have hobj := ht.obj
  rw [h.size i] at hobj
  have hlive := live_erase s.live p
  refine h.setCache i hv (ht.size.trans (h.size i)) ht.inv (fun j hj q hq => ⟨?_, ?_⟩)
    (fun r hr => Or.inl (hsub r hr))
    (fun q g hg => hused g (fun r hr hrg => h.largeSlab q g hg ⟨i, r, hr, hrg⟩)
      (h.largeUsed q g hg))
    (fun g hg hf => h.extFree g hg (hfree g (fun r hr hrg => h.extSlab g hg ⟨i, r, hr, hrg⟩) hf))
    (fun q sz hq _ => (hlive q sz hq).2) fun q sz hq hsz => ?_
  · exact h.freed_other ht hj hq
  · exact hused _ (fun r hr => h.page_apart hj hq hr) ((h.cache j).used q hq)
  · obtain ⟨hqp, hq⟩ := hlive q sz hq
    obtain ⟨j, hcj, ho⟩ := h.small q sz hq hsz
    by_cases hj : j = i
    · subst hj
      exact Or.inr ⟨hcj, (hobj q).mpr ⟨ho, hqp⟩⟩
    · exact Or.inl ⟨j, hj, hcj, ho⟩

theorem freed_large (h : HeapInv s P F) {size p : U64} (hp : s.live p = some size)
    (hlt : 2048 < size) {h' : Heap} (he : kfreeSlab p s.heap = some h') :
    HeapInv ⟨h', update s.live p none, s.ext⟩ P F := by
  obtain ⟨hal, h0⟩ := h.large p size hp hlt
  have hlive := live_erase s.live p
  have hmono : ∀ q g, LargePage (update s.live p none) q g →
      q ≠ p ∧ LargePage s.live q g := by
    rintro q g ⟨sz, hq, hsz, ho⟩
    exact ⟨(hlive q sz hq).1, sz, (hlive q sz hq).2, hsz, ho⟩
  have hext : ∀ g ∈ s.ext, ¬ SlabPage P F g ∧ ∀ q, ¬ LargePage s.live q g := fun g hg =>
    ⟨h.extSlab g hg, h.extLarge g hg⟩
  rcases kfreeSlab_large hal h0 s.heap with he' | he'
  · rw [he', Option.some_inj] at he
    subst he
    exact h.frame h.valid (fun _ _ => rfl) (fun g hg => h.slabUsed hg)
      (fun q sz hq => (hlive q sz hq).2) (fun q g hg => h.largeUsed q g (hmono q g hg).2)
      fun g hg => ⟨h.extFree g hg, hext g hg⟩
  · rw [he', Option.some_inj] at he
    subst he
    -- the first page of the block is one of its pages
    have hfirst : LargePage s.live p (pageOf p) := by
      refine ⟨size, hp, hlt, ?_⟩
      have hpos := BitVec.lt_def.mp hlt
      have htn := hal.toNat
      unfold Overlaps
      omega
    have hu := h.largeUsed p _ hfirst
    have hpg0 : pageOf p ≠ 0 := fun hz => h0 (by rw [← hal, hz]; rfl)
    have hpmm : (s.heap.phys.free p).pmm = s.heap.phys.pmm.release (pageOf p) := pmmFree_used hu
    refine h.frame (hpmm ▸ h.valid.release hu hpg0) (fun _ _ => rfl) (fun g hg => ?_)
      (fun q sz hq => (hlive q sz hq).2) (fun q g hg => ?_) fun g hg => ⟨?_, hext g hg⟩
    · rw [hpmm, Pmm.used_release]
      exact ⟨h.slabUsed hg, fun hgp => h.largeSlab p _ hfirst (hgp ▸ hg)⟩
    · obtain ⟨hqp, hg⟩ := hmono q g hg
      rw [hpmm, Pmm.used_release]
      exact ⟨h.largeUsed q g hg, fun hgp => hqp (h.largeApart q p _ (hgp ▸ hg) hfirst)⟩
    · rw [hpmm, Pmm.free_release hu.1]
      exact fun hf => hf.elim (h.extFree g hg) fun hgp => h.extLarge g hg p (hgp ▸ hfirst)

end HeapInv

/-! ## Whole runs -/

/-- The calls for which the heap is sound: small blocks, and large ones on consecutive pages. -/
def SizeOk (s : Pmm) (size : U64) : Prop := size ≤ 2048 ∨ LargeOk s size

variable {ok : Pmm → U64 → Prop}

/-- **One step** keeps the invariant, for other lists of slabs. -/
theorem heapInv_step (hok : ∀ m size, ok m size → SizeOk m size) {t : HeapSys}
    (h : HeapInv s P F) (hst : HeapStep ok s t) : ∃ P' F', HeapInv t P' F' := by
  cases hst with
  | malloc size p h' hcond he =>
    by_cases h0 : size = 0
    · subst h0
      obtain ⟨rfl, rfl⟩ := Prod.mk.inj (Option.some.inj he)
      rw [if_pos rfl]
      exact ⟨P, F, h⟩
    by_cases hle : size ≤ 2048
    · rcases h.malloc_small h0 hle with he' | ⟨i, q, c', phys', P', F', hq, hc, he', ht⟩
      · obtain ⟨rfl, rfl⟩ := Prod.mk.inj (Option.some.inj (he.symm.trans he'))
        rw [if_pos rfl]
        exact ⟨P, F, h⟩
      · obtain ⟨rfl, rfl⟩ := Prod.mk.inj (Option.some.inj (he.symm.trans he'))
        rw [if_neg hq]
        exact ⟨_, _, h.taken hle hc ht⟩
    · have hlt : 2048 < size := BitVec.not_le.mp hle
      have hpos : 0 < size.toNat := Nat.lt_of_le_of_lt (Nat.zero_le _) (BitVec.lt_def.mp hlt)
      rw [kmallocSlab_large hlt] at he
      obtain ⟨rfl, rfl⟩ := Prod.mk.inj (Option.some.inj he)
      rcases kmallocLarge_spec h.valid hpos ((hok _ _ hcond).resolve_left hle) with
        he' | ⟨f, u, he', hf, hf0, hm, ht⟩
      · rw [he', if_pos rfl]
        exact ⟨P, F, h⟩
      · rw [he', if_neg hf0]
        exact ⟨P, F, h.taken_large hlt hf hf0 hm ht⟩
  | free p h' hp he =>
    obtain ⟨size, hp⟩ := Option.isSome_iff_exists.mp hp
    by_cases hle : size ≤ 2048
    · obtain ⟨i, c', phys', P', F', _, he', ht⟩ := h.free_small hp hle
      obtain rfl := Option.some.inj (he.symm.trans he')
      exact ⟨_, _, h.freed ht⟩
    · exact ⟨P, F, h.freed_large hp (BitVec.not_le.mp hle) he⟩
  | env t he => exact ⟨P, F, h.env he⟩

theorem heapInv_of_reach (hok : ∀ m size, ok m size → SizeOk m size) {s0 : Phys}
    (hv : s0.pmm.Valid) (hr : HeapReach ok s0 s) : ∃ P F, HeapInv s P F := by
  induction hr with
  | refl => exact ⟨_, _, heapInv_init hv⟩
  | tail _ hst ih =>
    obtain ⟨P, F, h⟩ := ih
    exact heapInv_step hok h hst

end Sinux.Mm

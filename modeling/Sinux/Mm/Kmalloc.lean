import Sinux.Mm.HeapContract

/-!
# `kmalloc` and `kfree` (`mm/vmm.c`)

Before `vmm_init` blocks come from a bump allocator; after it `kmalloc` and `kfree` are the slab
allocator's. A block is *owned* when every page it touches was obtained by its own call, or is the
slab that holds it, and nothing else lives there.

* `kmalloc_owned_iff`: in the runs whose large calls found consecutive pages, exactly which calls
  return an owned block. Small calls always do; a large call does when it fails for lack of pages
  or when the lowest free pages are consecutive.
* `kmalloc_overlap`: a run in which a block of two pages is returned over a live block.
-/

namespace Sinux.Mm

open Function Sinux.Lib

/-! ## The functions -/

/-- The heap, `slab_ready`, and the bump allocator's `heap_cur` and `heap_left`. -/
structure KHeap where
  heap : Heap
  slabReady : Bool
  heapCur : U64
  heapLeft : U64

/-- `for (; got < pages; got++)`, with `n` rounds to go: the pages got, and the memory. -/
def refillLoop (first : U64) : (n got : Nat) → Phys → Nat × Phys
  | 0, got, s => (got, s)
  | n + 1, got, s =>
    let (extra, s) := s.alloc
    if extra = 0 then (got, s)
    else if extra ≠ first + BitVec.ofNat 64 got * 4096 then (got, s.free extra)
    else refillLoop first n (got + 1) s

/-- `kmalloc` before `slab_ready`. -/
def kmallocBump (size : U64) (k : KHeap) : U64 × KHeap :=
  let size := (size + 15) &&& ~~~15
  let take (k : KHeap) : U64 × KHeap :=
    (k.heapCur, { k with heapCur := k.heapCur + size, heapLeft := k.heapLeft - size })
  if k.heapLeft < size then
    let pages := (size + 4096 - 1) / 4096
    let (first, s) := k.heap.phys.alloc
    if first = 0 then (0, { k with heap := { k.heap with phys := s } })
    else
      let (got, s) := refillLoop first (pages.toNat - 1) 1 s
      if got < pages.toNat then
        (0, { k with heap := { k.heap with phys := freeRange first got s } })
      else take { k with
        heap := { k.heap with phys := s }, heapCur := first, heapLeft := pages * 4096 }
  else take k

/-- `kmalloc`. -/
def kmalloc (size : U64) (k : KHeap) : Option (U64 × KHeap) :=
  if k.slabReady then (kmallocSlab size k.heap).map fun r => (r.1, { k with heap := r.2 })
  else some (kmallocBump size k)

/-- `kfree`. -/
def kfree (ptr : U64) (k : KHeap) : Option KHeap :=
  if ptr = 0 then some k
  else if k.slabReady then (kfreeSlab ptr k.heap).map fun h => { k with heap := h }
  else some k

/-- `vmm_init`: `slab_init(); slab_ready = true;` -/
def vmmInit (k : KHeap) : KHeap := { k with heap := slabInit k.heap.phys, slabReady := true }

/-! ## Runs -/

/-- A run's state, as `HeapSys`. -/
structure KSys where
  kheap : KHeap
  live : U64 → Option U64
  ext : Set Nat

/-- The allocator and memory below. -/
def KSys.sys (s : KSys) : HeapSys := ⟨s.kheap.heap, s.live, s.ext⟩

/-- The page-frame allocator. -/
def KSys.pmm (s : KSys) : Pmm := s.kheap.heap.phys.pmm

/-- One step of a run whose calls of `kmalloc` meet the condition `ok`. -/
inductive KStep (ok : Pmm → U64 → Prop) : KSys → KSys → Prop
  | kmalloc (s : KSys) (size p : U64) (k' : KHeap) (hok : ok s.pmm size)
      (he : kmalloc size s.kheap = some (p, k')) :
      KStep ok s ⟨k', if p = 0 then s.live else update s.live p (some size), s.ext⟩
  | kfree (s : KSys) (p : U64) (k' : KHeap) (hp : (s.live p).isSome)
      (he : kfree p s.kheap = some k') : KStep ok s ⟨k', update s.live p none, s.ext⟩
  | env (s : KSys) (t : HeapSys) (he : EnvStep s.sys t) :
      KStep ok s ⟨{ s.kheap with heap := t.heap }, t.live, t.ext⟩

/-- After `vmm_init`, nothing is live, and what is not free belongs to others. -/
def kInit (k0 : KHeap) : KSys := ⟨vmmInit k0, fun _ => none, {f | ¬ k0.heap.phys.pmm.Free f}⟩

/-- The states of the runs from `vmm_init`. -/
def KReach (ok : Pmm → U64 → Prop) (k0 : KHeap) : KSys → Prop :=
  Relation.ReflTransGen (KStep ok) (kInit k0)

variable {s : KSys} {k : KHeap} {size : U64}

theorem kmalloc_ready (hk : k.slabReady = true) (size : U64) :
    kmalloc size k = (kmallocSlab size k.heap).map fun r => (r.1, { k with heap := r.2 }) :=
  if_pos hk

theorem kfree_ready (hk : k.slabReady = true) {p : U64} (h0 : p ≠ 0) :
    kfree p k = (kfreeSlab p k.heap).map fun h => { k with heap := h } := by
  unfold kfree
  rw [if_neg h0, if_pos hk]

/-- **A step of `kmalloc` or `kfree`** after `vmm_init` is one of the slab allocator. -/
theorem kStep_sys {ok : Pmm → U64 → Prop} {t : KSys} {P F : Fin 8 → List U64}
    (hready : s.kheap.slabReady = true) (h : HeapInv s.sys P F) (hst : KStep ok s t) :
    t.kheap.slabReady = true ∧ HeapStep ok s.sys t.sys := by
  cases hst with
  | kmalloc size p k' hcond he =>
    rw [kmalloc_ready hready] at he
    obtain ⟨⟨q, h'⟩, he', heq⟩ := Option.map_eq_some_iff.mp he
    obtain ⟨rfl, rfl⟩ := Prod.mk.inj heq
    exact ⟨hready, HeapStep.malloc s.sys size q h' hcond he'⟩
  | kfree p k' hp he =>
    obtain ⟨size, hsize⟩ := Option.isSome_iff_exists.mp hp
    rw [kfree_ready hready (h.live_ne_zero hsize)] at he
    obtain ⟨h', he', rfl⟩ := Option.map_eq_some_iff.mp he
    exact ⟨hready, HeapStep.free s.sys p h' hp he'⟩
  | env t he => exact ⟨hready, HeapStep.env s.sys t he⟩

theorem kInv_of_reach {ok : Pmm → U64 → Prop} (hok : ∀ m size, ok m size → SizeOk m size)
    {k0 : KHeap} (hv : k0.heap.phys.pmm.Valid) (hr : KReach ok k0 s) :
    s.kheap.slabReady = true ∧ ∃ P F, HeapInv s.sys P F := by
  induction hr with
  | refl => exact ⟨rfl, _, _, heapInv_init hv⟩
  | tail _ hst ih =>
    obtain ⟨hready, P, F, h⟩ := ih
    obtain ⟨hready', hst'⟩ := kStep_sys hready h hst
    exact ⟨hready', heapInv_step hok h hst'⟩

/-! ## Ownership -/

/-- Page `g` is a slab of the heap that holds the block of `size` bytes at `p`. -/
def HoldsObject (h : Heap) (g : Nat) (p size : U64) : Prop :=
  ∃ i P F, CacheRep h.phys (h.caches i) P F ∧ pageAddr g ∈ P ++ F ∧
    g * 4096 + 56 ≤ p.toNat ∧ p.toNat + size.toNat ≤ (g + 1) * 4096

/-- The call that returned the block of `size` bytes at `p` owns it. -/
structure Owned (s : KSys) (size p : U64) (k' : KHeap) : Prop where
  /-- Its pages were obtained by this call, or are the slab that holds it. -/
  obtained : ∀ g, Overlaps p size g →
    (s.pmm.Free g ∧ k'.heap.phys.pmm.Used g) ∨ HoldsObject k'.heap g p size
  /-- It shares no byte with another live block. -/
  disjoint : ∀ q sz, s.live q = some sz →
    p.toNat + size.toNat ≤ q.toNat ∨ q.toNat + sz.toNat ≤ p.toNat
  /-- None of its pages is marked free. -/
  used : ∀ g, Overlaps p size g → ¬ k'.heap.phys.pmm.Free g

/-- `kmalloc(size)` returns, `NULL` or a block that it owns. -/
def KmallocOwned (s : KSys) (size : U64) : Prop :=
  ∃ p k', kmalloc size s.kheap = some (p, k') ∧ (p ≠ 0 → Owned s size p k')

variable {P F : Fin 8 → List U64}

theorem owned_small (h : HeapInv s.sys P F) (hready : s.kheap.slabReady = true)
    (hle : size ≤ 2048) : KmallocOwned s size := by
  unfold KmallocOwned
  rw [kmalloc_ready hready]
  by_cases h0 : size = 0
  · subst h0
    exact ⟨0, s.kheap, rfl, fun hne => absurd rfl hne⟩
  rcases h.malloc_small h0 hle with he | ⟨i, p, c', phys', P', F', hp, hc, he, ht⟩
  · rw [show kmallocSlab size s.kheap.heap = _ from he]
    exact ⟨0, _, rfl, fun hne => absurd rfl hne⟩
  · rw [show kmallocSlab size s.kheap.heap = _ from he]
    refine ⟨p, _, rfl, fun _ => ?_⟩
    obtain ⟨⟨hlo, hhi⟩, hlong, hdis, j, P₂, F₂, _, hrep, hpage⟩ := h.slabBlock hle hc ht
    -- the block lies in one page
    have hone : ∀ g, Overlaps p size g → g = pageOf p := fun g ho => by
      unfold Overlaps at ho
      omega
    refine ⟨fun g ho => Or.inr ?_, fun q sz hq => ?_, fun g ho hf => ?_⟩
    · rw [hone g ho]
      exact ⟨j, P₂, F₂, hrep, hpage, hlo, by omega⟩
    · have := hdis q sz hq
      have := le_blockBytes sz
      omega
    · have hu := (hrep.page _ hpage).2
      rw [pageOf_pageAddr (pageOf_lt p), ← hone g ho] at hu
      exact Pmm.not_free_of_used hu hf

theorem kmalloc_large (hk : k.slabReady = true) (hlt : 2048 < size) :
    kmalloc size k = some ((kmallocLarge size k.heap.phys).1,
      { k with heap := { k.heap with phys := (kmallocLarge size k.heap.phys).2 } }) := by
  rw [kmalloc_ready hk, kmallocSlab_large hlt]
  rfl

theorem owned_large (h : HeapInv s.sys P F) (hready : s.kheap.slabReady = true)
    (hlt : 2048 < size) (hok : LargeOk s.pmm size) : KmallocOwned s size := by
  have hpos : 0 < size.toNat := Nat.lt_of_le_of_lt (Nat.zero_le _) (BitVec.lt_def.mp hlt)
  unfold KmallocOwned
  rw [kmalloc_large hready hlt]
  rcases kmallocLarge_spec h.valid hpos hok with he | ⟨f, t, he, hf, hf0, hm, ht⟩
  · rw [show kmallocLarge size s.kheap.heap.phys = _ from he]
    exact ⟨0, _, rfl, fun hne => absurd rfl hne⟩
  · rw [show kmallocLarge size s.kheap.heap.phys = _ from he]
    refine ⟨pageAddr f, _, rfl, fun _ => ?_⟩
    have hmem : ∀ g, Overlaps (pageAddr f) size g →
        g ∈ List.range' f ((size.toNat + 4095) / 4096) := fun g ho =>
      List.mem_range'_1.mpr ((overlaps_pageAddr hf.lt size g).mp ho)
    have h' := h.taken_large hlt hf hf0 hm ht
    have hp : update s.live (pageAddr f) (some size) (pageAddr f) = some size :=
      update_self ..
    refine ⟨fun g ho => Or.inl ⟨ht.free_of_mem g (hmem g ho), ht.used_of_mem g (hmem g ho)⟩,
      fun q sz hq => ?_, fun g ho => Pmm.not_free_of_used (ht.used_of_mem g (hmem g ho))⟩
    have hqp : q ≠ pageAddr f := by
      rintro rfl
      rw [show s.live (pageAddr f) = none from h.large_fresh hf] at hq
      exact absurd hq (Option.some_ne_none sz).symm
    have hdis := h'.disjoint hp ((update_of_ne hqp _ _).trans hq) hqp.symm
    rw [blockBytes_large hlt] at hdis
    have := le_blockBytes sz
    omega

theorem largeOk_of_owned (h : HeapInv s.sys P F) (hready : s.kheap.slabReady = true)
    (hlt : 2048 < size) (hne : (kmallocLarge size s.kheap.heap.phys).1 ≠ 0)
    (ho : KmallocOwned s size) : LargeOk s.pmm size := by
  obtain ⟨p, k', he, hown⟩ := ho
  rw [kmalloc_large hready hlt] at he
  obtain ⟨rfl, rfl⟩ := Prod.mk.inj (Option.some.inj he)
  obtain ⟨f', hf', hlow', hp⟩ := kmallocLarge_head (s := s.kheap.heap.phys) h.valid hne
  intro f hf hlow
  have hff : f = f' := by
    rcases Nat.lt_trichotomy f f' with hl | he | hl
    · exact absurd hf (hlow' f hl)
    · exact he
    · exact absurd hf' (hlow f' hl)
  subst hff
  have hobt := (hown hne).obtained
  rw [hp] at hobt
  have hpt := pageAddr_toNat hf.lt
  -- no page of the block can be a slab that holds it: the block starts on a page
  have hfree : ∀ g, f ≤ g → Overlaps (pageAddr f) size g → s.pmm.Free g := by
    intro g hg ho
    rcases hobt g ho with ⟨hfr, _⟩ | ⟨i, P₂, F₂, _, _, hlo, _⟩
    · exact hfr
    · omega
  have hsize : size.toNat + 4095 < 2 ^ 64 := by
    by_contra hbig
    -- the block would reach past the managed pages
    have htot := s.pmm.total_le
    unfold bitmapMaxPages at htot
    have hft := hf.1
    have ho : Overlaps (pageAddr f) size s.pmm.totalPages := by
      unfold Overlaps
      omega
    exact absurd (hfree _ hft.le ho).1 (Nat.lt_irrefl _)
  refine ⟨hsize, fun k hk => hfree (f + k) (Nat.le_add_right f k) ?_⟩
  rw [overlaps_pageAddr hf.lt, ← largePages_eq hsize]
  omega

/-- **Which calls return an owned block.** In every state of a run whose calls of `kmalloc` were
small or found consecutive pages, `kmalloc(size)` returns `NULL` or a block it owns exactly when the
size is at most 2048, or too few pages are free, or the size can be rounded up to pages and the
lowest free pages, as many as the block needs, are consecutive. -/
theorem kmalloc_owned_iff {k0 : KHeap} (hv : k0.heap.phys.pmm.Valid) (hr : KReach SizeOk k0 s)
    (size : U64) : KmallocOwned s size ↔
      size ≤ 2048 ∨ s.pmm.clearBits < max 1 (largePages size) ∨ LargeOk s.pmm size := by
  obtain ⟨hready, P, F, h⟩ := kInv_of_reach (fun _ _ hok => hok) hv hr
  by_cases hle : size ≤ 2048
  · exact ⟨fun _ => Or.inl hle, fun _ => owned_small h hready hle⟩
  have hlt := BitVec.not_le.mp hle
  have hnull := kmallocLarge_eq_zero (s := s.kheap.heap.phys) h.valid size
  constructor
  · intro ho
    by_cases h0 : (kmallocLarge size s.kheap.heap.phys).1 = 0
    · exact Or.inr (Or.inl (hnull.mp h0))
    · exact Or.inr (Or.inr (largeOk_of_owned h hready hlt h0 ho))
  · rintro (hsm | hfew | hok)
    · exact absurd hsm hle
    · exact ⟨_, _, kmalloc_large hready hlt, fun hne => absurd (hnull.mpr hfew) hne⟩
    · exact owned_large h hready hlt hok

/-- A kernel with eight pages before `vmm_init`. -/
def eightHeap : KHeap := ⟨⟨eightPages, fun _ => ⟨0, 0, 0, 0, 0, 0⟩⟩, false, 0, 0⟩

/-- A request near 2^64 is not met: rounding it up wraps, and the call returns a single page. -/
theorem kmalloc_owned_iff_wraps :
    ¬ KmallocOwned (kInit eightHeap) 0xFFFFFFFFFFFFFFFF := by
  rw [kmalloc_owned_iff eightPages_valid Relation.ReflTransGen.refl]
  rintro (hle | hfew | hok)
  · exact absurd hle (by decide)
  · exact absurd hfew (by decide)
  · exact absurd (hok 1 (by decide) (by decide)).1 (by decide)

/-- The state after `kmalloc(size)` returned the large block `p`. -/
def KSys.large (s : KSys) (size p : U64) : KSys :=
  ⟨{ s.kheap with heap := { s.kheap.heap with phys := (kmallocLarge size s.kheap.heap.phys).2 } },
    update s.live p (some size), s.ext⟩

theorem kStep_large {p : U64} (hready : s.kheap.slabReady = true) (hlt : 2048 < size)
    (hp : (kmallocLarge size s.kheap.heap.phys).1 = p) (h0 : p ≠ 0) :
    KStep (fun _ _ => True) s (s.large size p) := by
  have he := kmalloc_large hready hlt
  rw [hp] at he
  have hst := @KStep.kmalloc (fun _ _ => True) s size p _ trivial he
  rwa [if_neg h0] at hst

/-- Two blocks of a page, in pages 1 and 2. -/
def twoBlocks : KSys := ((kInit eightHeap).large 4096 0x1000).large 4096 0x2000

/-- The first of them freed: page 1 is free, page 2 is not. -/
def fragmented : KSys :=
  ⟨{ twoBlocks.kheap with heap := { twoBlocks.kheap.heap with
      phys := twoBlocks.kheap.heap.phys.free 0x1000 } },
    update twoBlocks.live 0x1000 none, twoBlocks.ext⟩

theorem fragmented_reach : KReach (fun _ _ => True) eightHeap fragmented := by
  have h1 : KStep (fun _ _ => True) (kInit eightHeap) ((kInit eightHeap).large 4096 0x1000) :=
    kStep_large rfl (by decide) (by decide) (by decide)
  have h2 : KStep (fun _ _ => True) ((kInit eightHeap).large 4096 0x1000) twoBlocks :=
    kStep_large rfl (by decide) (by decide) (by decide)
  refine ((Relation.ReflTransGen.single h1).tail h2).tail (KStep.kfree twoBlocks 0x1000 _ rfl ?_)
  have hmagic : (headerAt twoBlocks.kheap.heap.phys (pageMask 0x1000)).magic ≠ slabMagic := by
    decide
  rw [kfree_ready rfl (by decide)]
  unfold kfreeSlab
  dsimp only
  rw [if_neg (by decide), if_pos hmagic]
  rfl

/-- **A block over a live block.** After `kmalloc(4096)` twice and a `kfree` of the first block,
`kmalloc(8192)` takes pages 1 and 3 and returns page 1: its second page is the live block in
page 2. -/
theorem kmalloc_overlap : KReach (fun _ _ => True) eightHeap fragmented ∧
    fragmented.live 0x2000 = some 4096 ∧
    (kmalloc 8192 fragmented.kheap).map Prod.fst = some 0x1000 ∧
    ¬ KmallocOwned fragmented 8192 := by
  have hlive : fragmented.live 0x2000 = some 4096 := by decide
  have hres : (kmalloc 8192 fragmented.kheap).map Prod.fst = some 0x1000 := by decide
  refine ⟨fragmented_reach, hlive, hres, ?_⟩
  rintro ⟨p, k', he, hown⟩
  rw [he] at hres
  obtain rfl : p = 0x1000 := Option.some.inj hres
  have := (hown (by decide)).disjoint 0x2000 4096 hlive
  exact absurd this (by decide)

end Sinux.Mm

import Sinux.Mm.Slab

/-!
# Blocks above 2048 bytes (`kmalloc_slab`)

The large path takes pages one by one, returns the first and remembers no other. `LargeOk` says
when that is sound: the pages it will take are consecutive.

* `kmallocLarge_spec`: then the call takes a run of pages that covers the block, or leaves the
  allocator as it was.
* `kmallocLarge_head`, `kmallocLarge_eq_zero`: in any case the result is the lowest free page, or
  `NULL` when too few are free.
-/

namespace Sinux.Mm

open Sinux.Lib

/-- `size_t pages`. -/
def largePages (size : U64) : Nat := ((size + 4096 - 1) / 4096).toNat

/-- No page is free, or the size can be rounded up to pages without wrapping and the lowest free
pages, as many as the call will take, are consecutive. -/
def LargeOk (s : Pmm) (size : U64) : Prop :=
  ∀ f, s.Free f → (∀ g, g < f → ¬ s.Free g) →
    size.toNat + 4095 < 2 ^ 64 ∧ ∀ k, k < min (largePages size) s.clearBits → s.Free (f + k)

theorem largePages_eq {size : U64} (h : size.toNat + 4095 < 2 ^ 64) :
    largePages size = (size.toNat + 4095) / 4096 := by
  unfold largePages
  rw [BitVec.toNat_udiv, BitVec.toNat_sub, BitVec.toNat_add,
    show (4096 : U64).toNat = 4096 from rfl, show (1 : U64).toNat = 1 from rfl]
  have : (2 ^ 64 - 1 + (size.toNat + 4096) % 2 ^ 64) % 2 ^ 64 = size.toNat + 4095 := by omega
  rw [this]

variable {s t : Phys} {f : Nat}

theorem pageAddr_add (f j : Nat) : pageAddr f + BitVec.ofNat 64 j * 4096 = pageAddr (f + j) := by
  unfold pageAddr
  rw [Nat.add_mul, BitVec.ofNat_add, BitVec.ofNat_mul j]
  rfl

theorem freeRange_eq (f i : Nat) (s : Phys) :
    freeRange (pageAddr f) i s = s.freeAll (List.range' f i) := by
  unfold freeRange Phys.freeAll
  rw [List.range'_eq_map_range, List.foldl_map]
  simp only [pageAddr_add]

theorem alloc_next (hv : s.pmm.Valid) (hlow : ∀ g, g < f → ¬ s.pmm.Free g) {i : Nat}
    (ht : s.pmm.Takes (List.range' f i) t.pmm) (hf : s.pmm.Free (f + i)) :
    t.pmm.Free (f + i) ∧ pageAddr (f + i) ≠ 0 ∧
      t.alloc = (pageAddr (f + i), { t with pmm := t.pmm.mark (f + i) }) := by
  have hft : t.pmm.Free (f + i) := by
    rw [ht.free_iff, List.mem_range'_1]
    exact ⟨hf, by omega⟩
  rcases Phys.alloc_cases (ht.valid hv) with ⟨hn, _⟩ | ⟨j, hj, hjlow, h0, he⟩
  · exact absurd hft (hn _)
  · have hji : j = f + i := by
      obtain ⟨hjs, hjr⟩ := (ht.free_iff j).mp hj
      rw [List.mem_range'_1] at hjr
      by_contra hne
      rcases Nat.lt_or_ge (f + i) j with hlt | hge
      · exact hjlow _ hlt hft
      · exact hlow j (by omega) hjs
    rw [hji] at h0 he
    exact ⟨hft, h0, he⟩

/-- **The loop over the further pages**, on consecutive free pages: it extends the run to all of
them, or gives the run back. -/
theorem largeLoop_spec (hv : s.pmm.Valid) (hlow : ∀ g, g < f → ¬ s.pmm.Free g) (n i : Nat)
    (hrun : ∀ k, k < min (i + n) s.pmm.clearBits → s.pmm.Free (f + k))
    (ht : s.pmm.Takes (List.range' f i) t.pmm) (hm : t.mem = s.mem) :
    (∃ t', largeLoop (pageAddr f) n i t = (pageAddr f, t') ∧
        s.pmm.Takes (List.range' f (i + n)) t'.pmm ∧ t'.mem = s.mem) ∨
      (s.pmm.clearBits < i + n ∧ largeLoop (pageAddr f) n i t = (0, s)) := by
  induction n generalizing i t with
  | zero => exact Or.inl ⟨t, rfl, ht, hm⟩
  | succ n ih =>
    unfold largeLoop
    have hclear := ht.clearBits
    rw [List.length_range'] at hclear
    by_cases hi : i < s.pmm.clearBits
    · obtain ⟨hft, h0, he⟩ := alloc_next hv hlow ht (hrun i (by omega))
      rw [he]
      dsimp only
      rw [if_neg h0]
      have ht' : s.pmm.Takes (List.range' f (i + 1)) (t.pmm.mark (f + i)) := by
        rw [List.range'_1_concat]
        exact ht.append (Pmm.Takes.single hft)
      rw [show i + (n + 1) = i + 1 + n by omega] at hrun ⊢
      exact ih (t := { t with pmm := t.pmm.mark (f + i) }) (i + 1) hrun ht' hm
    · -- the free pages ran out after `i` of them
      have hn : ∀ g, ¬ t.pmm.Free g := fun g hg => by
        have := Pmm.clearBits_pos hg
        omega
      rcases Phys.alloc_cases (ht.valid hv) with ⟨_, he⟩ | ⟨j, hj, _⟩
      · rw [he]
        dsimp only
        rw [if_pos rfl, freeRange_eq]
        refine Or.inr ⟨by omega, Prod.ext rfl ?_⟩
        have hp := freeAll_of_takes hv ht (List.nodup_range') fun _ => Iff.rfl
        have hmem : (t.freeAll (List.range' f i)).mem = s.mem := (Phys.freeAll_mem _).trans hm
        show t.freeAll (List.range' f i) = s
        obtain ⟨sp, sm⟩ := s
        generalize t.freeAll (List.range' f i) = u at hp hmem
        obtain ⟨up, um⟩ := u
        simp only at hp hmem
        rw [hp, hmem]
      · exact absurd hj (hn j)

/-- **A large block** under `LargeOk`: `NULL` and nothing changed, or the consecutive pages that
cover the block, all free before. -/
theorem kmallocLarge_spec (hv : s.pmm.Valid) {size : U64} (hpos : 0 < size.toNat)
    (hok : LargeOk s.pmm size) :
    kmallocLarge size s = (0, s) ∨
      ∃ f t, kmallocLarge size s = (pageAddr f, t) ∧ s.pmm.Free f ∧ pageAddr f ≠ 0 ∧
        t.mem = s.mem ∧ s.pmm.Takes (List.range' f ((size.toNat + 4095) / 4096)) t.pmm := by
  unfold kmallocLarge
  rcases Phys.alloc_cases hv with ⟨_, he⟩ | ⟨f, hf, hlow, h0, he⟩
  · rw [he]
    exact Or.inl (if_pos rfl)
  · obtain ⟨hsize, hrun⟩ := hok f hf hlow
    have hpages := largePages_eq hsize
    have hn : 1 + (largePages size - 1) = largePages size := by omega
    rw [he]
    dsimp only
    rw [if_neg h0]
    have ht : s.pmm.Takes (List.range' f 1) (s.pmm.mark f) := Pmm.Takes.single hf
    rw [← hn] at hrun
    rcases largeLoop_spec (t := { s with pmm := s.pmm.mark f }) hv hlow (largePages size - 1) 1
      hrun ht rfl with ⟨t, he', ht', hm⟩ | ⟨_, he'⟩
    · rw [hn, hpages] at ht'
      exact Or.inr ⟨f, t, he', hf, h0, hm, ht'⟩
    · exact Or.inl he'

theorem largeLoop_fst (ptr : U64) (n i : Nat) (s : Phys) :
    (largeLoop ptr n i s).1 = 0 ∨ (largeLoop ptr n i s).1 = ptr := by
  induction n generalizing i s with
  | zero => exact Or.inr rfl
  | succ n ih =>
    unfold largeLoop
    dsimp only
    split
    · exact Or.inl rfl
    · exact ih _ _

theorem kmallocLarge_head (hv : s.pmm.Valid) {size : U64} (h : (kmallocLarge size s).1 ≠ 0) :
    ∃ f, s.pmm.Free f ∧ (∀ g, g < f → ¬ s.pmm.Free g) ∧ (kmallocLarge size s).1 = pageAddr f := by
  revert h
  unfold kmallocLarge
  rcases Phys.alloc_cases hv with ⟨_, he⟩ | ⟨f, hf, hlow, h0, he⟩
  · rw [he]
    exact fun h => absurd rfl h
  · rw [he]
    dsimp only
    rw [if_neg h0]
    exact fun h => ⟨f, hf, hlow, (largeLoop_fst _ _ _ _).resolve_left h⟩

theorem clearBits_eq_zero {m : Pmm} (h : ∀ i, ¬ m.Free i) : m.clearBits = 0 := by
  by_contra h0
  obtain ⟨i, hi⟩ := exists_free_of_clearBits_pos (Nat.pos_of_ne_zero h0)
  exact h i hi

theorem largeLoop_eq_zero {ptr : U64} (hptr : ptr ≠ 0) (n i : Nat) {s : Phys} (hv : s.pmm.Valid) :
    (largeLoop ptr n i s).1 = 0 ↔ s.pmm.clearBits < n := by
  induction n generalizing i s with
  | zero => exact ⟨fun h => absurd h hptr, fun h => absurd h (Nat.not_lt_zero _)⟩
  | succ n ih =>
    unfold largeLoop
    rcases Phys.alloc_cases hv with ⟨hn, he⟩ | ⟨f, hf, _, h0, he⟩
    · rw [he, clearBits_eq_zero hn]
      exact ⟨fun _ => Nat.succ_pos n, fun _ => rfl⟩
    · rw [he]
      dsimp only
      rw [if_neg h0, ih (i + 1) (s := { s with pmm := s.pmm.mark f }) (hv.mark hf),
        Pmm.clearBits_mark hf]
      exact Nat.succ_lt_succ_iff.symm

/-- **A large call fails** exactly when fewer pages are free than it takes. -/
theorem kmallocLarge_eq_zero (hv : s.pmm.Valid) (size : U64) :
    (kmallocLarge size s).1 = 0 ↔ s.pmm.clearBits < max 1 (largePages size) := by
  unfold kmallocLarge
  rcases Phys.alloc_cases hv with ⟨hn, he⟩ | ⟨f, hf, _, h0, he⟩
  · rw [he, clearBits_eq_zero hn]
    exact ⟨fun _ => by omega, fun _ => rfl⟩
  · rw [he]
    dsimp only
    rw [if_neg h0, largeLoop_eq_zero h0 _ _ (s := { s with pmm := s.pmm.mark f }) (hv.mark hf),
      Pmm.clearBits_mark hf]
    unfold largePages
    dsimp only
    omega

/-! ## The large path in `kmalloc_slab` and `kfree_slab` -/

theorem kmallocSlab_large {size : U64} (hlt : 2048 < size) (h : Heap) :
    kmallocSlab size h =
      some ((kmallocLarge size h.phys).1, { h with phys := (kmallocLarge size h.phys).2 }) := by
  have h0 : size ≠ 0 := by
    rintro rfl
    exact absurd hlt (by decide)
  unfold kmallocSlab
  rw [if_neg h0, if_pos hlt]

theorem kfreeSlab_of_magic {p : U64} (hal : Aligned p) (h0 : p ≠ 0) {h : Heap}
    (hmagic : (headerAt h.phys p).magic = slabMagic) : kfreeSlab p h = some h := by
  have hmask : pageMask p = p := (pageMask_eq p).trans hal
  have hnone : slabFindObjIdx h.phys p p = none := by
    have hlt := pageOf_lt p
    have hbase : p < p + 56 := by
      rw [BitVec.lt_def, BitVec.toNat_add, hal.toNat, show (56 : U64).toNat = 56 from rfl]
      omega
    exact if_pos hbase
  unfold kfreeSlab
  dsimp only
  rw [if_neg h0, hmask, if_neg (not_not.mpr hmagic)]
  cases (List.finRange 8).find? fun i =>
      decide ((h.caches i).objSize = (headerAt h.phys p).objSize.setWidth 64) with
  | none => rfl
  | some i =>
    have hfree : slabFree (h.caches i) p h.phys = some (h.caches i, h.phys) := by
      unfold slabFree
      dsimp only
      rw [if_neg h0, hmask, if_neg (not_not.mpr hmagic), hnone]
    dsimp only
    rw [hfree]
    show some (⟨h.phys, Function.update h.caches i (h.caches i)⟩ : Heap) = some h
    rw [Function.update_eq_self]

theorem kfreeSlab_of_not_magic {p : U64} (hal : Aligned p) (h0 : p ≠ 0) {h : Heap}
    (hmagic : (headerAt h.phys p).magic ≠ slabMagic) :
    kfreeSlab p h = some { h with phys := h.phys.free p } := by
  unfold kfreeSlab
  dsimp only
  rw [if_neg h0, (pageMask_eq p).trans hal, if_pos hmagic]

/-- **Freeing a large block** gives its first page back, or does nothing when the client left
`SLAB_MAGIC` there. -/
theorem kfreeSlab_large {p : U64} (hal : Aligned p) (h0 : p ≠ 0) (h : Heap) :
    kfreeSlab p h = some h ∨ kfreeSlab p h = some { h with phys := h.phys.free p } := by
  by_cases hmagic : (headerAt h.phys p).magic = slabMagic
  · exact .inl (kfreeSlab_of_magic hal h0 hmagic)
  · exact .inr (kfreeSlab_of_not_magic hal h0 hmagic)

end Sinux.Mm

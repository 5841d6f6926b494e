import Sinux.Lib.PackedBits
import Sinux.Lib.Word64
import Mathlib.Data.Finset.Basic
import Mathlib.Logic.Relation

/-!
# The page-frame allocator (`mm/pmm.c`)

`bitmap`, `total_pages` and `free_pages` are the record `Pmm`; `bm_set`, `bm_clear` and `bm_test`
work on the bytes as written, and `pmm_alloc` / `pmm_free` are functions on the record. A pointer is
a 64-bit word and `NULL` is `0`. `pmm_init` clamps `total_pages` to `BITMAP_MAX_PAGES`, which the
record carries as a field.

* `pmmAlloc_cases`, `pmmFree_used`, `pmmFree_not_used`: what one call can do.
* `Pmm.Valid`: the counter is the number of clear bits and page 0 is reserved.
* `pmm_contract`: the allocator's contract over every run of allocations and frees.

**Out of scope**: `pmm_init` (`PmmInit`), and calls that overlap.
-/

namespace Sinux.Mm

open Sinux.Lib

/-- `BITMAP_MAX_PAGES`. -/
def bitmapMaxPages : Nat := 16 * 1024 * 1024

theorem eight_le_bitmapMaxPages : 8 ≤ bitmapMaxPages := by decide

/-- `bm_set`: `bitmap[idx/8] |= 1u << (idx%8)`. -/
def bmSet (bitmap : Nat → BitVec 8) (idx : Nat) : Nat → BitVec 8 :=
  Function.update bitmap (idx / 8) (bitmap (idx / 8) ||| 1#8 <<< (idx % 8))

/-- `bm_clear`: `bitmap[idx/8] &= ~(1u << (idx%8))`. -/
def bmClear (bitmap : Nat → BitVec 8) (idx : Nat) : Nat → BitVec 8 :=
  Function.update bitmap (idx / 8) (bitmap (idx / 8) &&& ~~~(1#8 <<< (idx % 8)))

/-- `bm_test`: `(bitmap[idx/8] >> (idx%8)) & 1u`. -/
def bmTest (bitmap : Nat → BitVec 8) (idx : Nat) : Bool :=
  (bitmap (idx / 8) >>> (idx % 8)) &&& 1#8 != 0#8

/-- The static variables of `pmm.c`. -/
structure Pmm where
  bitmap : Nat → BitVec 8
  totalPages : Nat
  freePages : U64
  /-- `if (total_pages > BITMAP_MAX_PAGES) total_pages = BITMAP_MAX_PAGES;` -/
  total_le : totalPages ≤ bitmapMaxPages

/-- `bm_set(i); free_pages--;` -/
def Pmm.mark (s : Pmm) (i : Nat) : Pmm :=
  { s with bitmap := bmSet s.bitmap i, freePages := s.freePages - 1 }

/-- `bm_clear(idx); free_pages++;` -/
def Pmm.release (s : Pmm) (i : Nat) : Pmm :=
  { s with bitmap := bmClear s.bitmap i, freePages := s.freePages + 1 }

/-- `pmm_alloc`: the first clear bit below `total_pages`, or `NULL`. -/
def pmmAlloc (s : Pmm) : U64 × Pmm :=
  match (List.range s.totalPages).find? fun i => !bmTest s.bitmap i with
  | some i => (pageAddr i, s.mark i)
  | none => (0, s)

/-- `pmm_free`. -/
def pmmFree (page : U64) (s : Pmm) : Pmm :=
  let idx := page.toNat / 4096
  if idx < s.totalPages ∧ bmTest s.bitmap idx then s.release idx else s

/-! ## The bitmap is a packed bit set -/

theorem shiftRight_and_one_ne_zero {w : Nat} (hw : 0 < w) (x : BitVec w) (k : Nat) :
    ((x >>> k) &&& 1#w != 0#w) = x.getLsbD k := by
  have hbit : ((x >>> k) &&& 1#w).getLsbD 0 = x.getLsbD k := by
    simp [hw]
  cases hk : x.getLsbD k with
  | true =>
    rw [bne_iff_ne]
    intro h0
    rw [h0, hk] at hbit
    simp at hbit
  | false =>
    rw [bne_eq_false_iff_eq]
    apply BitVec.eq_of_getLsbD_eq
    intro i _
    rw [BitVec.getLsbD_and, BitVec.getLsbD_one, BitVec.getLsbD_zero]
    by_cases hi : i = 0
    · subst hi
      rw [BitVec.getLsbD_ushiftRight, Nat.add_zero, hk, Bool.false_and]
    · simp [hi]

theorem bmTest_eq (b : Nat → BitVec 8) (i : Nat) : bmTest b i = PackedBits.test b i :=
  shiftRight_and_one_ne_zero (by decide) _ _

/-! ## Free and used pages -/

namespace Pmm

/-- Page `i` is managed and its bit is clear. -/
def Free (s : Pmm) (i : Nat) : Prop := i < s.totalPages ∧ bmTest s.bitmap i = false

/-- Page `i` is managed and its bit is set. -/
def Used (s : Pmm) (i : Nat) : Prop := i < s.totalPages ∧ bmTest s.bitmap i = true

/-- The number of clear bits below `total_pages`. -/
def clearBits (s : Pmm) : Nat := PackedBits.clearCount s.bitmap s.totalPages

variable {s : Pmm} {i j : Nat}

instance : Decidable (s.Free i) := inferInstanceAs (Decidable (_ ∧ _))

instance : Decidable (s.Used i) := inferInstanceAs (Decidable (_ ∧ _))

theorem not_free_of_used (h : s.Used i) : ¬ s.Free i := by
  rintro ⟨_, hf⟩
  rw [h.2] at hf
  exact Bool.noConfusion hf

theorem used_of_not_free (hlt : i < s.totalPages) (h : ¬ s.Free i) : s.Used i := by
  refine ⟨hlt, ?_⟩
  by_contra hb
  exact h ⟨hlt, Bool.eq_false_of_not_eq_true hb⟩

theorem Free.lt (h : s.Free i) : i < 2 ^ 52 := by
  have := s.total_le
  have := h.1
  unfold bitmapMaxPages at *
  omega

theorem Used.lt (h : s.Used i) : i < 2 ^ 52 := by
  have := s.total_le
  have := h.1
  unfold bitmapMaxPages at *
  omega

@[simp] theorem mark_totalPages : (s.mark i).totalPages = s.totalPages := rfl

@[simp] theorem release_totalPages : (s.release i).totalPages = s.totalPages := rfl

theorem bmTest_mark : bmTest (s.mark i).bitmap j = (decide (i = j) || bmTest s.bitmap j) := by
  rw [bmTest_eq, bmTest_eq]
  exact PackedBits.test_set (by decide) i j

theorem bmTest_release :
    bmTest (s.release i).bitmap j = (!decide (i = j) && bmTest s.bitmap j) := by
  rw [bmTest_eq, bmTest_eq]
  exact PackedBits.test_clear (by decide) i j

theorem free_mark : (s.mark i).Free j ↔ s.Free j ∧ j ≠ i := by
  unfold Free
  rw [bmTest_mark, mark_totalPages, Bool.or_eq_false_iff, decide_eq_false_iff_not]
  constructor
  · rintro ⟨hlt, hne, hb⟩
    exact ⟨⟨hlt, hb⟩, fun h => hne h.symm⟩
  · rintro ⟨⟨hlt, hb⟩, hne⟩
    exact ⟨hlt, fun h => hne h.symm, hb⟩

theorem used_mark (hi : i < s.totalPages) : (s.mark i).Used j ↔ s.Used j ∨ j = i := by
  unfold Used
  rw [bmTest_mark, mark_totalPages, Bool.or_eq_true, decide_eq_true_eq]
  constructor
  · rintro ⟨hlt, rfl | hb⟩
    · exact Or.inr rfl
    · exact Or.inl ⟨hlt, hb⟩
  · rintro (⟨hlt, hb⟩ | rfl)
    · exact ⟨hlt, Or.inr hb⟩
    · exact ⟨hi, Or.inl rfl⟩

theorem free_release (hi : i < s.totalPages) : (s.release i).Free j ↔ s.Free j ∨ j = i := by
  unfold Free
  rw [bmTest_release, release_totalPages, Bool.and_eq_false_iff, Bool.not_eq_false',
    decide_eq_true_eq]
  constructor
  · rintro ⟨hlt, rfl | hb⟩
    · exact Or.inr rfl
    · exact Or.inl ⟨hlt, hb⟩
  · rintro (⟨hlt, hb⟩ | rfl)
    · exact ⟨hlt, Or.inr hb⟩
    · exact ⟨hi, Or.inl rfl⟩

theorem used_release : (s.release i).Used j ↔ s.Used j ∧ j ≠ i := by
  unfold Used
  rw [bmTest_release, release_totalPages, Bool.and_eq_true, Bool.not_eq_true',
    decide_eq_false_iff_not]
  constructor
  · rintro ⟨hlt, hne, hb⟩
    exact ⟨⟨hlt, hb⟩, fun h => hne h.symm⟩
  · rintro ⟨⟨hlt, hb⟩, hne⟩
    exact ⟨hlt, fun h => hne h.symm, hb⟩

theorem clearBits_mark (h : s.Free i) : s.clearBits = (s.mark i).clearBits + 1 :=
  PackedBits.clearCount_set (by decide) h.1 (by rw [← bmTest_eq]; exact h.2)

theorem clearBits_release (h : s.Used i) : (s.release i).clearBits = s.clearBits + 1 :=
  PackedBits.clearCount_clear (by decide) h.1 (by rw [← bmTest_eq]; exact h.2)

theorem clearBits_pos (h : s.Free i) : 0 < s.clearBits :=
  PackedBits.clearCount_pos_iff.mpr ⟨i, h.1, by rw [← bmTest_eq]; exact h.2⟩

theorem clearBits_le (s : Pmm) : s.clearBits ≤ bitmapMaxPages :=
  (PackedBits.clearCount_le _).trans s.total_le

/-! ## The counter invariant -/

/-- The state `pmm_init` leaves: the counter is the number of clear bits, page 0 is reserved. -/
structure Valid (s : Pmm) : Prop where
  counter : s.freePages.toNat = s.clearBits
  page_zero : bmTest s.bitmap 0 = true

theorem Valid.free_ne_zero (hv : s.Valid) (h : s.Free i) : i ≠ 0 := by
  rintro rfl
  have h2 := h.2
  rw [hv.page_zero] at h2
  exact Bool.noConfusion h2

theorem Valid.mark_toNat (hv : s.Valid) (h : s.Free i) :
    (s.mark i).freePages.toNat + 1 = s.freePages.toNat := by
  have hpos := clearBits_pos h
  have hc := hv.counter
  have hlt := s.freePages.isLt
  show (s.freePages - 1).toNat + 1 = s.freePages.toNat
  rw [BitVec.toNat_sub, show (1 : U64).toNat = 1 from rfl]
  omega

theorem Valid.release_toNat (hv : s.Valid) :
    (s.release i).freePages.toNat = s.freePages.toNat + 1 := by
  have hc := hv.counter
  have hle := s.clearBits_le
  unfold bitmapMaxPages at hle
  show (s.freePages + 1).toNat = s.freePages.toNat + 1
  rw [BitVec.toNat_add, show (1 : U64).toNat = 1 from rfl]
  omega

theorem Valid.mark (hv : s.Valid) (h : s.Free i) : (s.mark i).Valid where
  counter := by
    have h1 := hv.mark_toNat h
    have h2 := clearBits_mark h
    have h3 := hv.counter
    omega
  page_zero := by rw [bmTest_mark, hv.page_zero, Bool.or_true]

theorem Valid.release (hv : s.Valid) (h : s.Used i) (h0 : i ≠ 0) : (s.release i).Valid where
  counter := by rw [hv.release_toNat, clearBits_release h, hv.counter]
  page_zero := by
    rw [bmTest_release, hv.page_zero]
    simp [h0]

end Pmm

/-! ## One call -/

variable {s : Pmm}

/-- **What `pmm_alloc` can do**: nothing when no page is free, else mark the lowest free one. -/
theorem pmmAlloc_cases (s : Pmm) :
    ((∀ i, ¬ s.Free i) ∧ pmmAlloc s = (0, s)) ∨
      ∃ i, s.Free i ∧ (∀ j, j < i → ¬ s.Free j) ∧ pmmAlloc s = (pageAddr i, s.mark i) := by
  unfold pmmAlloc
  cases h : (List.range s.totalPages).find? fun i => !bmTest s.bitmap i with
  | none =>
    rw [List.find?_range_eq_none] at h
    refine Or.inl ⟨fun i hf => ?_, rfl⟩
    have := h i hf.1
    rw [hf.2] at this
    exact Bool.noConfusion this
  | some i =>
    rw [List.find?_range_eq_some, List.mem_range] at h
    obtain ⟨hi, hlt, hlow⟩ := h
    refine Or.inr ⟨i, ⟨hlt, by simpa using hi⟩, fun j hj hf => ?_, rfl⟩
    have := hlow j hj
    rw [hf.2] at this
    exact Bool.noConfusion this

theorem pmmAlloc_of_free {i : Nat} (h : s.Free i) :
    ∃ j, s.Free j ∧ (∀ k, k < j → ¬ s.Free k) ∧ pmmAlloc s = (pageAddr j, s.mark j) := by
  rcases pmmAlloc_cases s with ⟨hn, _⟩ | hs
  · exact absurd h (hn i)
  · exact hs

theorem pmmFree_used {p : U64} (h : s.Used (pageOf p)) : pmmFree p s = s.release (pageOf p) :=
  if_pos ⟨h.1, h.2⟩

theorem pmmFree_not_used {p : U64} (h : ¬ s.Used (pageOf p)) : pmmFree p s = s :=
  if_neg h

theorem pmmFree_totalPages (p : U64) (s : Pmm) : (pmmFree p s).totalPages = s.totalPages := by
  by_cases h : s.Used (pageOf p)
  · rw [pmmFree_used h]
    rfl
  · rw [pmmFree_not_used h]

theorem pmmAlloc_totalPages (s : Pmm) : (pmmAlloc s).2.totalPages = s.totalPages := by
  rcases pmmAlloc_cases s with ⟨_, h⟩ | ⟨i, _, _, h⟩
  · rw [h]
  · rw [h]
    rfl

theorem Pmm.Valid.pmmAlloc_eq_zero (hv : s.Valid) :
    (Sinux.Mm.pmmAlloc s).1 = 0 ↔ ∀ i, ¬ s.Free i := by
  constructor
  · intro h0 i hf
    obtain ⟨j, hj, _, he⟩ := pmmAlloc_of_free hf
    rw [he] at h0
    exact hv.free_ne_zero hj ((pageAddr_eq_zero hj.lt).mp h0)
  · intro hn
    rcases pmmAlloc_cases s with ⟨_, h⟩ | ⟨i, hf, _, _⟩
    · rw [h]
    · exact absurd hf (hn i)

/-! ## Sequences of allocations -/

/-- `s'` is `s` after the pages `L`, all free, were marked one after the other. -/
inductive Pmm.Takes : Pmm → List Nat → Pmm → Prop
  | nil (s : Pmm) : Takes s [] s
  | cons {s s' : Pmm} {i : Nat} {L : List Nat} (hf : s.Free i) (h : Takes (s.mark i) L s') :
      Takes s (i :: L) s'

namespace Pmm.Takes

variable {s' s'' : Pmm} {L L' : List Nat}

theorem append (h : s.Takes L s') (h' : s'.Takes L' s'') : s.Takes (L ++ L') s'' := by
  induction h with
  | nil s => exact h'
  | cons hf _ ih => exact cons hf (ih h')

theorem single {i : Nat} (hf : s.Free i) : s.Takes [i] (s.mark i) := cons hf (nil _)

theorem totalPages (h : s.Takes L s') : s'.totalPages = s.totalPages := by
  induction h with
  | nil s => rfl
  | cons hf _ ih => exact ih

theorem bmTest (h : s.Takes L s') (j : Nat) :
    bmTest s'.bitmap j = (decide (j ∈ L) || Sinux.Mm.bmTest s.bitmap j) := by
  induction h with
  | nil s => simp
  | @cons s _ i _ _ _ ih =>
    rw [ih, bmTest_mark]
    by_cases hij : i = j
    · simp [hij]
    · have : ¬ j = i := fun h => hij h.symm
      simp [hij, this]

theorem free_iff (h : s.Takes L s') (j : Nat) : s'.Free j ↔ s.Free j ∧ j ∉ L := by
  unfold Free
  rw [h.bmTest, h.totalPages, Bool.or_eq_false_iff, decide_eq_false_iff_not]
  tauto

theorem used_iff (h : s.Takes L s') (j : Nat) :
    s'.Used j ↔ s.Used j ∨ (j ∈ L ∧ j < s.totalPages) := by
  unfold Used
  rw [h.bmTest, h.totalPages, Bool.or_eq_true, decide_eq_true_eq]
  tauto

theorem free_of_mem (h : s.Takes L s') : ∀ j ∈ L, s.Free j := by
  induction h with
  | nil s => intro j hj; exact absurd hj (by simp)
  | cons hf _ ih =>
    intro j hj
    rcases List.mem_cons.mp hj with rfl | hj
    · exact hf
    · exact (free_mark.mp (ih j hj)).1

theorem used_of_mem (h : s.Takes L s') : ∀ j ∈ L, s'.Used j := fun j hj =>
  (h.used_iff j).mpr (Or.inr ⟨hj, (h.free_of_mem j hj).1⟩)

theorem used_mono (h : s.Takes L s') {j : Nat} (hu : s.Used j) : s'.Used j :=
  (h.used_iff j).mpr (Or.inl hu)

theorem clearBits (h : s.Takes L s') : s.clearBits = s'.clearBits + L.length := by
  induction h with
  | nil s => rfl
  | cons hf _ ih =>
    rw [clearBits_mark hf, ih, List.length_cons]
    omega

theorem nodup (h : s.Takes L s') : L.Nodup := by
  induction h with
  | nil s => exact List.nodup_nil
  | cons hf h ih =>
    exact List.nodup_cons.mpr ⟨fun hmem => (free_mark.mp (h.free_of_mem _ hmem)).2 rfl, ih⟩

theorem valid (h : s.Takes L s') (hv : s.Valid) : s'.Valid := by
  induction h with
  | nil s => exact hv
  | cons hf _ ih => exact ih (hv.mark hf)

end Pmm.Takes

theorem Pmm.Valid.ext {s' : Pmm} (hv : s.Valid) (hv' : s'.Valid)
    (ht : s'.totalPages = s.totalPages) (hb : ∀ i, bmTest s'.bitmap i = bmTest s.bitmap i) :
    s' = s := by
  have hbm : s'.bitmap = s.bitmap := PackedBits.ext_test fun i => by
    rw [← bmTest_eq, ← bmTest_eq]
    exact hb i
  have hfp : s'.freePages = s.freePages := by
    apply BitVec.eq_of_toNat_eq
    rw [hv.counter, hv'.counter]
    unfold Pmm.clearBits
    rw [hbm, ht]
  obtain ⟨b, t, f, _⟩ := s
  obtain ⟨b', t', f', _⟩ := s'
  simp only at ht hbm hfp
  subst ht hbm hfp
  rfl

theorem exists_free_of_clearBits_pos (h : 0 < s.clearBits) : ∃ i, s.Free i := by
  obtain ⟨i, hi, hb⟩ := PackedBits.clearCount_pos_iff.mp h
  exact ⟨i, hi, by rw [bmTest_eq]; exact hb⟩

/-! ## Runs of allocations and frees -/

/-- A run's state: the allocator, the pages returned and not yet freed, and the pages freed and
not handed out again since. -/
structure PmmSys where
  pmm : Pmm
  outstanding : Finset U64
  released : Finset U64

/-- The steps of a run: `pmm_alloc()`, or `pmm_free(p)` of an outstanding page. -/
inductive PmmStep : PmmSys → PmmSys → Prop
  | alloc (s : PmmSys) :
      PmmStep s ⟨(pmmAlloc s.pmm).2,
        if (pmmAlloc s.pmm).1 = 0 then s.outstanding
        else insert (pmmAlloc s.pmm).1 s.outstanding,
        s.released.erase (pmmAlloc s.pmm).1⟩
  | free (s : PmmSys) (p : U64) (hp : p ∈ s.outstanding) :
      PmmStep s ⟨pmmFree p s.pmm, s.outstanding.erase p, insert p s.released⟩

/-- The states of the runs that start in `s0` with no page outstanding. -/
def PmmReach (s0 : Pmm) : PmmSys → Prop := Relation.ReflTransGen PmmStep ⟨s0, ∅, ∅⟩

/-- What a run keeps: outstanding pages are used and were free at the start, released pages are
free, and the pages in use at the start stay in use. -/
structure PmmInv (s0 : Pmm) (s : PmmSys) : Prop where
  valid : s.pmm.Valid
  outstanding : ∀ p ∈ s.outstanding, ∃ i, p = pageAddr i ∧ i ≠ 0 ∧ s.pmm.Used i ∧ ¬ s0.Used i
  released : ∀ p ∈ s.released, ∃ i, p = pageAddr i ∧ s.pmm.Free i
  kept : ∀ i, s0.Used i → s.pmm.Used i

theorem pmmInv_init {s0 : Pmm} (hv : s0.Valid) : PmmInv s0 ⟨s0, ∅, ∅⟩ :=
  ⟨hv, fun _ hp => absurd hp (Finset.notMem_empty _),
    fun _ hp => absurd hp (Finset.notMem_empty _), fun _ h => h⟩

theorem pmmInv_step {s0 : Pmm} {s t : PmmSys} (h : PmmInv s0 s) (hst : PmmStep s t) :
    PmmInv s0 t := by
  cases hst with
  | alloc =>
    rcases pmmAlloc_cases s.pmm with ⟨_, he⟩ | ⟨i, hf, _, he⟩
    · simp only [he, if_true]
      exact ⟨h.valid, h.outstanding, fun p hp => h.released p (Finset.mem_of_mem_erase hp), h.kept⟩
    · have hi0 := h.valid.free_ne_zero hf
      have hne : pageAddr i ≠ 0 := fun h0 => hi0 ((pageAddr_eq_zero hf.lt).mp h0)
      simp only [he, if_neg hne]
      refine ⟨h.valid.mark hf, fun p hp => ?_, fun p hp => ?_, fun k hk => ?_⟩
      · rcases Finset.mem_insert.mp hp with rfl | hp
        · exact ⟨i, rfl, hi0, (Pmm.used_mark hf.1).mpr (Or.inr rfl),
            fun hu => Pmm.not_free_of_used (h.kept i hu) hf⟩
        · obtain ⟨k, rfl, hk0, hu, h0⟩ := h.outstanding p hp
          exact ⟨k, rfl, hk0, (Pmm.used_mark hf.1).mpr (Or.inl hu), h0⟩
      · obtain ⟨hpi, hp⟩ := Finset.mem_erase.mp hp
        obtain ⟨k, rfl, hk⟩ := h.released p hp
        exact ⟨k, rfl, Pmm.free_mark.mpr ⟨hk, fun hki => hpi (by rw [hki])⟩⟩
      · exact (Pmm.used_mark hf.1).mpr (Or.inl (h.kept k hk))
  | free p hp =>
    obtain ⟨i, rfl, hi0, hu, h0⟩ := h.outstanding p hp
    have hi : pageOf (pageAddr i) = i := pageOf_pageAddr hu.lt
    rw [pmmFree_used (by rw [hi]; exact hu), hi]
    refine ⟨h.valid.release hu hi0, fun p hp => ?_, fun p hp => ?_, fun k hk => ?_⟩
    · obtain ⟨hpi, hp⟩ := Finset.mem_erase.mp hp
      obtain ⟨k, rfl, hk0, hku, hk⟩ := h.outstanding p hp
      exact ⟨k, rfl, hk0, Pmm.used_release.mpr ⟨hku, fun hki => hpi (by rw [hki])⟩, hk⟩
    · rcases Finset.mem_insert.mp hp with rfl | hp
      · exact ⟨i, rfl, (Pmm.free_release hu.1).mpr (Or.inr rfl)⟩
      · obtain ⟨k, rfl, hk⟩ := h.released p hp
        exact ⟨k, rfl, (Pmm.free_release hu.1).mpr (Or.inl hk)⟩
    · refine Pmm.used_release.mpr ⟨h.kept k hk, ?_⟩
      rintro rfl
      exact h0 hk

theorem pmmInv_of_reach {s0 : Pmm} (hv : s0.Valid) {s : PmmSys} (hr : PmmReach s0 s) :
    PmmInv s0 s := by
  induction hr with
  | refl => exact pmmInv_init hv
  | tail _ hst ih => exact pmmInv_step ih hst

/-- The contract of the allocator in a state `s` of a run from `s0`. -/
structure PmmContract (s0 : Pmm) (s : PmmSys) : Prop where
  /-- `free_pages` is the number of clear bits. -/
  counter : s.pmm.freePages.toNat = s.pmm.clearBits
  /-- A successful allocation lowers the counter by one, without wrapping below zero. -/
  alloc_counter : (pmmAlloc s.pmm).1 ≠ 0 →
    (pmmAlloc s.pmm).2.freePages.toNat + 1 = s.pmm.freePages.toNat
  /-- A free of an outstanding page raises it by one, without wrapping. -/
  free_counter : ∀ p ∈ s.outstanding,
    (pmmFree p s.pmm).freePages.toNat = s.pmm.freePages.toNat + 1
  /-- `NULL` exactly when no bit is clear. -/
  null_iff : (pmmAlloc s.pmm).1 = 0 ↔ ∀ i, i < s.pmm.totalPages → bmTest s.pmm.bitmap i = true
  /-- Anything else is a page address below `total_pages * 4096`. -/
  page : (pmmAlloc s.pmm).1 ≠ 0 →
    4096 ∣ (pmmAlloc s.pmm).1.toNat ∧ (pmmAlloc s.pmm).1.toNat < s.pmm.totalPages * 4096
  /-- The page returned is not outstanding. -/
  fresh : (pmmAlloc s.pmm).1 ≠ 0 → (pmmAlloc s.pmm).1 ∉ s.outstanding
  /-- The page returned was not in use at the start. -/
  reserved : (pmmAlloc s.pmm).1 ≠ 0 → bmTest s0.bitmap (pageOf (pmmAlloc s.pmm).1) = false
  /-- A second free of a page that was not handed out again changes nothing. -/
  double_free : ∀ p ∈ s.released, pmmFree p s.pmm = s.pmm

theorem pmmReach_totalPages {s0 : Pmm} {s : PmmSys} (hr : PmmReach s0 s) :
    s.pmm.totalPages = s0.totalPages := by
  induction hr with
  | refl => rfl
  | tail _ hst ih =>
    cases hst with
    | alloc => exact (pmmAlloc_totalPages _).trans ih
    | free p _ => exact (pmmFree_totalPages p _).trans ih

/-- **The page-frame allocator over whole runs.** From every state in which the counter is the
number of clear bits and page 0 is reserved, the contract holds after every sequence of
allocations and frees of outstanding pages. -/
theorem pmm_contract {s0 : Pmm} (hv : s0.Valid) {s : PmmSys} (hr : PmmReach s0 s) :
    PmmContract s0 s := by
  have inv := pmmInv_of_reach hv hr
  have htot := pmmReach_totalPages hr
  have hnull : (pmmAlloc s.pmm).1 ≠ 0 →
      ∃ i, s.pmm.Free i ∧ pmmAlloc s.pmm = (pageAddr i, s.pmm.mark i) := by
    intro hne
    rcases pmmAlloc_cases s.pmm with ⟨_, he⟩ | ⟨i, hf, _, he⟩
    · rw [he] at hne
      exact absurd rfl hne
    · exact ⟨i, hf, he⟩
  refine ⟨inv.valid.counter, fun hne => ?_, fun p hp => ?_, ?_, fun hne => ?_, fun hne hmem => ?_,
    fun hne => ?_, fun p hp => ?_⟩
  · obtain ⟨i, hf, he⟩ := hnull hne
    rw [he]
    exact inv.valid.mark_toNat hf
  · obtain ⟨i, rfl, _, hu, _⟩ := inv.outstanding p hp
    rw [pmmFree_used (by rw [pageOf_pageAddr hu.lt]; exact hu)]
    exact inv.valid.release_toNat
  · rw [inv.valid.pmmAlloc_eq_zero]
    constructor
    · intro h i hi
      cases hb : bmTest s.pmm.bitmap i with
      | true => rfl
      | false => exact absurd ⟨hi, hb⟩ (h i)
    · intro h i hf
      exact Pmm.not_free_of_used ⟨hf.1, h i hf.1⟩ hf
  · obtain ⟨i, hf, he⟩ := hnull hne
    rw [he]
    simp only [pageAddr_toNat hf.lt]
    exact ⟨Nat.dvd_mul_left 4096 i, Nat.mul_lt_mul_of_pos_right hf.1 (by decide)⟩
  · obtain ⟨i, hf, he⟩ := hnull hne
    rw [he] at hmem
    obtain ⟨k, hk, _, hu, _⟩ := inv.outstanding _ hmem
    rw [pageAddr_inj hf.lt hu.lt hk] at hf
    exact Pmm.not_free_of_used hu hf
  · obtain ⟨i, hf, he⟩ := hnull hne
    rw [he]
    simp only [pageOf_pageAddr hf.lt]
    cases hb : bmTest s0.bitmap i with
    | false => rfl
    | true => exact absurd hf (Pmm.not_free_of_used (inv.kept i ⟨htot ▸ hf.1, hb⟩))
  · obtain ⟨i, rfl, hf⟩ := inv.released p hp
    apply pmmFree_not_used
    rw [pageOf_pageAddr hf.lt]
    exact fun hu => Pmm.not_free_of_used hu hf

/-- Three managed pages, page 0 reserved. -/
def threePages : Pmm := ⟨fun k => if k = 0 then 1 else 0, 3, 2, by decide⟩

theorem threePages_valid : threePages.Valid := ⟨by decide, by decide⟩

/-- The contract after one allocation from three pages, which returned page 1. -/
theorem pmm_contract_threePages :
    (pmmAlloc threePages).1 = 0x1000 ∧ PmmContract threePages ⟨threePages.mark 1, {0x1000}, ∅⟩ :=
  ⟨by decide, pmm_contract threePages_valid
    (Relation.ReflTransGen.single (PmmStep.alloc ⟨threePages, ∅, ∅⟩))⟩

end Sinux.Mm

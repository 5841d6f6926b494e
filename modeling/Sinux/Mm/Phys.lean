import Sinux.Mm.Pmm
import Sinux.Lib.Radix

/-!
# Physical memory

The kernel runs identity mapped, so a pointer is a physical address. Memory is a page frame number
and a word index to a 64-bit word: a page table is one frame, and `table[idx]` with a page-aligned
`table` is word `idx` of its frame. `Phys` adds the page-frame allocator.

* `freeAll_spec`: freeing a list of distinct used pages clears exactly their bits.
* `freeAll_of_takes`: freeing what was taken gives the allocator back as it was.
-/

namespace Sinux.Mm

open Sinux.Lib

/-- Word `i` of frame `f`. -/
abbrev Mem := Nat → Fin 512 → U64

instance neZeroEntries : NeZero 512 := ⟨by decide⟩

/-- Physical memory and its allocator. -/
structure Phys where
  pmm : Pmm
  mem : Mem

namespace Phys

/-- `pmm_alloc()`. -/
def alloc (s : Phys) : U64 × Phys := ((pmmAlloc s.pmm).1, { s with pmm := (pmmAlloc s.pmm).2 })

/-- `pmm_free(page)`. -/
def free (page : U64) (s : Phys) : Phys := { s with pmm := pmmFree page s.pmm }

/-- `table[idx]`. -/
def entry (s : Phys) (table : U64) (idx : Fin 512) : U64 := s.mem (pageOf table) idx

/-- `table[idx] = e`. -/
def setEntry (table : U64) (idx : Fin 512) (e : U64) (s : Phys) : Phys :=
  { s with mem := Radix.store s.mem (pageOf table) idx e }

/-- `kmemset(page, 0, PAGE_SIZE)`. -/
def kmemsetPage (page : U64) (s : Phys) : Phys :=
  { s with mem := Function.update s.mem (pageOf page) fun _ => 0 }

/-- `kmemcpy(dst, src, PAGE_SIZE)` of two pages. -/
def kmemcpyPage (dst src : U64) (s : Phys) : Phys :=
  { s with mem := Function.update s.mem (pageOf dst) (s.mem (pageOf src)) }

theorem alloc_mem (s : Phys) : s.alloc.2.mem = s.mem := rfl

@[simp] theorem free_pmm (s : Phys) (p : U64) : (s.free p).pmm = pmmFree p s.pmm := rfl

theorem alloc_cases {s : Phys} (hv : s.pmm.Valid) :
    ((∀ i, ¬ s.pmm.Free i) ∧ s.alloc = (0, s)) ∨
      ∃ i, s.pmm.Free i ∧ (∀ j, j < i → ¬ s.pmm.Free j) ∧ pageAddr i ≠ 0 ∧
        s.alloc = (pageAddr i, { s with pmm := s.pmm.mark i }) := by
  unfold alloc
  rcases pmmAlloc_cases s.pmm with ⟨hn, he⟩ | ⟨i, hf, hlow, he⟩
  · rw [he]
    exact Or.inl ⟨hn, rfl⟩
  · rw [he]
    exact Or.inr ⟨i, hf, hlow,
      fun h0 => hv.free_ne_zero hf ((pageAddr_eq_zero hf.lt).mp h0), rfl⟩

end Phys

/-! ## Freeing a list of pages -/

/-- `pmm_free` on each page of a list. -/
def Phys.freeAll (L : List Nat) (s : Phys) : Phys := L.foldl (fun s f => s.free (pageAddr f)) s

namespace Phys

variable {s : Phys}

@[simp] theorem freeAll_nil : s.freeAll [] = s := rfl

theorem freeAll_append (L L' : List Nat) : s.freeAll (L ++ L') = (s.freeAll L).freeAll L' :=
  List.foldl_append

theorem freeAll_mem (L : List Nat) : (s.freeAll L).mem = s.mem := by
  induction L generalizing s with
  | nil => rfl
  | cons f L ih => exact ih

theorem free_eq_freeAll (page : U64) : s.free page = s.freeAll [pageOf page] := by
  change s.free page = s.free (pageAddr (pageOf page))
  unfold free pmmFree
  rw [show (pageAddr (pageOf page)).toNat / 4096 = page.toNat / 4096 from
    pageOf_pageAddr (pageOf_lt page)]

end Phys

theorem freeAll_spec {L : List Nat} (hnd : L.Nodup) {s : Phys} (hv : s.pmm.Valid)
    (hu : ∀ f ∈ L, s.pmm.Used f ∧ f ≠ 0) :
    (s.freeAll L).pmm.Valid ∧ (s.freeAll L).pmm.totalPages = s.pmm.totalPages ∧
      ∀ i, bmTest (s.freeAll L).pmm.bitmap i = (!decide (i ∈ L) && bmTest s.pmm.bitmap i) := by
  induction L generalizing s with
  | nil => exact ⟨hv, rfl, fun i => by simp⟩
  | cons f L ih =>
    obtain ⟨hf, hnd⟩ := List.nodup_cons.mp hnd
    obtain ⟨hfu, hf0⟩ := hu f List.mem_cons_self
    have hpf : pageOf (pageAddr f) = f := pageOf_pageAddr hfu.lt
    have he : (s.free (pageAddr f)).pmm = s.pmm.release f := by
      rw [Phys.free_pmm, pmmFree_used (by rw [hpf]; exact hfu), hpf]
    have hv' : (s.free (pageAddr f)).pmm.Valid := by
      rw [he]
      exact hv.release hfu hf0
    obtain ⟨h1, h2, h3⟩ := ih hnd hv' fun g hg => by
      obtain ⟨hgu, hg0⟩ := hu g (List.mem_cons_of_mem f hg)
      rw [he]
      exact ⟨Pmm.used_release.mpr ⟨hgu, fun hgf => hf (hgf ▸ hg)⟩, hg0⟩
    refine ⟨h1, h2.trans (by rw [he]; rfl), fun i => (h3 i).trans ?_⟩
    rw [he, Pmm.bmTest_release]
    by_cases hi : f = i
    · simp [hi]
    · have : ¬ i = f := fun h => hi h.symm
      simp [hi, this]

theorem freeAll_valid {L : List Nat} {s : Phys} (hv : s.pmm.Valid)
    (hL : ∀ g ∈ L, g < 2 ^ 52 ∧ (s.pmm.Used g → g ≠ 0)) : (s.freeAll L).pmm.Valid := by
  induction L generalizing s with
  | nil => exact hv
  | cons g L ih =>
    obtain ⟨hg, h0⟩ := hL g List.mem_cons_self
    have hpage : pageOf (pageAddr g) = g := pageOf_pageAddr hg
    have htail := fun x hx => hL x (List.mem_cons_of_mem g hx)
    refine ih (s := s.free (pageAddr g)) ?_ fun x hx => ⟨(htail x hx).1, fun hu => ?_⟩
    · rw [Phys.free_pmm]
      by_cases hu : s.pmm.Used g
      · rw [pmmFree_used (by rwa [hpage]), hpage]
        exact hv.release hu (h0 hu)
      · rwa [pmmFree_not_used (by rwa [hpage])]
    · refine (htail x hx).2 ?_
      rw [Phys.free_pmm] at hu
      by_cases hg' : s.pmm.Used g
      · rw [pmmFree_used (by rwa [hpage]), hpage] at hu
        exact (Pmm.used_release.mp hu).1
      · rwa [pmmFree_not_used (by rwa [hpage])] at hu

theorem freeAll_used {L : List Nat} (hnd : L.Nodup) {s : Phys} (hv : s.pmm.Valid)
    (hu : ∀ f ∈ L, s.pmm.Used f ∧ f ≠ 0) (i : Nat) :
    (s.freeAll L).pmm.Used i ↔ s.pmm.Used i ∧ i ∉ L := by
  obtain ⟨-, ht, hb⟩ := freeAll_spec hnd hv hu
  unfold Pmm.Used
  rw [ht, hb, Bool.and_eq_true, Bool.not_eq_true', decide_eq_false_iff_not]
  tauto

theorem freeAll_free {L : List Nat} (hnd : L.Nodup) {s : Phys} (hv : s.pmm.Valid)
    (hu : ∀ f ∈ L, s.pmm.Used f ∧ f ≠ 0) (i : Nat) :
    (s.freeAll L).pmm.Free i ↔ s.pmm.Free i ∨ i ∈ L := by
  obtain ⟨-, ht, hb⟩ := freeAll_spec hnd hv hu
  have hlt (hi : i ∈ L) : i < s.pmm.totalPages := (hu i hi).1.1
  unfold Pmm.Free
  rw [ht, hb, Bool.and_eq_false_iff, Bool.not_eq_false', decide_eq_true_iff]
  tauto

theorem freeAll_of_takes {s t : Phys} {L L' : List Nat} (hv : s.pmm.Valid)
    (ht : s.pmm.Takes L t.pmm) (hnd : L'.Nodup) (hmem : ∀ f, f ∈ L' ↔ f ∈ L) :
    (t.freeAll L').pmm = s.pmm := by
  have hu : ∀ f ∈ L', t.pmm.Used f ∧ f ≠ 0 := fun f hf =>
    ⟨ht.used_of_mem f ((hmem f).mp hf), hv.free_ne_zero (ht.free_of_mem f ((hmem f).mp hf))⟩
  obtain ⟨hv', htot, hb⟩ := freeAll_spec hnd (ht.valid hv) hu
  refine hv.ext hv' (htot.trans ht.totalPages) fun i => ?_
  rw [hb, ht.bmTest]
  simp only [hmem]
  by_cases hi : i ∈ L
  · simp [hi, (ht.free_of_mem i hi).2]
  · simp [hi]

/-- Eight managed pages of zeros, page 0 reserved. -/
def eightPages : Phys :=
  ⟨⟨fun k => if k = 0 then 1 else 0, 8, 7, eight_le_bitmapMaxPages⟩, fun _ _ => 0⟩

theorem eightPages_valid : eightPages.pmm.Valid := ⟨by decide, by decide⟩

/-- Sixteen managed pages of zeros; page 0 and the kernel's PML4 in page 1 are reserved. -/
def sixteenPages : Phys := ⟨⟨fun k => if k = 0 then 3 else 0, 16, 14, by decide⟩, fun _ _ => 0⟩

theorem sixteenPages_valid : sixteenPages.pmm.Valid := ⟨by decide, by decide⟩

end Sinux.Mm

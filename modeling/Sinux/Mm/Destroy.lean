import Sinux.Mm.PageTable

/-!
# Destroying an address space (`vmm_destroy_pml4`)

The four nested loops never write memory, so the calls of `pmm_free` they make are those of one
list: the tree below the PML4, children before their table.

* `vmmDestroyPml4_eq`: `vmm_destroy_pml4` is `pmm_free` on the pages of the tree, in this order.
* `Tables.destroy`: where the PML4s form a forest, the pages freed are those of the one tree, each
  once, and the other trees stay.
-/

namespace Sinux.Mm

open Sinux.Lib Sinux.Lib.Radix

/-! ## The loops as one list -/

/-- A loop whose rounds only free pages frees the pages of its rounds one after the other. -/
theorem forUpTo_freeAll {n : Nat} {body : Fin n → Phys → Phys} {L : Fin n → List Nat} {m : Mem}
    (h : ∀ i s, s.mem = m → body i s = s.freeAll (L i)) {s : Phys} (hs : s.mem = m) :
    forUpTo n body s = s.freeAll ((List.finRange n).flatMap L) := by
  unfold forUpTo
  generalize List.finRange n = l
  induction l generalizing s with
  | nil => rfl
  | cons i l ih =>
    rw [List.foldl_cons, List.flatMap_cons, Phys.freeAll_append, h i s hs]
    exact ih ((Phys.freeAll_mem _).trans hs)

/-- The pages under entry `i` of `table`, `d` levels deep. -/
def below (m : Mem) (d : Nat) (table : U64) (i : Fin 512) : List Nat :=
  ((childOf (m (pageOf table) i)).map (subtree childOf (List.finRange 512) m d)).getD []

theorem below_absent {m : Mem} {d : Nat} {table : U64} {i : Fin 512}
    (h : m (pageOf table) i &&& vmmPresent = 0) : below m d table i = [] := by
  unfold below
  rw [childOf_eq_none.mpr ((and_present_eq_zero _).mp h)]
  rfl

theorem below_present {m : Mem} {d : Nat} {table : U64} {i : Fin 512}
    (h : ¬ m (pageOf table) i &&& vmmPresent = 0) :
    below m d table i =
      subtree childOf (List.finRange 512) m d (pageOf (m (pageOf table) i)) := by
  rw [and_present_eq_zero, Bool.not_eq_false] at h
  unfold below
  rw [childOf_eq_some.mpr ⟨h, rfl⟩]
  rfl

/-- The loop body `D` frees what is under its entry, `d` levels deep. -/
def FreesBelow (d : Nat) (D : U64 → Fin 512 → Phys → Phys) : Prop :=
  ∀ table i s, D table i s = s.freeAll (below s.mem d table i)

theorem destroyLeaf_frees : FreesBelow 0 destroyLeaf := by
  intro pt p1 s
  unfold destroyLeaf
  by_cases h : s.entry pt p1 &&& vmmPresent = 0
  · rw [if_pos h, below_absent (m := s.mem) h, Phys.freeAll_nil]
  · rw [if_neg h, below_present (m := s.mem) h, Phys.free_eq_freeAll, pageOf_pageMask]
    rfl

/-- One level further up: the loop over the entries of the child, then the child itself. -/
theorem FreesBelow.level {d : Nat} {D D' : U64 → Fin 512 → Phys → Phys} (h : FreesBelow d D)
    (hD' : ∀ table i s, D' table i s =
      if s.entry table i &&& vmmPresent = 0 then s
      else (forUpTo 512 (D (pageMask (s.entry table i))) s).free (pageMask (s.entry table i))) :
    FreesBelow (d + 1) D' := by
  intro table i s
  rw [hD']
  by_cases hp : s.entry table i &&& vmmPresent = 0
  · rw [if_pos hp, below_absent (m := s.mem) hp, Phys.freeAll_nil]
  · have hround : ∀ j t, t.mem = s.mem → D (pageMask (s.entry table i)) j t =
        t.freeAll (below s.mem d (pageMask (s.entry table i)) j) := fun j t ht => by
      rw [h, ht]
    rw [if_neg hp, below_present (m := s.mem) hp, forUpTo_freeAll hround rfl, Phys.free_eq_freeAll,
      ← Phys.freeAll_append, pageOf_pageMask]
    unfold below subtree
    rw [pageOf_pageMask]
    rfl

theorem destroyPdpt_frees : FreesBelow 3 destroyPdpt :=
  ((destroyLeaf_frees.level fun _ _ _ => rfl : FreesBelow 1 destroyPt).level
    fun _ _ _ => rfl : FreesBelow 2 destroyPdt).level fun _ _ _ => rfl

/-- The indices of the user half in order. -/
def userIdxs : List (Fin 512) := (List.finRange 256).map (Fin.castLE userEntries_le)

theorem mem_userIdxs (i : Fin 512) : i ∈ userIdxs ↔ userIdx i := by
  unfold userIdxs
  rw [List.mem_map]
  constructor
  · rintro ⟨k, -, rfl⟩
    exact k.isLt
  · intro hi
    exact ⟨⟨i.val, hi⟩, List.mem_finRange _, rfl⟩

theorem nodup_userIdxs : userIdxs.Nodup :=
  (List.nodup_finRange 256).map (Fin.castLE_injective _)

/-- The pages of the address space under frame `r`, in the order they are freed. -/
def spacePages (m : Mem) (r : Nat) : List Nat :=
  tree childOf (List.finRange 512) userIdxs m 3 r

theorem mem_spacePages {m : Mem} {r f : Nat} :
    f ∈ spacePages m r ↔ Node childOf userIdx 4 m {r} f :=
  mem_tree List.mem_finRange mem_userIdxs

theorem nodup_spacePages {m : Mem} {r : Nat} (hF : Forest childOf userIdx 4 m {r}) :
    (spacePages m r).Nodup :=
  hF.nodup_tree List.mem_finRange (List.nodup_finRange 512) mem_userIdxs nodup_userIdxs

/-- **What `vmm_destroy_pml4` does**: it frees the pages of the tree, children first. -/
theorem vmmDestroyPml4_eq {pml4 : U64} (h0 : pml4 ≠ 0) (s : Phys) :
    vmmDestroyPml4 pml4 s = s.freeAll (spacePages s.mem (pageOf pml4)) := by
  unfold vmmDestroyPml4 spacePages tree userIdxs
  rw [if_neg h0, List.flatMap_map, Phys.freeAll_append, ← Phys.free_eq_freeAll]
  congr 1
  exact forUpTo_freeAll (fun i t ht => by rw [destroyPdpt_frees, ht]; rfl) rfl

/-! ## Trees of a forest -/

/-- **Destroying one tree of a forest.** The pages freed are those of the tree, each once; the
others keep their tables, their frames and their marks. -/
theorem Tables.destroy {roots : Set Nat} {s : Phys} (h : Tables 4 roots s) {pml4 : U64}
    (hr : pageOf pml4 ∈ roots) :
    (spacePages s.mem (pageOf pml4)).Nodup ∧
      (∀ f ∈ spacePages s.mem (pageOf pml4), s.pmm.Used f ∧ f ≠ 0) ∧
      vmmDestroyPml4 pml4 s = s.freeAll (spacePages s.mem (pageOf pml4)) ∧
      Tables 4 (roots \ {pageOf pml4}) (vmmDestroyPml4 pml4 s) := by
  have htree := h.root hr
  have hnd := nodup_spacePages htree.forest
  have hu : ∀ f ∈ spacePages s.mem (pageOf pml4), s.pmm.Used f ∧ f ≠ 0 := fun f hf =>
    ⟨htree.used f (mem_spacePages.mp hf), htree.nonzero f (mem_spacePages.mp hf)⟩
  have h0 : pml4 ≠ 0 := by
    rintro rfl
    exact h.nonzero _ (Node.root hr) rfl
  refine ⟨hnd, hu, vmmDestroyPml4_eq h0 s, ?_⟩
  have hrest : Tables 4 (roots \ {pageOf pml4}) s := h.mono (le_refl 4) Set.sdiff_subset
  rw [vmmDestroyPml4_eq h0]
  refine hrest.frame (Nat.le_succ 4) (freeAll_spec hnd h.valid hu).1
    (fun f _ => by rw [Phys.freeAll_mem]) fun f hf => ?_
  refine (freeAll_used hnd h.valid hu f).mpr ⟨hrest.used f hf, fun hmem => ?_⟩
  -- a page of two trees would give one root
  obtain ⟨r', hr', π', hp', hw'⟩ := hf
  obtain ⟨r, rfl, π, hp, hw⟩ := mem_spacePages.mp hmem
  exact hr'.2 (h.forest r' hr'.1 _ hr π' π f hp' hp hw' hw).1

end Sinux.Mm

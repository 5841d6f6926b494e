import Mathlib.Data.List.TakeWhile
import Mathlib.Tactic.Common

/-!
# Segments

A list cut at a separator into its non-empty pieces, as a path is cut into components. Whether the
segments of `a` are the first segments of `a ++ b` depends on whether `a` ends where a segment ends
(`Cuts`).
-/

namespace Sinux.Lib.Segments

variable {α : Type*} [DecidableEq α] {sep : α} {a b w l : List α}

/-- The non-empty pieces between separators. -/
def segments (sep : α) (l : List α) : List (List α) := (l.splitOn sep).filter (· ≠ [])

@[simp] theorem segments_nil : segments sep [] = [] := by
  simp [segments]

theorem segments_append_cons (a b : List α) :
    segments sep (a ++ sep :: b) = segments sep a ++ segments sep b := by
  rw [segments, List.splitOn_append_cons_self, List.filter_append]
  rfl

@[simp] theorem segments_cons_self (b : List α) : segments sep (sep :: b) = segments sep b :=
  segments_append_cons [] b

theorem segments_word (hw : sep ∉ w) (hne : w ≠ []) : segments sep w = [w] := by
  rw [segments, List.splitOn_eq_singleton hw]
  simp [hne]

theorem segments_word_append (hw : sep ∉ w) (hne : w ≠ []) (hl : l = [] ∨ l.head? = some sep) :
    segments sep (w ++ l) = w :: segments sep l := by
  rcases hl with rfl | hl
  · rw [List.append_nil, segments_word hw hne, segments_nil]
  · obtain ⟨l', rfl⟩ := List.head?_eq_some_iff.mp hl
    rw [segments_append_cons, segments_word hw hne, segments_cons_self]
    rfl

/-- A list is a piece without separators and a rest that is empty or starts with one. -/
theorem exists_word (sep : α) (l : List α) :
    ∃ w r, l = w ++ r ∧ sep ∉ w ∧ (r = [] ∨ r.head? = some sep) := by
  refine ⟨l.takeWhile (· ≠ sep), l.dropWhile (· ≠ sep), List.takeWhile_append_dropWhile.symm, ?_, ?_⟩
  · intro h
    simpa using List.mem_takeWhile_imp h
  · cases hd : l.dropWhile (· ≠ sep) with
    | nil => exact Or.inl rfl
    | cons c r =>
      have := List.head?_dropWhile_not (· ≠ sep) l
      rw [hd] at this
      right
      simpa using this

/-- A segment ends between `a` and `b`, or there is nothing on one side. -/
def Cuts (sep : α) (a b : List α) : Prop :=
  a = [] ∨ a.getLast? = some sep ∨ b = [] ∨ b.head? = some sep

theorem segments_append_of_cuts (h : Cuts sep a b) :
    segments sep (a ++ b) = segments sep a ++ segments sep b := by
  rcases h with rfl | ha | rfl | hb
  · simp
  · obtain ⟨a', rfl⟩ := List.getLast?_eq_some_iff.mp ha
    rw [List.append_assoc, List.singleton_append, segments_append_cons, segments_append_cons,
      segments_nil, List.append_nil]
  · simp
  · obtain ⟨b', rfl⟩ := List.head?_eq_some_iff.mp hb
    rw [segments_append_cons, segments_cons_self]

/-- If the segments of `a` are the first of `a ++ b`, then a segment ends behind `a`: otherwise the
last segment of `a` goes on in `b`. -/
theorem cuts_of_segments_start :
    ∀ {a : List α}, segments sep a <+: segments sep (a ++ b) → Cuts sep a b := by
  suffices h : ∀ n (a : List α), a.length ≤ n → segments sep a <+: segments sep (a ++ b) →
      Cuts sep a b from fun {a} => h a.length a (Nat.le_refl _)
  intro n
  induction n with
  | zero =>
    intro a ha _
    exact Or.inl (List.eq_nil_of_length_eq_zero (Nat.le_zero.mp ha))
  | succ n ih =>
    intro a hlen hstart
    obtain ⟨w, r, rfl, hw, hr⟩ := exists_word sep a
    rcases hr with rfl | hr
    · -- one word: it is followed by the end, by a separator, or it goes on
      rw [List.append_nil] at hstart ⊢
      by_cases hne : w = []
      · exact Or.inl hne
      obtain ⟨v, b', rfl, hv, hb'⟩ := exists_word sep b
      rw [segments_word hw hne, ← List.append_assoc, segments_word_append (w := w ++ v)
        (by simp [hw, hv]) (by simp [hne]) hb', List.cons_prefix_cons] at hstart
      obtain rfl : v = [] := List.self_eq_append_right.mp hstart.1
      exact Or.inr (Or.inr hb')
    · obtain ⟨r', rfl⟩ := List.head?_eq_some_iff.mp hr
      have hcut : segments sep r' <+: segments sep (r' ++ b) := by
        rw [List.append_assoc, List.cons_append, segments_append_cons, segments_append_cons] at hstart
        exact (List.prefix_append_right_inj _).mp hstart
      have hshort : r'.length ≤ n := by
        rw [List.length_append, List.length_cons] at hlen
        omega
      rcases ih r' hshort hcut with rfl | hlast | hb
      · exact Or.inr (Or.inl (by simp))
      · refine Or.inr (Or.inl ?_)
        obtain ⟨r'', rfl⟩ := List.getLast?_eq_some_iff.mp hlast
        exact List.getLast?_eq_some_iff.mpr ⟨w ++ sep :: r'', by simp⟩
      · exact Or.inr (Or.inr hb)

/-- What is put behind a list may lengthen its last segment, and takes none away. -/
theorem length_segments_le (b : List α) :
    ∀ a : List α, (segments sep a).length ≤ (segments sep (a ++ b)).length := by
  intro a
  induction hn : a.length using Nat.strong_induction_on generalizing a with
  | _ n ih =>
    subst hn
    obtain ⟨w, r, rfl, hw, hr⟩ := exists_word sep a
    rcases hr with rfl | hr
    · rw [List.append_nil]
      by_cases hne : w = []
      · rw [hne, segments_nil]
        exact Nat.zero_le _
      obtain ⟨v, b', rfl, hv, hb'⟩ := exists_word sep b
      rw [segments_word hw hne, ← List.append_assoc, segments_word_append (w := w ++ v)
        (by simp [hw, hv]) (by simp [hne]) hb', List.length_cons]
      exact Nat.succ_le_succ (Nat.zero_le _)
    · obtain ⟨r', rfl⟩ := List.head?_eq_some_iff.mp hr
      rw [List.append_assoc, List.cons_append, segments_append_cons, segments_append_cons,
        List.length_append, List.length_append]
      exact Nat.add_le_add_left (ih r'.length (by simp; omega) r' rfl) _

end Sinux.Lib.Segments

import Mathlib.Algebra.Group.Fin.Basic
import Mathlib.Algebra.GroupWithZero.Nat
import Mathlib.Data.List.FinRange
import Mathlib.Data.List.OfFn

/-!
# Searching a ring of slots

`n` slots in a circle and a search that starts at `head` and goes once around. `dist head b` is how
many slots the search passes before it comes to `b`. When the head moves on behind the slot it
found, the slots that are still ahead keep their order (`dist_after`), and the slot it found is
last (`dist_succ_lt`).
-/

namespace Sinux.Lib.Cyclic

variable {n : Nat} [NeZero n] {head a b c : Fin n} {P : Fin n → Bool}

/-- The slots from `head` to `b`, going up and around. -/
def dist (head b : Fin n) : Nat := (b - head).val

/-- The first slot with `P` from `head` on. -/
def firstFrom (P : Fin n → Bool) (head : Fin n) : Option (Fin n) :=
  ((List.finRange n).find? fun i => P (head + i)).map (head + ·)

theorem dist_inj (h : dist head a = dist head b) : a = b :=
  sub_left_inj.mp (Fin.ext h)

theorem firstFrom_some (h : firstFrom P head = some c) :
    P c = true ∧ ∀ b, P b = true → dist head c ≤ dist head b := by
  obtain ⟨i, hi, rfl⟩ := Option.map_eq_some_iff.mp h
  rw [← List.ofFn_id] at hi
  obtain ⟨hP, hmin⟩ :=
    (List.find?_ofFn_eq_some_of_injective (i := i) Function.injective_id).mp hi
  refine ⟨hP, fun b hb => ?_⟩
  show (head + i - head).val ≤ (b - head).val
  rw [add_sub_cancel_left]
  refine Nat.le_of_not_lt fun hlt => hmin (b - head) hlt ?_
  rw [id_eq, add_sub_cancel]
  exact hb

theorem firstFrom_none : firstFrom P head = none ↔ ∀ b, P b = false := by
  rw [firstFrom, Option.map_eq_none_iff, List.find?_eq_none]
  constructor
  · intro h b
    have hb := h (b - head) (List.mem_finRange _)
    rwa [add_sub_cancel, Bool.not_eq_true] at hb
  · intro h i _
    rw [h]
    decide

theorem dist_succ (h : b ≠ c) : dist (c + 1) b + 1 = (b - c).val := by
  have hne : b - c ≠ 0 := sub_ne_zero.mpr h
  have hpos : (b - c).val ≠ 0 := fun h0 => hne (Fin.ext (h0.trans (Fin.val_zero n).symm))
  have hval : (b - c - 1).val = (b - c).val - 1 := Fin.val_sub_one_of_ne_zero hne
  unfold dist
  rw [← sub_sub, hval]
  omega

theorem dist_after (h : dist head c < dist head b) :
    dist (c + 1) b + dist head c + 1 = dist head b := by
  have hle : c - head ≤ b - head := le_of_lt h
  have hsub : (b - c).val = (b - head).val - (c - head).val := by
    rw [← Fin.sub_val_of_le hle, sub_sub_sub_cancel_right]
  have hbc : b ≠ c := by
    rintro rfl
    exact lt_irrefl _ h
  have hsucc := dist_succ hbc
  unfold dist at h hsucc ⊢
  omega

theorem dist_succ_lt (h : b ≠ c) : dist (c + 1) b < dist (c + 1) c := by
  have hsucc := dist_succ h
  have hlt := (b - c).isLt
  have hval : (1 : Fin n).val = 1 := by
    rw [Fin.val_one', Nat.mod_eq_of_lt (by omega)]
  have hone : (1 : Fin n) ≠ 0 := fun h0 => by
    rw [h0, Fin.val_zero] at hval
    exact absurd hval (by decide)
  have hself : dist (c + 1) c = n - 1 := by
    unfold dist
    rw [← sub_sub, sub_self, zero_sub, Fin.val_neg, if_neg hone, hval]
  omega

end Sinux.Lib.Cyclic

import Mathlib.Data.Nat.ModEq
import Mathlib.Logic.Function.Basic

/-!
# Ring buffers

A buffer of `n` cells read as a queue: the `count` cells from `tail` on, wrapping at `n`. A push
writes the cell behind the last one, a pop moves `tail` by one.
-/

namespace Sinux.Lib.Ring

open Function

variable {α : Type*} {n : Nat} {buf : Nat → α} {tail count : Nat}

/-- The queue in the buffer, front first. -/
def contents (n : Nat) (buf : Nat → α) (tail count : Nat) : List α :=
  (List.range count).map fun i => buf ((tail + i) % n)

@[simp] theorem length_contents : (contents n buf tail count).length = count := by
  simp [contents]

theorem contents_zero : contents n buf tail 0 = [] := rfl

theorem index_ne {i j : Nat} (hij : i < j) (hj : j < n) : (tail + i) % n ≠ (tail + j) % n := by
  intro h
  have h' : Nat.ModEq n i j := Nat.ModEq.add_left_cancel' tail h
  have := Nat.ModEq.eq_of_lt_of_lt h' (hij.trans hj) hj
  omega

theorem contents_push (hc : count < n) (b : α) :
    contents n (update buf ((tail + count) % n) b) tail (count + 1) =
      contents n buf tail count ++ [b] := by
  unfold contents
  rw [List.range_succ, List.map_append, List.map_singleton, update_self]
  congr 1
  refine List.map_congr_left fun i hi => ?_
  exact update_of_ne (index_ne (List.mem_range.mp hi) hc) _ _

theorem contents_pop :
    contents n buf tail (count + 1) = buf (tail % n) :: contents n buf ((tail + 1) % n) count := by
  unfold contents
  rw [List.range_succ_eq_map, List.map_cons, List.map_map, Nat.add_zero]
  congr 1
  refine List.map_congr_left fun i _ => ?_
  have h : (tail + (i + 1)) % n = ((tail + 1) % n + i) % n := by
    rw [Nat.mod_add_mod]
    congr 1
    omega
  exact congrArg buf h

end Sinux.Lib.Ring

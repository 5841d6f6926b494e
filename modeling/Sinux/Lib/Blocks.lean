import Mathlib.Data.List.Induction
import Mathlib.Data.List.Basic
import Mathlib.Tactic.Common

/-!
# Streams cut into blocks

A sequence cut into blocks of `n` elements, and a machine that gets it one element at a time, keeps
what does not fill a block, and folds the full blocks into its state. `feed_fold` says that the
machine computes the fold over the blocks, so how the sequence is divided among calls is all the same.
-/

namespace Sinux.Lib.Blocks

variable {α σ : Type*} {n : Nat} {a b m : List α}

/-- The full blocks of `m`, in order. -/
def blocks (n : Nat) (m : List α) : List (List α) :=
  (List.range (m.length / n)).map fun i => (m.drop (n * i)).take n

/-- What is left of `m` behind its full blocks. -/
def rest (n : Nat) (m : List α) : List α := m.drop (n * (m.length / n))

theorem rest_length (n : Nat) (m : List α) : (rest n m).length = m.length % n := by
  rw [rest, List.length_drop, Nat.mod_def]

theorem blocks_append (h : n ∣ a.length) : blocks n (a ++ b) = blocks n a ++ blocks n b := by
  rcases Nat.eq_zero_or_pos n with rfl | hn
  · simp [blocks]
  obtain ⟨q, hq⟩ := h
  have hdiv : (a ++ b).length / n = q + b.length / n := by
    rw [List.length_append, hq, Nat.mul_add_div hn]
  rw [blocks, blocks, blocks, hdiv, List.range_add, List.map_append, hq, Nat.mul_div_cancel_left _ hn,
    List.map_map]
  congr 1
  · refine List.map_congr_left fun i hi => ?_
    have hi : i + 1 ≤ q := List.mem_range.mp hi
    have hle : n * i + n ≤ a.length := by
      rw [hq, ← Nat.mul_succ]
      exact Nat.mul_le_mul_left n hi
    rw [List.drop_append_of_le_length (by omega), List.take_append_of_le_length]
    rw [List.length_drop]
    omega
  · refine List.map_congr_left fun i _ => ?_
    rw [Function.comp_apply, Nat.mul_add, ← hq, List.drop_length_add_append]

theorem blocks_self (hn : 0 < n) (h : a.length = n) : blocks n a = [a] := by
  rw [blocks, h, Nat.div_self hn, List.range_one, List.map_singleton, Nat.mul_zero, List.drop_zero,
    ← h, List.take_length]

theorem blocks_nil_of_lt (h : a.length < n) : blocks n a = [] := by
  simp [blocks, Nat.div_eq_of_lt h]

theorem rest_append (h : n ∣ a.length) : rest n (a ++ b) = rest n b := by
  rcases Nat.eq_zero_or_pos n with rfl | hn
  · simp [rest, List.length_eq_zero_iff.mp (Nat.zero_dvd.mp h)]
  obtain ⟨q, hq⟩ := h
  rw [rest, rest, List.length_append, hq, Nat.mul_add_div hn, Nat.mul_add, ← hq,
    List.drop_length_add_append]

theorem rest_self (hn : 0 < n) (h : a.length = n) : rest n a = [] := by
  rw [rest, h, Nat.div_self hn, Nat.mul_one, ← h, List.drop_length]

theorem rest_of_lt (h : a.length < n) : rest n a = a := by
  rw [rest, Nat.div_eq_of_lt h, Nat.mul_zero, List.drop_zero]

theorem take_append_rest (n : Nat) (m : List α) : m.take (n * (m.length / n)) ++ rest n m = m :=
  List.take_append_drop _ m

theorem dvd_take_length (n : Nat) (m : List α) : n ∣ (m.take (n * (m.length / n))).length := by
  rw [List.length_take, Nat.min_eq_left (Nat.mul_div_le _ n)]
  exact Nat.dvd_mul_right n _

theorem blocks_append_rest (hn : 0 < n) (m b : List α) :
    blocks n (m ++ b) = blocks n m ++ blocks n (rest n m ++ b) := by
  have hrest : (rest n m).length < n := by
    rw [rest_length]
    exact Nat.mod_lt _ hn
  have hm : blocks n m = blocks n (m.take (n * (m.length / n))) := by
    conv_lhs => rw [← take_append_rest n m]
    rw [blocks_append (dvd_take_length n m), blocks_nil_of_lt hrest, List.append_nil]
  rw [hm, ← blocks_append (dvd_take_length n m), ← List.append_assoc, take_append_rest]

theorem rest_append_rest (m b : List α) : rest n (m ++ b) = rest n (rest n m ++ b) := by
  conv_lhs => rw [← take_append_rest n m, List.append_assoc]
  exact rest_append (dvd_take_length n m)

/-- One element: it fills a block, which goes to the state, or is kept. -/
def feed (n : Nat) (f : σ → List α → σ) (s : σ × List α) (x : α) : σ × List α :=
  if s.2.length + 1 = n then (f s.1 (s.2 ++ [x]), []) else (s.1, s.2 ++ [x])

/-- **The machine folds the blocks and keeps the rest.** -/
theorem feed_fold (hn : 0 < n) (f : σ → List α → σ) (s : σ) (m : List α) :
    m.foldl (feed n f) (s, []) = ((blocks n m).foldl f s, rest n m) := by
  induction m using List.reverseRecOn with
  | nil => simp [blocks, rest]
  | append_singleton m x ih =>
    have hlt : (rest n m).length < n := by
      rw [rest_length]
      exact Nat.mod_lt _ hn
    have hlen : (rest n m ++ [x]).length = (rest n m).length + 1 := by simp
    rw [List.foldl_append, ih, List.foldl_cons, List.foldl_nil, feed, blocks_append_rest hn,
      rest_append_rest]
    split
    · next hfull =>
      rw [blocks_self hn (hlen.trans hfull), rest_self hn (hlen.trans hfull), List.foldl_append]
      rfl
    · next hopen =>
      have hopen : (rest n m).length + 1 ≠ n := hopen
      have hlt' : (rest n m ++ [x]).length < n := by omega
      rw [blocks_nil_of_lt hlt', rest_of_lt hlt', List.append_nil]

end Sinux.Lib.Blocks

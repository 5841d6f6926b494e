import Mathlib.Data.Nat.Count
import Mathlib.Logic.Function.Basic

/-!
# Bit sets packed into machine words

A bit set stored in an array of `w`-bit words: bit `i` is bit `i % w` of word `i / w`. The array is
a function `Nat → BitVec w`, so the same lemmas serve a byte array and an array of 64-bit words.

* `test_set`, `test_clear`: an update changes the bit it names and no other.
* `ext_test`: two arrays with the same bits are equal word for word.
* `clearCount_set`, `clearCount_clear`: the number of clear bits below `n` moves by one.
* `firstClear`: the linear search for the least clear bit.
-/

namespace Sinux.Lib.PackedBits

open Function

variable {w : Nat} (ws : Nat → BitVec w)

/-- Bit `i` of the set. -/
def test (i : Nat) : Bool := (ws (i / w)).getLsbD (i % w)

/-- Set bit `i`. -/
def set (i : Nat) : Nat → BitVec w :=
  update ws (i / w) (ws (i / w) ||| 1#w <<< (i % w))

/-- Clear bit `i`. -/
def clear (i : Nat) : Nat → BitVec w :=
  update ws (i / w) (ws (i / w) &&& ~~~(1#w <<< (i % w)))

variable {ws}

theorem shift_one_getLsbD {k j : Nat} (hj : j < w) :
    (1#w <<< k).getLsbD j = decide (k = j) := by
  rw [BitVec.getLsbD_shiftLeft, BitVec.getLsbD_one]
  by_cases h : k = j
  · subst h
    simp [hj, Nat.zero_lt_of_lt hj]
  · simp only [h, decide_false, Bool.and_eq_false_iff, Bool.not_eq_false', decide_eq_true_eq,
      decide_eq_false_iff_not]
    omega

theorem index_eq {i j : Nat} (hd : i / w = j / w) (hm : i % w = j % w) : i = j := by
  rw [← Nat.div_add_mod i w, ← Nat.div_add_mod j w, hd, hm]

theorem test_set (hw : 0 < w) (i j : Nat) :
    test (set ws i) j = (decide (i = j) || test ws j) := by
  unfold test set
  have hj : j % w < w := Nat.mod_lt j hw
  by_cases hd : j / w = i / w
  · rw [hd, update_self, BitVec.getLsbD_or, shift_one_getLsbD hj, Bool.or_comm]
    congr 1
    by_cases hij : i = j
    · simp [hij]
    · have : i % w ≠ j % w := fun hm => hij (index_eq hd.symm hm)
      simp [hij, this]
  · rw [update_of_ne hd]
    have : i ≠ j := fun h => hd (by rw [h])
    simp [this]

theorem test_clear (hw : 0 < w) (i j : Nat) :
    test (clear ws i) j = (!decide (i = j) && test ws j) := by
  unfold test clear
  have hj : j % w < w := Nat.mod_lt j hw
  by_cases hd : j / w = i / w
  · rw [hd, update_self, BitVec.getLsbD_and, BitVec.getLsbD_not, shift_one_getLsbD hj,
      Bool.and_comm]
    by_cases hij : i = j
    · simp [hij]
    · have : i % w ≠ j % w := fun hm => hij (index_eq hd.symm hm)
      simp [hij, this, hj]
  · rw [update_of_ne hd]
    have : i ≠ j := fun h => hd (by rw [h])
    simp [this]

theorem ext_test {ws' : Nat → BitVec w} (h : ∀ i, test ws i = test ws' i) : ws = ws' := by
  funext k
  apply BitVec.eq_of_getLsbD_eq
  intro b hb
  have hi := h (w * k + b)
  unfold test at hi
  rwa [Nat.mul_add_div (by omega), Nat.div_eq_of_lt hb, Nat.add_zero, Nat.mul_add_mod,
    Nat.mod_eq_of_lt hb] at hi

/-! ## Counting -/

/-- How many of the bits below `n` are clear. -/
def clearCount (ws : Nat → BitVec w) (n : Nat) : Nat := Nat.count (fun i => test ws i = false) n

theorem clearCount_succ (n : Nat) :
    clearCount ws (n + 1) = clearCount ws n + if test ws n = false then 1 else 0 :=
  Nat.count_succ _ n

theorem clearCount_le (n : Nat) : clearCount ws n ≤ n := Nat.count_le _

theorem clearCount_pos_iff {n : Nat} :
    0 < clearCount ws n ↔ ∃ i, i < n ∧ test ws i = false := by
  rw [Nat.pos_iff_ne_zero]
  exact Nat.count_ne_iff_exists

/-- Two sets that differ in one bit below `n`, clear in the first and set in the second. -/
theorem clearCount_eq_add_one {ws' : Nat → BitVec w} {i : Nat} (hc : test ws i = false)
    (hs : test ws' i = true) (he : ∀ j, j ≠ i → test ws' j = test ws j) :
    ∀ {n : Nat}, i < n → clearCount ws n = clearCount ws' n + 1 := by
  have hlow : ∀ n, n ≤ i → clearCount ws n = clearCount ws' n := by
    intro n
    induction n with
    | zero => intro _; rfl
    | succ n ih =>
      intro hn
      rw [clearCount_succ, clearCount_succ, ih (by omega), he n (by omega)]
  intro n
  induction n with
  | zero => intro h; omega
  | succ n ih =>
    intro hin
    rw [clearCount_succ, clearCount_succ]
    by_cases h : i = n
    · subst h
      rw [hlow i (le_refl i), hc, hs]
      simp
    · rw [ih (by omega), he n (fun hn => h hn.symm)]
      omega

theorem clearCount_set (hw : 0 < w) {n i : Nat} (hi : i < n) (h : test ws i = false) :
    clearCount ws n = clearCount (set ws i) n + 1 :=
  clearCount_eq_add_one h (by rw [test_set hw]; simp)
    (fun j hj => by rw [test_set hw]; simp [hj.symm]) hi

theorem clearCount_clear (hw : 0 < w) {n i : Nat} (hi : i < n) (h : test ws i = true) :
    clearCount (clear ws i) n = clearCount ws n + 1 :=
  clearCount_eq_add_one (by rw [test_clear hw]; simp) h
    (fun j hj => by rw [test_clear hw]; simp [hj.symm]) hi

/-! ## The linear search -/

/-- `for (i = 0; i < n; i++) if (!test(i)) return i;` -/
def firstClear (ws : Nat → BitVec w) (n : Nat) : Option Nat :=
  (List.range n).find? fun i => !test ws i

theorem firstClear_eq_some {n i : Nat} :
    firstClear ws n = some i ↔ i < n ∧ test ws i = false ∧ ∀ j, j < i → test ws j = true := by
  unfold firstClear
  rw [List.find?_range_eq_some, List.mem_range]
  simp only [Bool.not_eq_true', Bool.not_not]
  tauto

theorem firstClear_eq_none {n : Nat} :
    firstClear ws n = none ↔ ∀ i, i < n → test ws i = true := by
  unfold firstClear
  rw [List.find?_range_eq_none]
  simp only [Bool.not_not]

end Sinux.Lib.PackedBits

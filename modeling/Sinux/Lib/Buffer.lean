import Mathlib.Data.List.Perm.Basic

/-!
# Buffers

A block of memory as the list of its cells. `fetch` and `blit` copy out of it and into it and have
no result when they would leave the block; `overwrite` is what such a copy means for a sequence
that may grow at its end.
-/

namespace Sinux.Lib.Buffer

variable {α : Type*} {b src t : List α} {off n k : Nat}

/-- The `n` cells from `off` on. -/
def fetch (b : List α) (off n : Nat) : Option (List α) :=
  if off + n ≤ b.length then some ((b.drop off).take n) else none

/-- The cells from `off` on replaced by `src`; the sequence grows when `src` reaches behind it. -/
def overwrite (b : List α) (off : Nat) (src : List α) : List α :=
  b.take off ++ src ++ b.drop (off + src.length)

/-- A copy of `src` into the block at `off`. -/
def blit (b : List α) (off : Nat) (src : List α) : Option (List α) :=
  if off + src.length ≤ b.length then some (overwrite b off src) else none

theorem fetch_of_le (h : off + n ≤ b.length) : fetch b off n = some ((b.drop off).take n) :=
  if_pos h

theorem blit_of_le (h : off + src.length ≤ b.length) : blit b off src = some (overwrite b off src) :=
  if_pos h

theorem length_overwrite (h : off ≤ b.length) (src : List α) :
    (overwrite b off src).length = max b.length (off + src.length) := by
  simp only [overwrite, List.length_append, List.length_take, List.length_drop]
  omega

theorem overwrite_nil : overwrite b off [] = b := by
  simp [overwrite]

theorem overwrite_zero : overwrite b 0 src = src ++ b.drop src.length := by
  simp [overwrite]

/-- What a reader of the block sees: the first `k` cells, or as many as the copy reaches. -/
theorem take_overwrite (hoff : off ≤ k) (hk : k ≤ b.length) :
    (overwrite b off src).take (max k (off + src.length)) = overwrite (b.take k) off src := by
  have hleft : (b.take k).take off = b.take off := by
    rw [List.take_take, Nat.min_eq_left hoff]
  have hlen : (b.take off ++ src).length = off + src.length := by
    simp only [List.length_append, List.length_take]
    omega
  unfold overwrite
  rw [hleft, List.take_append, List.take_of_length_le (by rw [hlen]; exact Nat.le_max_right _ _), hlen,
    List.drop_take]
  congr 2
  omega

theorem overwrite_append (h : off ≤ b.length) :
    overwrite (overwrite b off src) (off + src.length) t = overwrite b off (src ++ t) := by
  have hlen : (b.take off ++ src).length = off + src.length := by
    simp only [List.length_append, List.length_take]
    omega
  unfold overwrite
  rw [List.take_left' hlen, List.length_append, List.drop_append, hlen,
    List.drop_eq_nil_of_le (by rw [hlen]; omega), List.nil_append, List.drop_drop]
  simp only [List.append_assoc]
  congr 4
  omega

/-! ## Reading up to a gap -/

/-- The `n` cells from `p` on, up to the first that is missing. -/
def collect (f : Nat → Option α) (p : Nat) : Nat → List α
  | 0 => []
  | n + 1 =>
    match f p with
    | none => []
    | some b => b :: collect f (p + 1) n

section

variable {f g : Nat → Option α} {p m : Nat}

@[simp] theorem collect_zero : collect f p 0 = [] := rfl

theorem collect_of_none (h : f p = none) (n : Nat) : collect f p n = [] := by
  cases n with
  | zero => rfl
  | succ n => rw [collect, h]

theorem head?_collect_one : (collect f p 1).head? = f p := by
  cases h : f p <;> simp [collect, h]

theorem collect_append {c : Nat} {v : Nat → α} (h : ∀ i < c, f (p + i) = some (v i)) (m : Nat) :
    collect f p (c + m) = (List.range c).map v ++ collect f (p + c) m := by
  induction c generalizing p v with
  | zero => simp
  | succ c ih =>
    have hp : f p = some (v 0) := h 0 (Nat.succ_pos c)
    have hrest : ∀ i < c, f (p + 1 + i) = some (v (i + 1)) := by
      intro i hi
      rw [Nat.add_right_comm]
      exact h (i + 1) (Nat.succ_lt_succ hi)
    rw [Nat.succ_add, collect, hp, List.range_succ_eq_map, List.map_cons, List.map_map,
      List.cons_append, ih hrest, Nat.add_right_comm p 1 c]
    rfl

theorem collect_stop {c : Nat} (h : f (p + c) = none) (m : Nat) :
    collect f p (c + m) = collect f p c := by
  induction c generalizing p with
  | zero => exact collect_of_none h _
  | succ c ih =>
    rw [Nat.succ_add, collect, collect]
    cases f p with
    | none => rfl
    | some b =>
      rw [← Nat.add_assoc, Nat.add_right_comm] at h
      exact congrArg (b :: ·) (ih h)

theorem collect_getElem? {l : List α} (h : ∀ p, f p = l[p]?) : collect f p n = (l.drop p).take n := by
  induction n generalizing p with
  | zero => rfl
  | succ n ih =>
    rw [collect, h]
    by_cases hp : p < l.length
    · rw [List.getElem?_eq_getElem hp, List.drop_eq_getElem_cons hp, List.take_succ_cons, ih]
    · simp [Nat.not_lt.mp hp]

theorem length_collect_le {i : Nat} (hi : i < n) (h : f (p + i) = none) :
    (collect f p n).length ≤ i := by
  induction n generalizing p i with
  | zero => exact absurd hi (Nat.not_lt_zero i)
  | succ n ih =>
    rw [collect]
    cases hp : f p with
    | none => exact Nat.zero_le _
    | some b =>
      cases i with
      | zero =>
        rw [Nat.add_zero, hp] at h
        cases h
      | succ i =>
        rw [← Nat.add_assoc, Nat.add_right_comm] at h
        exact Nat.succ_le_succ (ih (Nat.lt_of_succ_lt_succ hi) h)

end

theorem flatMap_range_map {q : Nat} (hq : 0 < q) (k : Nat) (v : Nat → Nat → α) :
    ((List.range k).flatMap fun b => (List.range q).map (v b)) =
      (List.range (k * q)).map fun p => v (p / q) (p % q) := by
  induction k with
  | zero => simp
  | succ k ih =>
    rw [List.range_succ, List.flatMap_append, ih, Nat.succ_mul, List.range_add, List.map_append,
      List.map_map, List.flatMap_singleton]
    congr 1
    refine List.map_congr_left fun i hi => ?_
    have hi := List.mem_range.mp hi
    rw [Function.comp_apply, Nat.mul_comm k, Nat.mul_add_div hq, Nat.mul_add_mod, Nat.div_eq_of_lt hi,
      Nat.mod_eq_of_lt hi, Nat.add_zero]

/-! ## Removal by swapping -/

/-- Entry `i` removed by moving the last one to its place. -/
def swapRemove [Inhabited α] (l : List α) (i : Nat) : List α := (l.set i (l.getLastD default)).dropLast

theorem swapRemove_append [Inhabited α] (as : List α) (x : α) (bs : List α) :
    swapRemove (as ++ x :: bs) as.length = as ++ (bs.getLast?.toList ++ bs.dropLast) := by
  rcases List.eq_nil_or_concat bs with rfl | ⟨cs, z, rfl⟩
  · simp [swapRemove]
  · rw [List.concat_eq_append, swapRemove, ← List.cons_append, ← List.append_assoc,
      List.getLastD_concat, List.append_assoc, List.set_append_right _ _ (Nat.le_refl _),
      Nat.sub_self, List.cons_append, List.set_cons_zero, ← List.cons_append, ← List.append_assoc,
      List.dropLast_concat]
    simp

theorem swapRemove_perm (as : List α) (x : α) (bs : List α) :
    (x :: (as ++ (bs.getLast?.toList ++ bs.dropLast))).Perm (as ++ x :: bs) := by
  have hlast : (bs.getLast?.toList ++ bs.dropLast).Perm bs := by
    rcases List.eq_nil_or_concat bs with rfl | ⟨cs, z, rfl⟩
    · exact .refl _
    · simpa using (List.perm_append_singleton z cs).symm
  exact ((hlast.append_left as).cons x).trans List.perm_middle.symm

end Sinux.Lib.Buffer

import Mathlib.Data.Finset.Basic
import Mathlib.Data.Finset.Dedup
import Mathlib.Tactic.Abel

/-!
# An allocator that conserves memory

`Allocator` knows its blocks by number only: a block handed out is in `live` until it is freed, and no
number is used twice. Which requests are refused is a parameter.

`Extends a a' B` says that `a'` is `a` with the blocks `B` handed out on top. The rules follow a
program: `alloc` adds a block, `freeAll` takes away those freed, `trans` puts two parts together.
-/

namespace Sinux.Lib

structure Allocator where
  live : Finset Nat
  next : Nat
  fresh : ∀ b ∈ live, b < next

namespace Allocator

/-- Request `next`, refused if `fails` says so. -/
def alloc (fails : Nat → Bool) (a : Allocator) : Option Nat × Allocator :=
  if fails a.next then
    (none, ⟨a.live, a.next + 1, fun b hb => Nat.lt_succ_of_lt (a.fresh b hb)⟩)
  else
    (some a.next, ⟨insert a.next a.live, a.next + 1, fun b hb => by
      rcases Finset.mem_insert.mp hb with rfl | hb
      · exact Nat.lt_succ_self _
      · exact Nat.lt_succ_of_lt (a.fresh b hb)⟩)

def free (b : Nat) (a : Allocator) : Allocator :=
  ⟨a.live.erase b, a.next, fun c hc => a.fresh c (Finset.mem_of_mem_erase hc)⟩

def freeAll (bs : List Nat) (a : Allocator) : Allocator := bs.foldl (fun a b => a.free b) a

/-- Up to `n` blocks, until a request is refused: the blocks, and whether there are `n`. -/
def allocMany (fails : Nat → Bool) : Nat → Allocator → (List Nat × Bool) × Allocator
  | 0, a => (([], true), a)
  | n + 1, a =>
    match a.alloc fails with
    | (none, a) => (([], false), a)
    | (some b, a) =>
      let ((bs, ok), a) := allocMany fails n a
      ((b :: bs, ok), a)

/-- The `n` requests from number `m` on are granted. -/
def Grants (fails : Nat → Bool) (m n : Nat) : Prop := ∀ i < n, fails (m + i) = false

/-- `a'` is `a` with the blocks `B` handed out on top. -/
structure Extends (a a' : Allocator) (B : Multiset Nat) : Prop where
  live : a'.live = a.live ∪ B.toFinset
  nodup : B.Nodup
  new : ∀ b ∈ B, a.next ≤ b
  next : a.next ≤ a'.next

variable {a a' a'' : Allocator} {B C : Multiset Nat} {fails : Nat → Bool}

theorem Extends.refl (a : Allocator) : Extends a a 0 :=
  ⟨by simp, Multiset.nodup_zero, nofun, le_refl _⟩

theorem Extends.lt (h : Extends a a' B) {b : Nat} (hb : b ∈ B) : b < a'.next :=
  a'.fresh b (by simp [h.live, hb])

theorem Extends.trans (h : Extends a a' B) (h' : Extends a' a'' C) : Extends a a'' (B + C) where
  live := by rw [h'.live, h.live, Multiset.toFinset_add, Finset.union_assoc]
  nodup := Multiset.nodup_add.mpr ⟨h.nodup, h'.nodup, Multiset.disjoint_left.mpr fun hb hc =>
    absurd (h.lt hb) (Nat.not_lt.mpr (h'.new _ hc))⟩
  new := fun b hb => (Multiset.mem_add.mp hb).elim (h.new b) fun hc => h.next.trans (h'.new b hc)
  next := h.next.trans h'.next

theorem extends_alloc (fails : Nat → Bool) (a : Allocator) :
    Extends a (a.alloc fails).2 ((a.alloc fails).1.toList : Multiset Nat) := by
  unfold alloc
  split
  · exact ⟨by simp, List.nodup_nil, nofun, Nat.le_succ _⟩
  · refine ⟨?_, List.nodup_singleton _, fun b hb => ?_, Nat.le_succ _⟩
    · ext x
      exact Finset.mem_insert.trans (or_comm.trans
        ((or_congr_right Finset.mem_singleton.symm).trans Finset.mem_union.symm))
    · rw [Multiset.mem_coe, Option.toList_some, List.mem_singleton] at hb
      exact hb.ge

theorem extends_allocMany (fails : Nat → Bool) (n : Nat) (a : Allocator) :
    Extends a (a.allocMany fails n).2 ((a.allocMany fails n).1.1 : Multiset Nat) := by
  induction n generalizing a with
  | zero => exact Extends.refl a
  | succ n ih =>
    have h := extends_alloc fails a
    rw [allocMany]
    cases hb : a.alloc fails with
    | mk r a₁ =>
      rw [hb] at h
      cases r with
      | none => exact h
      | some b => exact h.trans (ih a₁)

theorem grants_add (fails : Nat → Bool) (m n k : Nat) :
    Grants fails m (n + k) ↔ Grants fails m n ∧ Grants fails (m + n) k := by
  constructor
  · exact fun h => ⟨fun i hi => h i (by omega),
      fun i hi => Nat.add_assoc m n i ▸ h (n + i) (by omega)⟩
  · rintro ⟨h, h'⟩ i hi
    by_cases hn : i < n
    · exact h i hn
    · have := h' (i - n) (by omega)
      rwa [show m + n + (i - n) = m + i by omega] at this

theorem grants_one (fails : Nat → Bool) (m : Nat) : Grants fails m 1 ↔ fails m = false := by
  simp [Grants]

theorem alloc_next (fails : Nat → Bool) (a : Allocator) : (a.alloc fails).2.next = a.next + 1 := by
  unfold alloc
  split <;> rfl

theorem alloc_isSome (fails : Nat → Bool) (a : Allocator) :
    (a.alloc fails).1.isSome = true ↔ fails a.next = false := by
  unfold alloc
  split <;> simp_all

/-- **When all are granted**, and what then is handed out. -/
theorem allocMany_granted (fails : Nat → Bool) (n : Nat) (a : Allocator) :
    ((a.allocMany fails n).1.2 = true ↔ Grants fails a.next n) ∧
      ((a.allocMany fails n).1.2 = true →
        (a.allocMany fails n).2.next = a.next + n ∧ (a.allocMany fails n).1.1.length = n) := by
  induction n generalizing a with
  | zero => exact ⟨iff_of_true rfl nofun, fun _ => ⟨rfl, rfl⟩⟩
  | succ n ih =>
    have hsome := alloc_isSome fails a
    have hnext := alloc_next fails a
    rw [Nat.add_comm n, grants_add, grants_one, ← hsome, Nat.add_comm 1, allocMany]
    cases hb : a.alloc fails with
    | mk r a₁ =>
      rw [hb] at hnext
      cases r with
      | none => exact ⟨by simp, nofun⟩
      | some b =>
        obtain ⟨h1, h2⟩ := ih a₁
        rw [hnext] at h1 h2
        refine ⟨by simpa using h1, fun hok => ?_⟩
        obtain ⟨h3, h4⟩ := h2 hok
        exact ⟨h3.trans (by omega), by simp [h4]⟩

theorem freeAll_live (bs : List Nat) (a : Allocator) :
    (a.freeAll bs).live = a.live \ bs.toFinset := by
  induction bs generalizing a with
  | nil => simp [freeAll]
  | cons b bs ih =>
    have hstep : (a.freeAll (b :: bs)).live = ((a.free b).freeAll bs).live := rfl
    ext x
    rw [hstep, ih]
    simp [free, and_assoc, and_left_comm]

theorem freeAll_next (bs : List Nat) (a : Allocator) : (a.freeAll bs).next = a.next := by
  induction bs generalizing a with
  | nil => rfl
  | cons b bs ih => exact ih (a.free b)

/-- **Freeing** some of the blocks on top leaves the others. -/
theorem Extends.freeAll (h : Extends a a' B) {bs : List Nat} (hB : B = bs + C) :
    Extends a (a'.freeAll bs) C := by
  subst hB
  obtain ⟨-, hC, hdis⟩ := Multiset.nodup_add.mp h.nodup
  refine ⟨?_, hC, fun b hb => h.new b (Multiset.mem_add.mpr (.inr hb)), ?_⟩
  · ext x
    rw [freeAll_live, h.live]
    have hold (hx : x ∈ a.live) : x ∉ bs := fun hbs =>
      absurd (a.fresh x hx) (Nat.not_lt.mpr (h.new x (Multiset.mem_add.mpr (.inl hbs))))
    have hnew (hx : x ∈ C) : x ∉ bs := fun hbs => Multiset.disjoint_left.mp hdis hbs hx
    simp only [Finset.mem_sdiff, Finset.mem_union, Multiset.mem_toFinset, Multiset.mem_add,
      Multiset.mem_coe, List.mem_toFinset]
    tauto
  · rw [freeAll_next]
    exact h.next

theorem Extends.free (h : Extends a a' B) {b : Nat} (hB : B = [b] + C) :
    Extends a (a'.free b) C := by
  have hall : Extends a (a'.freeAll [b]) C := h.freeAll hB
  exact hall

theorem Extends.live_eq_iff (h : Extends a a' B) : a'.live = a.live ↔ B = 0 := by
  rw [h.live, Finset.union_eq_left, Multiset.eq_zero_iff_forall_notMem]
  refine ⟨fun hsub b hb => ?_, fun hnone b hb => absurd (Multiset.mem_toFinset.mp hb) (hnone b)⟩
  exact absurd (a.fresh b (hsub (Multiset.mem_toFinset.mpr hb))) (Nat.not_lt.mpr (h.new b hb))

end Allocator

end Sinux.Lib

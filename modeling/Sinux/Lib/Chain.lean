import Mathlib.Data.List.Nodup

/-!
# Singly linked lists in memory

`Chain next null p l`: following `next` from the pointer `p` visits the nodes `l` and ends at
`null`. A list that ends is acyclic (`Chain.nodup`).

* `Chain.congr`: only the links of the nodes matter.
* `Chain.push`: a node in front.
* `Chain.unlink`: the search for the predecessor of a node, with the fuel it needs, and what
  relinking the predecessor leaves.
-/

namespace Sinux.Lib

variable {P : Type}

/-- The nodes from `p` on, down to `null`. -/
inductive Chain (next : P → P) (null : P) : P → List P → Prop
  | nil : Chain next null null []
  | cons {p : P} {l : List P} (hne : p ≠ null) (h : Chain next null (next p) l) :
      Chain next null p (p :: l)

/-- `while (prev && prev->next != target) prev = prev->next;`, `none` when the fuel runs out. -/
def findPrev [DecidableEq P] (next : P → P) (null target : P) : Nat → P → Option P
  | 0, _ => none
  | n + 1, prev =>
    if prev = null then some null
    else if next prev = target then some prev
    else findPrev next null target n (next prev)

namespace Chain

variable {next next' : P → P} {null p x : P} {l l' : List P}

theorem eq_nil (h : Chain next null null l) : l = [] := by
  cases h with
  | nil => rfl
  | cons hne _ => exact absurd rfl hne

theorem ne_null (h : Chain next null p l) (hx : x ∈ l) : x ≠ null := by
  induction h with
  | nil => exact absurd hx List.not_mem_nil
  | cons hne _ ih =>
    rcases List.mem_cons.mp hx with rfl | hx
    · exact hne
    · exact ih hx

theorem exists_cons (h : Chain next null p l) (hp : p ≠ null) :
    ∃ l', l = p :: l' ∧ Chain next null (next p) l' := by
  cases h with
  | nil => exact absurd rfl hp
  | cons _ h => exact ⟨_, rfl, h⟩

theorem congr (h : Chain next null p l) (hn : ∀ x ∈ l, next' x = next x) :
    Chain next' null p l := by
  induction h with
  | nil => exact nil
  | @cons q l hne _ ih =>
    refine cons hne ?_
    rw [hn q List.mem_cons_self]
    exact ih fun x hx => hn x (List.mem_cons_of_mem q hx)

theorem functional (h : Chain next null p l) (h' : Chain next null p l') : l = l' := by
  induction h generalizing l' with
  | nil => exact h'.eq_nil.symm
  | cons hne _ ih =>
    obtain ⟨l₂, rfl, h₂⟩ := h'.exists_cons hne
    rw [ih h₂]

theorem suffix (h : Chain next null p l) (hx : x ∈ l) : ∃ l₂, l₂ <:+ l ∧ Chain next null x l₂ := by
  induction h with
  | nil => exact absurd hx List.not_mem_nil
  | @cons q l hne h ih =>
    rcases List.mem_cons.mp hx with rfl | hx
    · exact ⟨x :: l, List.suffix_rfl, cons hne h⟩
    · obtain ⟨l₂, hs, h₂⟩ := ih hx
      exact ⟨l₂, hs.trans (List.suffix_cons q l), h₂⟩

theorem nodup (h : Chain next null p l) : l.Nodup := by
  induction h with
  | nil => exact List.nodup_nil
  | @cons q l hne h ih =>
    refine List.nodup_cons.mpr ⟨fun hq => ?_, ih⟩
    obtain ⟨l₂, hs, h₂⟩ := h.suffix hq
    have hlen := hs.length_le
    rw [functional h₂ (cons hne h), List.length_cons] at hlen
    omega

theorem push (h : Chain next null p l) (hx : x ≠ null) (hlink : next' x = p)
    (hn : ∀ y ∈ l, next' y = next y) : Chain next' null x (x :: l) := by
  refine cons hx ?_
  rw [hlink]
  exact h.congr hn

variable [DecidableEq P]

/-- **Unlinking.** With as much fuel as the list is long the search ends at the predecessor `y` of
`x`, and relinking `y` takes `x` out of the list. -/
theorem unlink (h : Chain next null p l) (hx : x ∈ l) (hp : p ≠ x) {n : Nat} (hn : l.length ≤ n) :
    ∃ y, findPrev next null x n p = some y ∧ y ∈ l ∧ y ≠ x ∧
      ∀ next' : P → P, next' y = next x → (∀ z ∈ l, z ≠ y → z ≠ x → next' z = next z) →
        Chain next' null p (l.erase x) := by
  have hnd := h.nodup
  induction h generalizing n with
  | nil => exact absurd hx List.not_mem_nil
  | @cons q l hne h ih =>
    rw [List.length_cons] at hn
    obtain ⟨n, rfl⟩ : ∃ k, n = k + 1 := ⟨n - 1, by omega⟩
    obtain ⟨hql, hnd'⟩ := List.nodup_cons.mp hnd
    have hxl : x ∈ l := (List.mem_cons.mp hx).resolve_left fun hxq => hp hxq.symm
    unfold findPrev
    rw [if_neg hne, List.erase_cons_tail (by simpa using hp)]
    by_cases hq : next q = x
    · -- the predecessor is the first node
      rw [if_pos hq]
      refine ⟨q, rfl, List.mem_cons_self, hp, fun next' hlink hother => cons hne ?_⟩
      obtain ⟨l₂, rfl, h₂⟩ := h.exists_cons (hq ▸ h.ne_null hxl)
      rw [hq] at h₂ hql hnd' hother ⊢
      rw [List.erase_cons_head, hlink]
      refine h₂.congr fun z hz => hother z ?_ ?_ ?_
      · exact List.mem_cons_of_mem _ (List.mem_cons_of_mem _ hz)
      · rintro rfl
        exact hql (List.mem_cons_of_mem _ hz)
      · rintro rfl
        exact (List.nodup_cons.mp hnd').1 hz
    · rw [if_neg hq]
      obtain ⟨y, e, hy, hyx, hrest⟩ := ih hxl hq (n := n) (by omega) hnd'
      refine ⟨y, e, List.mem_cons_of_mem q hy, hyx, fun next' hlink hother => cons hne ?_⟩
      have hqy : q ≠ y := fun hqy => hql (hqy ▸ hy)
      rw [hother q List.mem_cons_self hqy hp]
      exact hrest next' hlink fun z hz => hother z (List.mem_cons_of_mem q hz)

end Chain

end Sinux.Lib

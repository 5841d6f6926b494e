import Mathlib.Data.List.Nodup
import Mathlib.Logic.Function.Basic

/-!
# Circular singly linked lists

`Circle next head l`: `head` is `NULL` and `l` is empty, or following `next` from `head` visits the
nodes `l`, each once, and comes back to `head`.

* `Circle.congr`: only the links of the nodes matter.
* `Circle.insert`: a node behind the head. `Circle.rotate`: the next node as the head.
* `Circle.ring_eq`: the nodes can be computed.
-/

namespace Sinux.Lib

open Function

variable {P : Type*}

/-- The links lead through the list and from its last node to `e`. -/
def Follows (next : P → Option P) : List P → P → Prop
  | [], _ => True
  | x :: l, e => next x = some (l.headD e) ∧ Follows next l e

structure Circle (next : P → Option P) (head : Option P) (l : List P) : Prop where
  head_eq : head = l.head?
  nodup : l.Nodup
  closed : ∀ h ∈ l.head?, Follows next l h

/-- The nodes from `x` on until `head` comes again, at most as many as the fuel. -/
def ringFrom [DecidableEq P] (next : P → Option P) (head : P) : Nat → P → List P
  | 0, _ => []
  | n + 1, x =>
    x :: match next x with
      | none => []
      | some y => if y = head then [] else ringFrom next head n y

def ring [DecidableEq P] (next : P → Option P) (fuel : Nat) : Option P → List P
  | none => []
  | some h => ringFrom next h fuel h

section

variable {next next' : P → Option P} {head : Option P} {l l' : List P} {x p h e : P}

theorem Follows.congr (hn : ∀ x ∈ l, next' x = next x) : Follows next' l e ↔ Follows next l e := by
  induction l with
  | nil => exact Iff.rfl
  | cons x l ih =>
    rw [Follows, Follows, hn x List.mem_cons_self,
      ih fun y hy => hn y (List.mem_cons_of_mem x hy)]

theorem follows_append :
    Follows next (l ++ l') e ↔ Follows next l (l'.headD e) ∧ Follows next l' e := by
  induction l with
  | nil => simp [Follows]
  | cons x l ih =>
    have hhead : (l ++ l').headD e = l.headD (l'.headD e) := by cases l <;> rfl
    rw [List.cons_append, Follows, Follows, ih, hhead, and_assoc]

namespace Circle

theorem nil : Circle next none [] := ⟨rfl, List.nodup_nil, nofun⟩

theorem eq_nil (hc : Circle next none l) : l = [] := List.head?_eq_none_iff.mp hc.head_eq.symm

theorem exists_cons (hc : Circle next (some h) l) : ∃ t, l = h :: t := by
  have hh := hc.head_eq
  cases l with
  | nil => cases hh
  | cons x t =>
    cases hh
    exact ⟨t, rfl⟩

theorem isNone_iff (hc : Circle next head l) : head = none ↔ l = [] := by
  rw [hc.head_eq, List.head?_eq_none_iff]

theorem follows (hc : Circle next (some h) (h :: l)) : Follows next (h :: l) h := hc.closed h rfl

theorem mk_cons (hnd : (h :: l).Nodup) (hf : Follows next (h :: l) h) :
    Circle next (some h) (h :: l) :=
  ⟨rfl, hnd, fun x hx => by cases hx; exact hf⟩

theorem single (hp : next p = some p) : Circle next (some p) [p] :=
  mk_cons (List.nodup_singleton p) ⟨hp, trivial⟩

theorem congr (hc : Circle next head l) (hn : ∀ x ∈ l, next' x = next x) : Circle next' head l :=
  ⟨hc.head_eq, hc.nodup, fun x hx => (Follows.congr hn).mpr (hc.closed x hx)⟩

theorem next_head (hc : Circle next (some h) (h :: l)) : next h = some (l.headD h) := hc.follows.1

theorem rotate (hc : Circle next (some h) (h :: l)) : Circle next (next h) (l ++ [h]) := by
  obtain ⟨hnext, hrest⟩ := hc.follows
  refine ⟨?_, ?_, fun x hx => ?_⟩
  · rw [hnext]
    cases l <;> rfl
  · exact List.nodup_append_comm.mp hc.nodup
  · refine follows_append.mpr ⟨hrest, ?_, trivial⟩
    have hx' : l.headD h = x := by cases l <;> cases hx <;> rfl
    rw [hnext, hx']
    rfl

variable [DecidableEq P]

theorem insert (hc : Circle next (some h) (h :: l)) (hp : p ∉ h :: l) :
    Circle (update (update next p (next h)) h (some p)) (some h) (h :: p :: l) := by
  obtain ⟨hph, hpl⟩ := List.ne_and_not_mem_of_not_mem_cons hp
  have hhl := (List.nodup_cons.mp hc.nodup).1
  have hsame (x : P) (hx : x ∈ l) :
      update (update next p (next h)) h (some p) x = next x := by
    rw [update_of_ne (ne_of_mem_of_not_mem hx hhl),
      update_of_ne (ne_of_mem_of_not_mem hx hpl)]
  refine mk_cons ?_ ⟨update_self .., ?_, (Follows.congr hsame).mpr hc.follows.2⟩
  · refine List.nodup_cons.mpr ⟨?_, List.nodup_cons.mpr ⟨hpl, (List.nodup_cons.mp hc.nodup).2⟩⟩
    rw [List.mem_cons, not_or]
    exact ⟨fun e => hph e.symm, hhl⟩
  · rw [update_of_ne hph, update_self, hc.next_head]

theorem ringFrom_eq {fuel : Nat} (hf : Follows next (x :: l) h) (hh : h ∉ l)
    (hfuel : l.length < fuel) : ringFrom next h fuel x = x :: l := by
  induction l generalizing x fuel with
  | nil =>
    obtain ⟨n, rfl⟩ : ∃ n, fuel = n + 1 := ⟨fuel - 1, by simp at hfuel; omega⟩
    rw [ringFrom, hf.1]
    simp
  | cons y l ih =>
    obtain ⟨n, rfl⟩ : ∃ n, fuel = n + 1 := ⟨fuel - 1, by simp at hfuel; omega⟩
    have hyh : y ≠ h := fun e => hh (e ▸ List.mem_cons_self)
    rw [ringFrom, hf.1]
    show x :: (if y = h then [] else ringFrom next h n y) = _
    rw [if_neg hyh, ih hf.2 (fun hm => hh (List.mem_cons_of_mem y hm)) (by simp at hfuel; omega)]

theorem ring_eq {fuel : Nat} (hc : Circle next head l) (hfuel : l.length ≤ fuel) :
    ring next fuel head = l := by
  cases head with
  | none => exact hc.eq_nil.symm
  | some h =>
    obtain ⟨t, rfl⟩ := hc.exists_cons
    exact ringFrom_eq hc.follows (List.nodup_cons.mp hc.nodup).1 hfuel

end Circle

end

end Sinux.Lib

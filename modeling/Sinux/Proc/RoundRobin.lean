import Sinux.Proc.Scheduler

/-!
# The order in which `next_ready` picks

A run of calls of `next_ready`, with any changes of the process states between them: call `t` finds
the processes ready that `ready t` says. The head of the queue moves behind the process it found, so
this one comes last in the next search, and whoever is ahead of it stays ahead until found.

* `roundRobin_fair`: between two calls that return the same process, every process that is ready at
  each call after the first, the second included, is returned.
* `roundRobin_passes_over`: readiness at the calls in between alone is not enough.
-/

namespace Sinux.Proc

open Sinux.Lib

variable {q : RunQueue} {ready : Nat → Fin maxProcs → Bool} {p r : Fin maxProcs} {a b : Fin 256}

/-- The queue before call `t`. -/
def queueAt (q : RunQueue) (ready : Nat → Fin maxProcs → Bool) : Nat → RunQueue
  | 0 => q
  | t + 1 => (nextReady (queueAt q ready t) (ready t)).2

/-- What call `t` returns. -/
def picked (q : RunQueue) (ready : Nat → Fin maxProcs → Bool) (t : Nat) : Option (Fin maxProcs) :=
  (nextReady (queueAt q ready t) (ready t)).1

/-- Every process is in at most one slot. -/
def RunQueue.OneSlot (q : RunQueue) : Prop :=
  ∀ i j p, q.queue i = some p → q.queue j = some p → i = j

theorem queueAt_queue (t : Nat) : (queueAt q ready t).queue = q.queue := by
  induction t with
  | zero => rfl
  | succ t ih =>
    unfold queueAt
    rcases nextReady_cases (queueAt q ready t) (ready t) with ⟨he, -⟩ | ⟨idx, p, he, -⟩ <;>
      rw [he] <;> exact ih

theorem hasReady_queueAt {t : Nat} (hb : q.queue b = some r) (hr : ready t r = true) :
    (queueAt q ready t).HasReady (ready t) b := by
  refine ⟨r, ?_, hr⟩
  rw [queueAt_queue]
  exact hb

theorem exists_slot_of_picked {t : Nat} (hp : picked q ready t = some p) :
    ∃ a, q.queue a = some p ∧ ready t p = true := by
  rcases nextReady_cases (queueAt q ready t) (ready t) with ⟨he, -⟩ | ⟨c, s, he, hc, hs, -⟩
  · rw [picked, he] at hp
    exact nomatch hp
  · rw [picked, he, Option.some_inj] at hp
    subst hp
    rw [queueAt_queue] at hc
    exact ⟨c, hc, hs⟩

/-- Slot `b` comes before slot `a` in the search of call `t`. -/
def Before (q : RunQueue) (ready : Nat → Fin maxProcs → Bool) (t : Nat) (b a : Fin 256) : Prop :=
  Cyclic.dist (queueAt q ready t).qHead b < Cyclic.dist (queueAt q ready t).qHead a

theorem picked_cases {t : Nat} (hb : q.queue b = some r) (hr : ready t r = true) :
    ∃ c s, q.queue c = some s ∧ picked q ready t = some s ∧
      (queueAt q ready (t + 1)).qHead = c + 1 ∧
      Cyclic.dist (queueAt q ready t).qHead c ≤ Cyclic.dist (queueAt q ready t).qHead b := by
  rcases nextReady_cases (queueAt q ready t) (ready t) with ⟨-, hnone⟩ | ⟨c, s, he, hc, -, hmin⟩
  · exact absurd (hasReady_queueAt hb hr) (hnone b)
  · rw [queueAt_queue] at hc
    refine ⟨c, s, hc, ?_, ?_, hmin b (hasReady_queueAt hb hr)⟩
    · rw [picked, he]
    · rw [queueAt, he]

theorem before_succ {t : Nat} (hb : q.queue b = some r) (hr : ready t r = true)
    (hba : Before q ready t b a) (hpick : picked q ready t ≠ some r) :
    Before q ready (t + 1) b a := by
  obtain ⟨c, s, hc, hp, hhead, hle⟩ := picked_cases hb hr
  have hcb : c ≠ b := by
    rintro rfl
    rw [hc] at hb
    exact hpick (hp.trans hb)
  have hlt : Cyclic.dist (queueAt q ready t).qHead c < Cyclic.dist (queueAt q ready t).qHead b :=
    lt_of_le_of_ne hle fun h => hcb (Cyclic.dist_inj h)
  have hb' := Cyclic.dist_after hlt
  have ha' := Cyclic.dist_after (hlt.trans hba)
  unfold Before at hba ⊢
  rw [hhead]
  omega

theorem before_of_picked (hq : q.OneSlot) {t : Nat} (ha : q.queue a = some p)
    (hp : picked q ready t = some p) (hba : b ≠ a) : Before q ready (t + 1) b a := by
  rcases nextReady_cases (queueAt q ready t) (ready t) with ⟨he, -⟩ | ⟨c, s, he, hc, -, -⟩
  · rw [picked, he] at hp
    exact nomatch hp
  · rw [picked, he, Option.some_inj] at hp
    subst hp
    rw [queueAt_queue] at hc
    obtain rfl := hq a c s ha hc
    unfold Before
    rw [queueAt, he]
    exact Cyclic.dist_succ_lt hba

/-- **Nobody starves.** In every run of calls of `next_ready` on a queue in which every process has
one slot: if two calls return `p`, then any other queued process that is ready at each call after
the first up to the second is returned in between. A call returns `NULL` only when no queued process
is ready. -/
theorem roundRobin_fair (hq : q.OneSlot) :
    (∀ t₁ t₂, t₁ < t₂ → ∀ p, picked q ready t₁ = some p → picked q ready t₂ = some p →
      ∀ r b, r ≠ p → q.queue b = some r → (∀ t, t₁ < t → t ≤ t₂ → ready t r = true) →
      ∃ t, t₁ < t ∧ t < t₂ ∧ picked q ready t = some r) ∧
    ∀ t, picked q ready t = none ↔ ∀ b r, q.queue b = some r → ready t r = false := by
  constructor
  · intro t₁ t₂ hlt p hp₁ hp₂ r b hrp hb hready
    by_contra hcon
    obtain ⟨a, ha, -⟩ := exists_slot_of_picked hp₁
    have hba : b ≠ a := by
      rintro rfl
      exact hrp (Option.some.inj (hb.symm.trans ha))
    -- until the second call, `r` is ahead of `p`
    have hbefore : ∀ t, t₁ < t → t ≤ t₂ → Before q ready t b a := by
      intro t
      induction t with
      | zero => exact fun h => absurd h (Nat.not_lt_zero _)
      | succ t ih =>
        intro h1 h2
        rcases Nat.lt_succ_iff_lt_or_eq.mp h1 with h1 | rfl
        · exact before_succ hb (hready t h1 (Nat.le_of_succ_le h2)) (ih h1 (Nat.le_of_succ_le h2))
            fun hp => hcon ⟨t, h1, h2, hp⟩
        · exact before_of_picked hq ha hp₁ hba
    obtain ⟨c, s, hc, hp, -, hle⟩ := picked_cases hb (hready t₂ hlt le_rfl)
    obtain rfl := Option.some.inj (hp.symm.trans hp₂)
    obtain rfl := hq a c s ha hc
    exact Nat.not_lt.mpr hle (hbefore t₂ hlt le_rfl)
  · intro t
    constructor
    · intro hnone b r hb
      by_contra hr
      obtain ⟨c, s, -, hp, -⟩ := picked_cases hb (Bool.not_eq_false _ |>.mp hr)
      exact nomatch hnone.symm.trans hp
    · intro hno
      cases hp : picked q ready t with
      | none => rfl
      | some s =>
        obtain ⟨b, hb, hs⟩ := exists_slot_of_picked hp
        exact absurd (hs.symm.trans (hno b s hb)) (by decide)

/-- Two processes, both ready at each call. -/
def twoQueued : RunQueue :=
  ⟨fun idx => if idx = 0 then some 1 else if idx = 1 then some 2 else none, 0, 2, 2⟩

theorem twoQueued_oneSlot : twoQueued.OneSlot := by
  have hslot : ∀ {i p}, twoQueued.queue i = some p → (i = 0 ∧ p = 1) ∨ (i = 1 ∧ p = 2) := by
    intro i p hi
    simp only [twoQueued] at hi
    split_ifs at hi with h0 h1
    · exact Or.inl ⟨h0, (Option.some.inj hi).symm⟩
    · exact Or.inr ⟨h1, (Option.some.inj hi).symm⟩
  intro i j p hi hj
  rcases hslot hi with ⟨hi, hp⟩ | ⟨hi, hp⟩ <;> rcases hslot hj with ⟨hj, hp'⟩ | ⟨hj, hp'⟩
  · exact hi.trans hj.symm
  · exact absurd (hp.symm.trans hp') (by decide)
  · exact absurd (hp.symm.trans hp') (by decide)
  · exact hi.trans hj.symm

/-- Process 1 is returned by the calls 0 and 2, and process 2 in between. -/
theorem roundRobin_fair_two :
    ∃ t, 0 < t ∧ t < 2 ∧ picked twoQueued (fun _ _ => true) t = some 2 :=
  (@roundRobin_fair twoQueued (fun _ _ => true) twoQueued_oneSlot).1 0 2 (by decide) 1 (by decide)
    (by decide) 2 1 (by decide) rfl fun _ _ _ => rfl

/-- Processes 1, 3 and 2 in this order. -/
def threeQueued : RunQueue :=
  ⟨fun idx => if idx = 0 then some 1 else if idx = 1 then some 3 else if idx = 2 then some 2 else none,
    0, 3, 3⟩

/-- All are ready at the first two calls, only process 1 at the third. -/
def readyTwice (t : Nat) (p : Fin maxProcs) : Bool := t < 2 || p = 1

/-- **A process that stops being ready is passed over.** The calls 0 and 2 return process 1 and the
call in between process 3. Process 2 was ready at that call and is not returned. -/
theorem roundRobin_passes_over : threeQueued.OneSlot ∧ threeQueued.queue 2 = some 2 ∧
    picked threeQueued readyTwice 0 = some 1 ∧ picked threeQueued readyTwice 2 = some 1 ∧
    (∀ t, 0 < t → t < 2 → picked threeQueued readyTwice t ≠ some 1 ∧ readyTwice t 2 = true) ∧
    ¬ ∃ t, 0 < t ∧ t < 2 ∧ picked threeQueued readyTwice t = some 2 := by
  have hone : ∀ {t : Nat}, 0 < t → t < 2 → t = 1 := by omega
  refine ⟨fun i j p hi hj => ?_, rfl, by decide, by decide, fun t h0 h2 => ?_, ?_⟩
  · simp only [threeQueued] at hi hj
    grind
  · rw [hone h0 h2]
    decide
  · rintro ⟨t, h0, h2, hp⟩
    rw [hone h0 h2] at hp
    exact absurd hp (by decide)

end Sinux.Proc

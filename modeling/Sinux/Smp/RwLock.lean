import Mathlib.Data.Fintype.BigOperators
import Mathlib.Logic.Relation

/-!
# The reader-writer lock

Model of `rwlock_t` and its four functions in `lock.c`. A processor is at a point of their code, and
each load, store, `lock xadd` and test-and-set is a step of its own (`advance`); processors take
steps in any order. The counters have 32 bits.

* `RwInv`: `readers` counts the processors between an increment and its decrement, and `writers` is
  1 exactly while one processor is past its test-and-set. Past its wait for the readers, that
  processor shares the lock with nobody: a reader that comes later looks at `writers` again after
  its increment.
* `rwlock_exclusion`: exclusion, and the meaning of `readers`, with fewer than 2^32 processors.
* `rwlock_no_overtaking`: no reader comes in while a writer waits.
* `rwlock_counter_wraps`: with more of them the counter can come round to 0.

**Out of scope**: interrupts on one processor, and memory orders weaker than one step at a time.
-/

namespace Sinux.Smp

open Function

/-! ## The code -/

/-- The fields of `rwlock_t` that the code uses. -/
structure RwLock where
  readers : BitVec 32
  writers : BitVec 32
  writerCpu : BitVec 32
  deriving DecidableEq

/-- `rwlock_init`. -/
def RwLock.init : RwLock := ⟨0, 0, -1⟩

/-- Where a processor is. -/
inductive RwPoint where
  /-- It neither holds the lock nor is in its code. -/
  | out
  /-- `rwlock_read_acquire`, at `while (lock->writers > 0)`. -/
  | readWait
  /-- Before `atomic_inc`. -/
  | readInc
  /-- Before the second look at `writers`. -/
  | readCheck
  /-- Before the `atomic_dec` that takes the increment back. -/
  | readBack
  /-- It holds the lock for reading. -/
  | reading
  /-- `rwlock_write_acquire`, at the test-and-set. -/
  | writeSet
  /-- At `while (lock->readers > 0)`. -/
  | writeWait
  /-- Before the store to `writer_cpu`. -/
  | writeCpu
  /-- It holds the lock for writing. -/
  | writing
  /-- `rwlock_write_release`, before `lock->writers = 0`. -/
  | writeDone
  deriving DecidableEq

/-- What a processor outside calls next. -/
inductive RwCall where
  | readAcquire
  | writeAcquire

/-- One step of the processor with number `cpu`. -/
def advance (cpu : BitVec 32) (call : RwCall) (l : RwLock) : RwPoint → RwPoint × RwLock
  | .out => (match call with | .readAcquire => .readWait | .writeAcquire => .writeSet, l)
  | .readWait => (if 0 < l.writers then .readWait else .readInc, l)
  | .readInc => (.readCheck, { l with readers := l.readers + 1 })
  | .readCheck => (if 0 < l.writers then .readBack else .reading, l)
  | .readBack => (.readWait, { l with readers := l.readers - 1 })
  | .reading => (.out, { l with readers := l.readers - 1 })
  | .writeSet => (if l.writers ≠ 0 then .writeSet else .writeWait, { l with writers := 1 })
  | .writeWait => (if 0 < l.readers then .writeWait else .writeCpu, l)
  | .writeCpu => (.writing, { l with writerCpu := cpu })
  | .writing => (.writeDone, { l with writerCpu := -1 })
  | .writeDone => (.out, { l with writers := 0 })

/-- The lock and the points of all processors. -/
structure RwSys (ι : Type*) where
  lock : RwLock
  point : ι → RwPoint

section Runs

variable {ι : Type*} [DecidableEq ι] (cpuId : ι → BitVec 32)

/-- Processor `c` takes a step. -/
def RwSys.step (s : RwSys ι) (c : ι) (call : RwCall) : RwSys ι :=
  ⟨(advance (cpuId c) call s.lock (s.point c)).2,
    update s.point c (advance (cpuId c) call s.lock (s.point c)).1⟩

/-- Some processor takes a step. -/
def RwStep (s t : RwSys ι) : Prop := ∃ c call, t = s.step cpuId c call

/-- The states of the runs from `rwlock_init`. -/
def RwReach (s : RwSys ι) : Prop :=
  Relation.ReflTransGen (RwStep cpuId) ⟨.init, fun _ => .out⟩ s

end Runs

/-! ## Counting -/

/-- Between an increment of `readers` and its decrement. -/
def RwPoint.Counted (p : RwPoint) : Prop := p = .readCheck ∨ p = .readBack ∨ p = .reading

/-- Between the test-and-set that found 0 and the store that ends it. -/
def RwPoint.Claims (p : RwPoint) : Prop :=
  p = .writeWait ∨ p = .writeCpu ∨ p = .writing ∨ p = .writeDone

/-- Past the wait for the readers. -/
def RwPoint.Inside (p : RwPoint) : Prop := p = .writeCpu ∨ p = .writing ∨ p = .writeDone

instance (p : RwPoint) : Decidable p.Counted := inferInstanceAs (Decidable (_ ∨ _))

instance (p : RwPoint) : Decidable p.Claims := inferInstanceAs (Decidable (_ ∨ _))

instance (p : RwPoint) : Decidable p.Inside := inferInstanceAs (Decidable (_ ∨ _))

theorem RwPoint.Inside.claims {p : RwPoint} (h : p.Inside) : p.Claims := .inr h

section Count

variable {ι : Type*} [Fintype ι]

/-- How many processors are at a point with `P`. -/
def atPoints (P : RwPoint → Prop) [DecidablePred P] (point : ι → RwPoint) : Nat :=
  (Finset.univ.filter fun c => P (point c)).card

variable (P Q : RwPoint → Prop) [DecidablePred P] [DecidablePred Q]

theorem atPoints_update [DecidableEq ι] (point : ι → RwPoint) (c : ι) (p : RwPoint) :
    atPoints P (update point c p) + (if P (point c) then 1 else 0) =
      atPoints P point + if P p then 1 else 0 := by
  unfold atPoints
  rw [Finset.card_filter, Finset.card_filter, ← Finset.add_sum_erase _ _ (Finset.mem_univ c),
    ← Finset.add_sum_erase _ (fun i => if P (point i) then 1 else 0) (Finset.mem_univ c),
    update_self]
  have hrest : ∀ i ∈ Finset.univ.erase c, (if P (update point c p i) then 1 else 0) =
      if P (point i) then 1 else 0 := fun i hi => by
    rw [update_of_ne (Finset.ne_of_mem_erase hi)]
  rw [Finset.sum_congr rfl hrest]
  omega

theorem atPoints_le (point : ι → RwPoint) : atPoints P point ≤ Fintype.card ι :=
  Finset.card_le_univ _

variable {P} in
theorem atPoints_pos {point : ι → RwPoint} {c : ι} (h : P (point c)) : 0 < atPoints P point :=
  Finset.card_pos.mpr ⟨c, Finset.mem_filter.mpr ⟨Finset.mem_univ c, h⟩⟩

theorem atPoints_or [DecidableEq ι] (hPQ : ∀ p, ¬ (P p ∧ Q p)) (point : ι → RwPoint) :
    atPoints (fun p => P p ∨ Q p) point = atPoints P point + atPoints Q point := by
  unfold atPoints
  rw [Finset.filter_or, Finset.card_union_of_disjoint]
  exact Finset.disjoint_filter.mpr fun c _ hp hq => hPQ _ ⟨hp, hq⟩

end Count

/-! ## The invariant -/

/-- What a step from point `p` to `p'` does to the lock. -/
structure Advances (p p' : RwPoint) (l l' : RwLock) : Prop where
  readers : l'.readers + (if p.Counted then 1 else 0) = l.readers + if p'.Counted then 1 else 0
  /-- A claim is kept, or taken with `writers` at 0. -/
  claims : p'.Claims → (p.Claims ∧ l'.writers = l.writers) ∨ (l.writers = 0 ∧ l'.writers = 1)
  /-- `writers` is set, or goes back to 0 when a claim ends. -/
  writers : l'.writers = l.writers ∨ l'.writers = 1 ∨
    (p.Claims ∧ ¬ p'.Claims ∧ l'.writers = 0)
  inside : p'.Inside → p.Inside ∨ (p.Claims ∧ l.readers = 0)
  reading : p' = .reading → l.writers = 0

theorem eq_zero_of_not_pos {x : BitVec 32} (h : ¬ 0 < x) : x = 0 := by
  bv_omega

section Advances

variable {p p' : RwPoint} {l l' : RwLock}
  (hreaders : l'.readers + (if p.Counted then 1 else 0) = l.readers + if p'.Counted then 1 else 0)
include hreaders

theorem Advances.unclaimed (hclaims : ¬ p'.Claims) (hreading : p' = .reading → l.writers = 0)
    (hwriters : l'.writers = l.writers ∨ l'.writers = 1 ∨ (p.Claims ∧ l'.writers = 0)) :
    Advances p p' l l' where
  readers := hreaders
  claims h := absurd h hclaims
  writers := hwriters.imp_right (.imp_right fun h => ⟨h.1, hclaims, h.2⟩)
  inside h := absurd h.claims hclaims
  reading := hreading

theorem Advances.keeps (hclaims : p.Claims) (hwriters : l'.writers = l.writers)
    (hinside : p.Inside ∨ l.readers = 0 ∨ ¬ p'.Inside) (hreading : p' ≠ .reading) :
    Advances p p' l l' where
  readers := hreaders
  claims _ := .inl ⟨hclaims, hwriters⟩
  writers := .inl hwriters
  inside h := hinside.imp_right fun hor => ⟨hclaims, hor.resolve_right (not_not.mpr h)⟩
  reading h := absurd h hreading

end Advances

theorem advance_advances (cpu : BitVec 32) (call : RwCall) (l : RwLock) (p : RwPoint) :
    Advances p (advance cpu call l p).1 l (advance cpu call l p).2 := by
  cases p <;> simp only [advance]
  case out => cases call <;> exact .unclaimed rfl (by decide) nofun (.inl rfl)
  case readWait => split <;> exact .unclaimed rfl (by decide) nofun (.inl rfl)
  case readInc => exact .unclaimed (BitVec.add_zero _) (by decide) nofun (.inl rfl)
  case readCheck =>
    split
    · exact .unclaimed rfl (by decide) nofun (.inl rfl)
    · next h => exact .unclaimed rfl (by decide) (fun _ => eq_zero_of_not_pos h) (.inl rfl)
  case readBack =>
    have hback : l.readers - 1 + 1 = l.readers + 0#32 := by
      rw [BitVec.sub_add_cancel, BitVec.add_zero]
    exact .unclaimed hback (by decide) nofun (.inl rfl)
  case reading =>
    have hback : l.readers - 1 + 1 = l.readers + 0#32 := by
      rw [BitVec.sub_add_cancel, BitVec.add_zero]
    exact .unclaimed hback (by decide) nofun (.inl rfl)
  case writeSet =>
    split
    · exact .unclaimed rfl (by decide) nofun (.inr (.inl rfl))
    · next h =>
      refine ⟨rfl, fun _ => .inr ⟨not_not.mp h, rfl⟩, .inr (.inl rfl), fun hin => ?_, nofun⟩
      exact absurd hin (by decide)
  case writeWait =>
    split
    · exact .keeps rfl (by decide) rfl (.inr (.inr (by decide))) nofun
    · next h => exact .keeps rfl (by decide) rfl (.inr (.inl (eq_zero_of_not_pos h))) nofun
  case writeCpu => exact .keeps rfl (by decide) rfl (.inl (by decide)) nofun
  case writing => exact .keeps rfl (by decide) rfl (.inl (by decide)) nofun
  case writeDone => exact .unclaimed rfl (by decide) nofun (.inr (.inr ⟨by decide, rfl⟩))

/-- What holds in every state of a run. -/
structure RwInv {ι : Type*} [Fintype ι] (s : RwSys ι) : Prop where
  readers : s.lock.readers = BitVec.ofNat 32 (atPoints RwPoint.Counted s.point)
  /-- `writers` is 1 while a processor has claimed the lock. -/
  writers : ∀ c, (s.point c).Claims → s.lock.writers = 1
  unique : ∀ c d, (s.point c).Claims → (s.point d).Claims → c = d
  /-- Past its wait a writer finds no reader, unless the counter has come round. -/
  apart : Fintype.card ι < 2 ^ 32 → ∀ c d, (s.point c).Inside → s.point d ≠ .reading

section Invariant

variable {ι : Type*} [Fintype ι] [DecidableEq ι] {s : RwSys ι}

omit [DecidableEq ι] in
theorem rwInv_init : RwInv (⟨.init, fun _ => .out⟩ : RwSys ι) := by
  have hcounted : ¬ RwPoint.out.Counted := by decide
  have hclaims : ¬ RwPoint.out.Claims := by decide
  refine ⟨?_, fun _ h => absurd h hclaims, fun _ _ h => absurd h hclaims,
    fun _ _ _ h => absurd h.claims hclaims⟩
  have hnone : atPoints RwPoint.Counted (fun _ : ι => RwPoint.out) = 0 :=
    Finset.card_eq_zero.mpr (Finset.filter_false_of_mem fun _ _ => hcounted)
  rw [hnone]
  rfl

omit [DecidableEq ι] in
theorem RwInv.no_reader (h : RwInv s) (hn : Fintype.card ι < 2 ^ 32) (h0 : s.lock.readers = 0)
    (d : ι) : ¬ (s.point d).Counted := fun hd => by
  have hle := atPoints_le RwPoint.Counted s.point
  have hpos := atPoints_pos hd
  have hmod := congrArg BitVec.toNat (h.readers.symm.trans h0)
  rw [BitVec.toNat_ofNat, Nat.mod_eq_of_lt (by omega)] at hmod
  exact absurd hmod (by simpa using hpos.ne')

theorem RwInv.advances (h : RwInv s) {c : ι} {p' : RwPoint} {l' : RwLock}
    (ha : Advances (s.point c) p' s.lock l') : RwInv ⟨l', update s.point c p'⟩ := by
  have hself : update s.point c p' c = p' := update_self ..
  have hother {d : ι} (hd : d ≠ c) : update s.point c p' d = s.point d :=
    update_of_ne hd _ _
  refine ⟨?_, fun d hd => ?_, ?_, fun hn d e hd he => ?_⟩ <;> dsimp only at *
  · have hcount := congrArg (BitVec.ofNat 32) (atPoints_update RwPoint.Counted s.point c p')
    have hr := ha.readers
    rw [BitVec.ofNat_add, BitVec.ofNat_add, ← h.readers] at hcount
    have hite (q : RwPoint) : BitVec.ofNat 32 (if q.Counted then 1 else 0) =
        if q.Counted then 1 else 0 := by
      split <;> rfl
    rw [hite, hite, ← hr] at hcount
    exact (BitVec.add_left_inj _).mp hcount.symm
  · by_cases hdc : d = c
    · rw [hdc, hself] at hd
      rcases ha.claims hd with ⟨hp, hw⟩ | ⟨-, hw⟩
      · exact hw.trans (h.writers c hp)
      · exact hw
    · rw [hother hdc] at hd
      rcases ha.writers with hw | hw | ⟨hp, -, -⟩
      · exact hw.trans (h.writers d hd)
      · exact hw
      · exact absurd (h.unique d c hd hp) hdc
  · have hnew {d : ι} (hd : d ≠ c) (hp' : p'.Claims) : ¬ (s.point d).Claims := fun hcl => by
      rcases ha.claims hp' with ⟨hp, -⟩ | ⟨h0, -⟩
      · exact hd (h.unique d c hcl hp)
      · exact absurd ((h.writers d hcl).symm.trans h0) (by decide)
    intro d e hd he
    by_cases hdc : d = c <;> by_cases hec : e = c
    · rw [hdc, hec]
    · rw [hdc, hself] at hd
      rw [hother hec] at he
      exact absurd he (hnew hec hd)
    · rw [hec, hself] at he
      rw [hother hdc] at hd
      exact absurd hd (hnew hdc he)
    · rw [hother hdc] at hd
      rw [hother hec] at he
      exact h.unique d e hd he
  · -- a reader comes in only when nobody has claimed, a writer only when nobody is counted
    by_cases hdc : d = c <;> by_cases hec : e = c
    · rw [hdc, hself] at hd
      rw [hec, hself] at he
      rw [he] at hd
      exact absurd hd (by decide)
    · rw [hdc, hself] at hd
      rw [hother hec] at he
      rcases ha.inside hd with hp | ⟨-, h0⟩
      · exact h.apart hn c e hp he
      · exact h.no_reader hn h0 e (.inr (.inr he))
    · rw [hec, hself] at he
      rw [hother hdc] at hd
      exact absurd ((h.writers d hd.claims).symm.trans (ha.reading he)) (by decide)
    · rw [hother hdc] at hd
      rw [hother hec] at he
      exact h.apart hn d e hd he

theorem RwInv.step (h : RwInv s) (cpuId : ι → BitVec 32) (c : ι) (call : RwCall) :
    RwInv (s.step cpuId c call) :=
  h.advances (advance_advances (cpuId c) call s.lock (s.point c))

theorem rwInv_of_reach {cpuId : ι → BitVec 32} (hr : RwReach cpuId s) : RwInv s := by
  induction hr with
  | refl => exact rwInv_init
  | tail _ hstep ih =>
    obtain ⟨c, call, rfl⟩ := hstep
    exact ih.step cpuId c call

end Invariant

/-! ## Exclusion -/

/-- Processor `c` has returned from `rwlock_write_acquire` and not yet released the lock. -/
def RwSys.Writes {ι : Type*} (s : RwSys ι) (c : ι) : Prop :=
  s.point c = .writing ∨ s.point c = .writeDone

/-- Processor `c` holds the lock for reading. -/
def RwSys.Reads {ι : Type*} (s : RwSys ι) (c : ι) : Prop := s.point c = .reading

/-- Processor `c` is between its increment and the decrement that takes it back. -/
def RwSys.Hesitates {ι : Type*} (s : RwSys ι) (c : ι) : Prop :=
  s.point c = .readCheck ∨ s.point c = .readBack

instance {ι : Type*} (s : RwSys ι) : DecidablePred s.Reads := fun _ =>
  inferInstanceAs (Decidable (_ = _))

instance {ι : Type*} (s : RwSys ι) : DecidablePred s.Hesitates := fun _ =>
  inferInstanceAs (Decidable (_ ∨ _))

/-- **Writers are alone.** In every state of a run with fewer than 2^32 processors, whoever holds the
lock for writing holds it alone, and `readers` is the number of readers and of those that are about
to take their increment back or to keep it. -/
theorem rwlock_exclusion {ι : Type*} [Fintype ι] [DecidableEq ι] (hn : Fintype.card ι < 2 ^ 32)
    {cpuId : ι → BitVec 32} {s : RwSys ι} (hr : RwReach cpuId s) :
    (∀ c, s.Writes c → ∀ d, d ≠ c → ¬ s.Writes d ∧ ¬ s.Reads d) ∧
    s.lock.readers.toNat =
      (Finset.univ.filter s.Reads).card + (Finset.univ.filter s.Hesitates).card := by
  have inv := rwInv_of_reach hr
  constructor
  · intro c hc d hdc
    exact ⟨fun hd => hdc (inv.unique d c (.inr (.inr hd)) (.inr (.inr hc))),
      inv.apart hn c d (.inr hc)⟩
  · have hle := atPoints_le RwPoint.Counted s.point
    rw [inv.readers, BitVec.toNat_ofNat, Nat.mod_eq_of_lt (by omega)]
    have hsplit := atPoints_or (fun p => p = .reading) (fun p => p = .readCheck ∨ p = .readBack)
      (fun p ⟨hp, hq⟩ => by rcases hq with hq | hq <;> rw [hp] at hq <;> cases hq) s.point
    have hcounted : atPoints RwPoint.Counted s.point =
        atPoints (fun p => p = .reading ∨ p = .readCheck ∨ p = .readBack) s.point :=
      congrArg Finset.card (Finset.filter_congr fun c _ => by
        unfold RwPoint.Counted
        tauto)
    exact hcounted.trans hsplit

/-! ## Whole calls -/

section Calls

variable {ι : Type*} [DecidableEq ι] (cpuId : ι → BitVec 32)

theorem step_at {c : ι} {p p' : RwPoint} {l l' : RwLock} (call : RwCall) (point : ι → RwPoint)
    (h : advance (cpuId c) call l p = (p', l')) :
    RwStep cpuId ⟨l, update point c p⟩ ⟨l', update point c p'⟩ := by
  refine ⟨c, call, ?_⟩
  simp only [RwSys.step, update_self, h, update_idem]

variable {l : RwLock}

theorem read_run (hw : l.writers = 0) (point : ι → RwPoint) (c : ι) :
    Relation.ReflTransGen (RwStep cpuId) ⟨l, update point c .out⟩
      ⟨{ l with readers := l.readers + 1 }, update point c .reading⟩ := by
  let l' : RwLock := { l with readers := l.readers + 1 }
  have hnone : ¬ 0 < l.writers := by
    rw [hw]
    decide
  have hcall : advance (cpuId c) .readAcquire l .out = (.readWait, l) := rfl
  have hlook : advance (cpuId c) .readAcquire l .readWait = (.readInc, l) := by
    simp only [advance, if_neg hnone]
  have hinc : advance (cpuId c) .readAcquire l .readInc = (.readCheck, l') := rfl
  have hcheck : advance (cpuId c) .readAcquire l' .readCheck = (.reading, l') := by
    simp only [advance, l', if_neg hnone]
  exact (((Relation.ReflTransGen.single (step_at cpuId .readAcquire point hcall)).tail
    (step_at cpuId .readAcquire point hlook)).tail (step_at cpuId .readAcquire point hinc)).tail
    (step_at cpuId .readAcquire point hcheck)

theorem write_run (hw : l.writers = 0) (hr : l.readers = 0) (point : ι → RwPoint) (c : ι) :
    Relation.ReflTransGen (RwStep cpuId) ⟨l, update point c .out⟩
      ⟨{ l with writers := 1, writerCpu := cpuId c }, update point c .writing⟩ := by
  let l' : RwLock := { l with writers := 1 }
  have hnone : ¬ 0 < l'.readers := by
    show ¬ 0 < l.readers
    rw [hr]
    decide
  have hcall : advance (cpuId c) .writeAcquire l .out = (.writeSet, l) := rfl
  have hset : advance (cpuId c) .writeAcquire l .writeSet = (.writeWait, l') := by
    simp only [advance, if_neg (not_not.mpr hw), l']
  have hwait : advance (cpuId c) .writeAcquire l' .writeWait = (.writeCpu, l') := by
    simp only [advance, if_neg hnone]
  have hcpu : advance (cpuId c) .writeAcquire l' .writeCpu =
      (.writing, { l with writers := 1, writerCpu := cpuId c }) := rfl
  exact (((Relation.ReflTransGen.single (step_at cpuId .writeAcquire point hcall)).tail
    (step_at cpuId .writeAcquire point hset)).tail (step_at cpuId .writeAcquire point hwait)).tail
    (step_at cpuId .writeAcquire point hcpu)

end Calls

/-- A writer alone among three processors. -/
theorem rwlock_exclusion_three : ∃ s : RwSys (Fin 3), s.Writes 1 ∧
    (∀ d, d ≠ 1 → ¬ s.Writes d ∧ ¬ s.Reads d) ∧ s.lock.readers.toNat =
      (Finset.univ.filter s.Reads).card + (Finset.univ.filter s.Hesitates).card := by
  have hr := write_run (fun c : Fin 3 => BitVec.ofNat 32 c.val) (l := .init) rfl rfl
    (fun _ => .out) 1
  rw [update_eq_self] at hr
  have h := rwlock_exclusion (by decide) hr
  exact ⟨_, .inl rfl, h.1 1 (.inl rfl), h.2⟩

/-- After `k` processors have come in for reading. -/
def manyReaders (n k : Nat) : RwSys (Fin n) :=
  ⟨⟨BitVec.ofNat 32 k, 0, -1⟩, fun c => if c.val < k then .reading else .out⟩

theorem manyReaders_point {n k : Nat} (c : Fin n) (hc : ¬ c.val < k) :
    update (manyReaders n k).point c .out = (manyReaders n k).point :=
  update_eq_self_iff.mpr (if_neg hc).symm

theorem reach_manyReaders {n : Nat} (cpuId : Fin n → BitVec 32) (k : Nat) (hk : k ≤ n) :
    RwReach cpuId (manyReaders n k) := by
  induction k with
  | zero => exact .refl
  | succ k ih =>
    let c : Fin n := ⟨k, hk⟩
    have hrun := read_run cpuId (l := (manyReaders n k).lock) rfl (manyReaders n k).point c
    have hnext : update (manyReaders n k).point c .reading =
        (manyReaders n (k + 1)).point := by
      funext d
      by_cases hd : d = c
      · rw [hd, update_self]
        exact (if_pos (Nat.lt_succ_self k)).symm
      · have hne : d.val ≠ k := fun e => hd (Fin.ext e)
        rw [update_of_ne hd]
        have hlt : d.val < k ↔ d.val < k + 1 := by omega
        exact if_congr hlt rfl rfl
    have hlock : (⟨BitVec.ofNat 32 k + 1, 0, -1⟩ : RwLock) = (manyReaders n (k + 1)).lock := by
      unfold manyReaders
      rw [BitVec.ofNat_add]
      rfl
    have hsys : (⟨⟨BitVec.ofNat 32 k + 1, 0, -1⟩, (manyReaders n (k + 1)).point⟩ : RwSys (Fin n)) =
        manyReaders n (k + 1) := by
      rw [hlock]
    rw [manyReaders_point c (Nat.lt_irrefl k), hnext] at hrun
    rw [← hsys]
    exact (ih (Nat.le_of_succ_le hk)).trans hrun

theorem writer_joins {n : Nat} (hn : 0 < n) (h0 : BitVec.ofNat 32 n = 0)
    (cpuId : Fin (n + 1) → BitVec 32) :
    ∃ s, RwReach cpuId s ∧ s.Writes (Fin.last n) ∧ s.Reads 0 := by
  have hrun := write_run cpuId (l := (manyReaders (n + 1) n).lock) rfl h0
    (manyReaders (n + 1) n).point (Fin.last n)
  rw [manyReaders_point (Fin.last n) (Nat.lt_irrefl n)] at hrun
  refine ⟨_, (reach_manyReaders cpuId n (Nat.le_succ n)).trans hrun, .inl ?_, ?_⟩
  · exact update_self ..
  · have hne : (0 : Fin (n + 1)) ≠ Fin.last n := fun e => hn.ne (congrArg Fin.val e)
    exact (update_of_ne hne _ _).trans (if_pos hn)

/-- **The counter comes round.** With 2^32 readers `readers` is 0 again, and the next processor gets
the lock for writing. -/
theorem rwlock_counter_wraps : ∃ s : RwSys (Fin (2 ^ 32 + 1)),
    RwReach (fun c => BitVec.ofNat 32 c.val) s ∧ s.Writes (Fin.last (2 ^ 32)) ∧ s.Reads 0 :=
  writer_joins (by decide) (by decide) _

section Waiting

variable {ι : Type*} [Fintype ι] [DecidableEq ι] {cpuId : ι → BitVec 32} {s t : RwSys ι} {d : ι}

/-- **No reader overtakes a writer.** From the moment a processor has set `writers` until it releases
the lock nobody comes in for reading, whatever is called; and once those who were in have left, its next
step ends the wait. -/
theorem rwlock_no_overtaking (hr : RwReach cpuId s) (hd : (s.point d).Claims)
    (hrun : Relation.ReflTransGen (fun u v => RwStep cpuId u v ∧ (v.point d).Claims) s t) :
    (∀ c, t.Reads c → s.Reads c) ∧
    (t.point d = .writeWait → (∀ c, ¬ (t.point c).Counted) → ∀ call,
      (t.step cpuId d call).point d = .writeCpu) := by
  have hreach : RwReach cpuId t ∧ (t.point d).Claims ∧ ∀ c, t.Reads c → s.Reads c := by
    induction hrun with
    | refl => exact ⟨hr, hd, fun _ => id⟩
    | @tail u v _ hst ih =>
      obtain ⟨hu, hdu, hreads⟩ := ih
      obtain ⟨⟨e, call, rfl⟩, hdv⟩ := hst
      refine ⟨hu.tail ⟨e, call, rfl⟩, hdv, fun c hc => hreads c ?_⟩
      by_cases hce : c = e
      · subst hce
        have hin := (advance_advances (cpuId c) call u.lock (u.point c)).reading
          ((update_self ..).symm.trans hc)
        exact absurd (((rwInv_of_reach hu).writers d hdu).symm.trans hin) (by decide)
      · exact (update_of_ne hce ..).symm.trans hc
  refine ⟨hreach.2.2, fun hwait hnone call => (update_self ..).trans ?_⟩
  have hzero : t.lock.readers = 0 := by
    rw [(rwInv_of_reach hreach.1).readers]
    exact congrArg (BitVec.ofNat 32)
      (Finset.card_eq_zero.mpr (Finset.filter_false_of_mem fun c _ => hnone c))
  rw [hwait, advance, hzero]
  rfl

end Waiting

/-- Processor 1 reads when processor 0 sets `writers`. It leaves, tries again and has to wait. -/
theorem rwlock_no_overtaking_two : ∃ s t : RwSys (Fin 2), s.Reads 1 ∧ s.point 0 = .writeWait ∧
    t.point 1 = .readWait ∧ (∀ c, t.Reads c → s.Reads c) ∧
    (t.step (fun _ => 0) 0 .writeAcquire).point 0 = .writeCpu := by
  have hr : RwReach (fun _ : Fin 2 => 0) _ := ((((((Relation.ReflTransGen.single
    ⟨1, .readAcquire, rfl⟩).tail ⟨1, .readAcquire, rfl⟩).tail ⟨1, .readAcquire, rfl⟩).tail
    ⟨1, .readAcquire, rfl⟩).tail ⟨0, .writeAcquire, rfl⟩).tail ⟨0, .writeAcquire, rfl⟩)
  obtain ⟨hreads, hends⟩ := rwlock_no_overtaking (d := 0) hr (.inl rfl)
    (((Relation.ReflTransGen.single ⟨⟨1, .readAcquire, rfl⟩, .inl rfl⟩).tail
      ⟨⟨1, .readAcquire, rfl⟩, .inl rfl⟩).tail ⟨⟨1, .readAcquire, rfl⟩, .inl rfl⟩)
  refine ⟨_, _, ?_, ?_, ?_, hreads, hends rfl (by decide) _⟩ <;> rfl

end Sinux.Smp

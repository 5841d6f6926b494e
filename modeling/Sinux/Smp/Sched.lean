import Sinux.Lib.Circle
import Sinux.Proc.Process

/-!
# The O(1) scheduler (`kernel/scheduler/sched.c`)

A `process_t *` is a slot of the process table. The fields `next` of all processes are one function,
so that the queues are circular lists in the sense of `Lib.Circle`. Functions that follow the links
return `none` for an access through `NULL` and for a loop without end.

`1 << prio` is an `int` shifted by up to 139: the processor takes the count modulo 32.

**Out of scope**: the locks, `idle_time`, `cpu_id` and the switch of the stack and of the address space.
-/

namespace Sinux.Smp

open Function Sinux.Lib Sinux.Proc

/-- `MAX_PRIORITY`. -/
abbrev maxPriority : Nat := 140

/-- `MAX_CPUS`. -/
abbrev maxCpus : Nat := 8

/-- A `process_t *` that is not `NULL`. -/
abbrev Tid := Fin maxProcs

/-- The fields of `process_t` that the scheduler reads, `next` apart. -/
structure Task where
  state : ProcState
  timeslice : Int
  priority : Int

/-- `runqueue_t`. -/
structure Runqueue where
  activeQueue : Fin maxPriority → Option Tid
  expiredQueue : Fin maxPriority → Option Tid
  activePrioBitmap : BitVec 32
  expiredPrioBitmap : BitVec 32
  current : Option Tid
  idle : Option Tid
  schedCount : U64
  loadWeight : U64

structure Sched where
  tasks : Tid → Task
  next : Tid → Option Tid
  /-- `runqueues`. -/
  rqs : Fin maxCpus → Runqueue
  numCpus : Nat

namespace Sched

def setTask (p : Tid) (f : Task → Task) (s : Sched) : Sched :=
  { s with tasks := update s.tasks p (f (s.tasks p)) }

def setState (p : Tid) (st : ProcState) (s : Sched) : Sched := s.setTask p ({ · with state := st })

def setTimeslice (p : Tid) (n : Int) (s : Sched) : Sched := s.setTask p ({ · with timeslice := n })

def setNext (p : Tid) (n : Option Tid) (s : Sched) : Sched :=
  { s with next := update s.next p n }

def setRq (c : Fin maxCpus) (f : Runqueue → Runqueue) (s : Sched) : Sched :=
  { s with rqs := update s.rqs c (f (s.rqs c)) }

end Sched

/-! ## Queues and bitmaps -/

/-- `find_first_bit`; `none` is -1. -/
def findFirstBit (bitmap : BitVec 32) : Option (Fin 32) :=
  (List.finRange 32).find? fun i => bitmap.getLsbD i

/-- `prio` cut to the range 0..139. -/
def clampPriority (prio : Int) : Fin maxPriority :=
  if prio < 0 then 0 else Fin.ofNat maxPriority (min prio.toNat 139)

/-- `1 << prio`. -/
def levelBit (prio : Fin maxPriority) : BitVec 32 := BitVec.twoPow 32 (prio.val % 32)

/-- `rq->active_queue[prio] = p`. -/
def Runqueue.setActive (prio : Fin maxPriority) (p : Option Tid) (rq : Runqueue) : Runqueue :=
  { rq with activeQueue := update rq.activeQueue prio p }

/-- `enqueue_task`. -/
def enqueueTask (c : Fin maxCpus) (p : Tid) (s : Sched) : Sched :=
  let prio := clampPriority (s.tasks p).priority
  let s := s.setState p .ready
  let s := match (s.rqs c).activeQueue prio with
    | none => (s.setNext p (some p)).setRq c fun rq =>
        { rq.setActive prio (some p) with activePrioBitmap := rq.activePrioBitmap ||| levelBit prio }
    | some head => (s.setNext p (s.next head)).setNext head (some p)
  s.setRq c fun rq => { rq with loadWeight := rq.loadWeight + 1 }

/-- The first level by the bitmap of the active array, and the head of its queue. -/
def Runqueue.first (rq : Runqueue) : Option (Fin maxPriority × Tid) := do
  let i ← findFirstBit rq.activePrioBitmap
  let prio : Fin maxPriority := i.castLE (by decide)
  let p ← rq.activeQueue prio
  return (prio, p)

/-- The expired array becomes the active one. -/
def Runqueue.swap (rq : Runqueue) : Runqueue :=
  { rq with
    activeQueue := rq.expiredQueue
    expiredQueue := fun _ => none
    activePrioBitmap := rq.expiredPrioBitmap
    expiredPrioBitmap := 0 }

/-- `sched_pick_next`. -/
def schedPickNext (c : Fin maxCpus) (s : Sched) : Option Tid × Sched :=
  match (s.rqs c).first with
  | some (prio, p) =>
    (some p, if s.next p = some p then s else s.setRq c (·.setActive prio (s.next p)))
  | none =>
    if (s.rqs c).expiredPrioBitmap = 0 then ((s.rqs c).idle, s)
    else
      let s := s.setRq c Runqueue.swap
      match (s.rqs c).first with
      | some (prio, p) => (some p, s.setRq c (·.setActive prio (s.next p)))
      | none => ((s.rqs c).idle, s)

/-! ## Switching -/

/-- `sched_tick` takes a task from the queue: that task, and the state in which it decides. The
timeslice of `cur` has run out. -/
def tickPick (c : Fin maxCpus) (cur : Tid) (s : Sched) : Option Tid × Sched :=
  schedPickNext c (s.setTimeslice cur ((s.tasks cur).timeslice - 1))

/-- `cur` gives way to `next`. -/
def preempts (cur next : Tid) (s : Sched) : Prop :=
  next ≠ cur ∧ (s.tasks cur).priority < (s.tasks next).priority

instance (cur next : Tid) (s : Sched) : Decidable (preempts cur next s) :=
  inferInstanceAs (Decidable (_ ∧ _))

/-- The task `sched_tick` preempts the current one for, and the current one. -/
def tickChoice (c : Fin maxCpus) (s : Sched) : Option (Tid × Tid) := do
  let cur ← (s.rqs c).current
  if (s.rqs c).idle = some cur ∨ 0 < (s.tasks cur).timeslice - 1 then none
  else
    let next ← (tickPick c cur s).1
    if preempts cur next (tickPick c cur s).2 then some (cur, next) else none

/-- `sched_cpu_init`. -/
def Runqueue.init : Runqueue := ⟨fun _ => none, fun _ => none, 0, 0, none, none, 0, 0⟩

/-- Nothing is queued; `current` and `idle` have been set since. -/
def Runqueue.Empty (rq : Runqueue) : Prop :=
  rq = { Runqueue.init with current := rq.current, idle := rq.idle, schedCount := rq.schedCount }

/-! ## What `enqueue_task` does -/

/-- A node behind the head of a list. -/
def insertSecond (p : Tid) : List Tid → List Tid
  | [] => [p]
  | h :: l => h :: p :: l

theorem insertSecond_perm (p : Tid) (l : List Tid) : (insertSecond p l).Perm (p :: l) := by
  cases l with
  | nil => exact .refl _
  | cons h l => exact .swap ..

/-- **The effect of `enqueue_task`**: a task that is not in the queue of its level comes behind the
head of it. -/
structure Enqueued (c : Fin maxCpus) (p : Tid) (i : Fin maxPriority) (s s' : Sched) : Prop where
  tasks : s'.tasks = (s.setState p .ready).tasks
  numCpus : s'.numCpus = s.numCpus
  others : ∀ d, d ≠ c → s'.rqs d = s.rqs d
  heads : ∀ j, j ≠ i → (s'.rqs c).activeQueue j = (s.rqs c).activeQueue j
  expiredQueue : (s'.rqs c).expiredQueue = (s.rqs c).expiredQueue
  expiredPrioBitmap : (s'.rqs c).expiredPrioBitmap = (s.rqs c).expiredPrioBitmap
  current : (s'.rqs c).current = (s.rqs c).current
  idle : (s'.rqs c).idle = (s.rqs c).idle
  loadWeight : (s'.rqs c).loadWeight = (s.rqs c).loadWeight + 1
  bitmap : (s'.rqs c).activePrioBitmap =
    if (s.rqs c).activeQueue i = none then (s.rqs c).activePrioBitmap ||| levelBit i
    else (s.rqs c).activePrioBitmap
  next : ∀ q, q ≠ p → (s.rqs c).activeQueue i ≠ some q → s'.next q = s.next q
  circle : ∀ l, Circle s.next ((s.rqs c).activeQueue i) l → p ∉ l →
    Circle s'.next ((s'.rqs c).activeQueue i) (insertSecond p l)

theorem enqueueTask_spec (c : Fin maxCpus) (p : Tid) (s : Sched) :
    Enqueued c p (clampPriority (s.tasks p).priority) s (enqueueTask c p s) := by
  unfold enqueueTask
  generalize hi : clampPriority (s.tasks p).priority = i
  cases hq : (s.rqs c).activeQueue i with
  | none =>
    have hq' : ((s.setState p .ready).rqs c).activeQueue i = none := hq
    simp only [hq']
    constructor <;> simp only [Sched.setRq, Sched.setNext, Sched.setState, Sched.setTask,
      Runqueue.setActive, update_self, hq, if_true]
    · exact fun d hd => by rw [update_of_ne hd, update_of_ne hd]
    · exact fun j hj => update_of_ne hj _ _
    · exact fun q hqp _ => update_of_ne hqp _ _
    · intro l hl hp
      rw [hl.eq_nil]
      exact Circle.single (update_self ..)
  | some h =>
    have hq' : ((s.setState p .ready).rqs c).activeQueue i = some h := hq
    simp only [hq']
    constructor <;> simp only [Sched.setRq, Sched.setNext, Sched.setState, Sched.setTask,
      update_self, hq, reduceCtorEq, if_false]
    · exact fun d hd => update_of_ne hd _ _
    · exact fun _ _ => trivial
    · intro q hqp hqh
      have hne : q ≠ h := fun e => hqh (e ▸ rfl)
      rw [update_of_ne hne, update_of_ne hqp]
    · intro l hl hp
      obtain ⟨t, rfl⟩ := hl.exists_cons
      exact hl.insert hp

/-! ## What `sched_pick_next` does -/

theorem first_eq_some {rq : Runqueue} {i : Fin maxPriority} {p : Tid} :
    rq.first = some (i, p) ↔ ∃ b : Fin 32, findFirstBit rq.activePrioBitmap = some b ∧
      b.castLE (by decide) = i ∧ rq.activeQueue i = some p := by
  unfold Runqueue.first
  constructor
  · intro h
    obtain ⟨b, hb, h⟩ := Option.bind_eq_some_iff.mp h
    obtain ⟨q, hq, h⟩ := Option.bind_eq_some_iff.mp h
    cases h
    exact ⟨b, hb, rfl, hq⟩
  · rintro ⟨b, hb, rfl, hq⟩
    exact Option.bind_eq_some_iff.mpr ⟨b, hb, Option.bind_eq_some_iff.mpr ⟨p, hq, rfl⟩⟩

/-- A pick from the active array moves the head of the queue on, also if it has one task only. -/
theorem schedPickNext_first {c : Fin maxCpus} {s : Sched} {i : Fin maxPriority} {p : Tid}
    (h : (s.rqs c).first = some (i, p)) :
    schedPickNext c s = (some p, s.setRq c (·.setActive i (s.next p))) := by
  unfold schedPickNext
  simp only [h]
  split_ifs with hself
  · obtain ⟨_, _, _, hq⟩ := first_eq_some.mp h
    have hrq : (s.rqs c).setActive i (s.next p) = s.rqs c := by
      rw [Runqueue.setActive, hself, ← hq, update_eq_self]
    rw [Sched.setRq, hrq, update_eq_self]
  · rfl

end Sinux.Smp

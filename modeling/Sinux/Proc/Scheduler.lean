import Sinux.Proc.Process
import Sinux.Lib.Cyclic

/-!
# The scheduler (`kernel/proc/scheduler.c`) and what calls it

The machine is the kernel's state and the control state around it: which page tables are loaded,
where in the kernel each process gave up the processor, and whether the timer interrupt is in
service. `arch_switch` returns in the process it switches to, so after `schedYield` control is in
the current process at its own `Point`, and `resume` goes on from there.

`q_head` and `q_tail` are numbers below `SCHED_QUEUE_SIZE`, so `+ 1` on them wraps. `sched_remove`
has no caller.
-/

namespace Sinux.Proc

open Function Sinux.Lib Sinux.Mm

/-! ## The run queue -/

/-- `next_ready`: the process found and the queue with `q_head` behind it. -/
def nextReady (q : RunQueue) (ready : Fin maxProcs → Bool) : Option (Fin maxProcs) × RunQueue :=
  match Cyclic.firstFrom (fun idx => (q.queue idx).any ready) q.qHead with
  | some idx => (q.queue idx, { q with qHead := idx + 1 })
  | none => (none, q)

/-- A queued process for which `ready` holds. -/
def RunQueue.HasReady (q : RunQueue) (ready : Fin maxProcs → Bool) (idx : Fin 256) : Prop :=
  ∃ p, q.queue idx = some p ∧ ready p = true

theorem RunQueue.any_iff {q : RunQueue} {ready : Fin maxProcs → Bool} {idx : Fin 256} :
    (q.queue idx).any ready = true ↔ q.HasReady ready idx := by
  rw [RunQueue.HasReady, Option.any_eq_true]

/-- `next_ready` returns the first ready process from `q_head` on and moves `q_head` behind it, or
there is none and it returns `NULL`. -/
theorem nextReady_cases (q : RunQueue) (ready : Fin maxProcs → Bool) :
    (nextReady q ready = (none, q) ∧ ∀ idx, ¬ q.HasReady ready idx) ∨
    ∃ idx p, nextReady q ready = (some p, { q with qHead := idx + 1 }) ∧
      q.queue idx = some p ∧ ready p = true ∧
      ∀ b, q.HasReady ready b → Cyclic.dist q.qHead idx ≤ Cyclic.dist q.qHead b := by
  unfold nextReady
  cases h : Cyclic.firstFrom (fun idx => (q.queue idx).any ready) q.qHead with
  | none =>
    refine Or.inl ⟨rfl, fun idx hidx => ?_⟩
    have hnone := Cyclic.firstFrom_none.mp h idx
    rw [RunQueue.any_iff.mpr hidx] at hnone
    exact absurd hnone (by decide)
  | some idx =>
    obtain ⟨hP, hmin⟩ := Cyclic.firstFrom_some h
    obtain ⟨p, hp, hr⟩ := RunQueue.any_iff.mp hP
    refine Or.inr ⟨idx, p, ?_, hp, hr, fun b hb => hmin b (RunQueue.any_iff.mpr hb)⟩
    dsimp only
    rw [hp]

/-- The processes `next_ready` looks for. -/
def Kernel.isReady (k : Kernel) (p : Fin maxProcs) : Bool := (k.procTable p).state = .ready

/-! ## Signals (`kernel/ipc/signal.c`) -/

/-- `sig_pending`, `sig_blocked` and the handlers of `sig_actions` of a process. -/
structure SigState where
  pending : U64
  blocked : U64
  handler : Fin 32 → U64

/-- `kmemset` of the signal fields. -/
def SigState.zero : SigState := ⟨0, 0, fun _ => 0⟩

instance neZeroSignals : NeZero 32 := ⟨by decide⟩

/-- The signals that `signal_deliver` acts on when their handler is `SIG_DFL`: `SIGINT`, `SIGKILL`,
`SIGPIPE`, `SIGTERM` end the process, `SIGSTOP` stops it. -/
def sigDefault (sig : Fin 32) : Bool := sig ∈ [2, 9, 13, 15, 19]

/-- The loop of `signal_deliver` over the signals in `l`: the pending signals after it, and the
signal whose default action ends it. A handler is called by its address and left to the caller. -/
def signalLoop (blocked : U64) (handler : Fin 32 → U64) :
    (l : List (Fin 32)) → (pending : U64) → U64 × Option (Fin 32)
  | [], pending => (pending, none)
  | sig :: l, pending =>
    if pending &&& 1#64 <<< sig.val = 0 ∨ blocked &&& 1#64 <<< sig.val ≠ 0 then
      signalLoop blocked handler l pending
    else
      let pending := pending &&& ~~~(1#64 <<< sig.val)
      if handler sig = 0 ∧ sigDefault sig = true then (pending, some sig)
      else signalLoop blocked handler l pending

/-! ## The machine -/

/-- Where a process is in its own code. -/
inductive Point where
  /-- In user mode, or for the kernel's own process in its idle loop: interrupts are enabled. -/
  | run
  /-- Created and not yet run: the frame on its stack leads to `fork_child_stub`. -/
  | fresh
  /-- In `sched_yield` called by `sched_tick` in the timer interrupt. -/
  | tick
  /-- In `sched_yield` called by `sched_sleep`. -/
  | sleep
  /-- In `sched_yield` called by `sys_wait4` for `pid`. -/
  | wait4 (pid : BitVec 32)
  /-- In `sched_yield` called by `sys_exit`. -/
  | exit
  /-- In `sched_yield` called by `signal_deliver`. -/
  | signal
  /-- Nowhere: `proc_create` failed and left no frame. -/
  | broken
  deriving DecidableEq, Repr

/-- The machine. `reached p` and `woken p` remember that since the last `sched_sleep` of `p` its
time came at a tick, and that a signal woke it. -/
structure Machine where
  kernel : Kernel
  /-- `ticks` of each `process_t`. -/
  procTicks : Fin maxProcs → U64
  sig : Fin maxProcs → SigState
  /-- `ticks` of `pit.c`. -/
  pitTicks : U64
  cr3 : U64
  point : Fin maxProcs → Point
  /-- IRQ 0 is in service at the interrupt controller. -/
  irq0 : Bool
  reached : Fin maxProcs → Bool
  woken : Fin maxProcs → Bool

namespace Machine

/-- The kernel after a call. -/
def withKernel (m : Machine) (k : Kernel) : Machine := { m with kernel := k }

/-- Process `p` is at `pt`. -/
def setPoint (m : Machine) (p : Fin maxProcs) (pt : Point) : Machine :=
  { m with point := update m.point p pt }

end Machine

/-- An assignment to `state`. -/
def Kernel.setState (i : Fin maxProcs) (st : ProcState) (k : Kernel) : Kernel :=
  k.upd i fun p => { p with state := st }

/-- `do_switch` from `cur` to `next ≠ cur`, up to `arch_switch`. `TSS.rsp0` is not part of the
machine. -/
def doSwitch (cur next : Fin maxProcs) (m : Machine) : Machine :=
  let k := if (m.kernel.procTable cur).state = .running then m.kernel.setState cur .ready
    else m.kernel
  let k := k.upd next fun p => { p with state := .running, timeslice := 5 }
  let pml4 := (k.procTable next).pml4
  { m with
    kernel := { k with currentProc := some next }
    cr3 := if pml4 = 0 then m.cr3 else pml4 }

/-- `sched_yield` by `cur`. -/
def schedYield (cur : Fin maxProcs) (m : Machine) : Machine :=
  let (next, q) := nextReady m.kernel.runQueue m.kernel.isReady
  let m := m.withKernel { m.kernel with runQueue := q }
  let stay :=
    if (m.kernel.procTable cur).state = .running then
      m.withKernel (m.kernel.upd cur fun p => { p with timeslice := 5 })
    else m
  match next with
  | none => stay
  | some p => if p = cur then stay else doSwitch cur p m

/-- `p` is in the queue, asleep, and its time has come. -/
def Machine.Due (m : Machine) (p : Fin maxProcs) : Prop :=
  (∃ idx, m.kernel.runQueue.queue idx = some p) ∧ (m.kernel.procTable p).state = .sleeping ∧
    m.procTicks p ≤ m.pitTicks

instance (m : Machine) (p : Fin maxProcs) : Decidable (m.Due p) :=
  inferInstanceAs (Decidable (_ ∧ _ ∧ _))

/-- The loop of `sched_tick` over the queue: every process that is due is ready. -/
def wakeSleepers (m : Machine) : Machine :=
  let wake (p : Fin maxProcs) : Process :=
    if m.Due p then { m.kernel.procTable p with state := .ready } else m.kernel.procTable p
  { m with
    kernel := { m.kernel with procTable := wake }
    reached := fun p => m.reached p || decide (m.Due p) }

/-- `handle_pit` in process `cur` up to its call of `pic_eoi`, or up to `sched_yield`. -/
def handlePit (cur : Fin maxProcs) (m : Machine) : Machine :=
  let m := wakeSleepers { m with irq0 := true, pitTicks := m.pitTicks + 1 }
  let m := m.withKernel (m.kernel.upd cur fun p => { p with timeslice := p.timeslice - 1 })
  if (0#32).slt (m.kernel.procTable cur).timeslice then { m with irq0 := false }
  else schedYield cur (m.setPoint cur .tick)

/-- `sched_sleep`. -/
def schedSleep (ms : U64) (cur : Fin maxProcs) (m : Machine) : Machine :=
  let m := { m with
    kernel := m.kernel.setState cur .sleeping
    procTicks := update m.procTicks cur (m.pitTicks + ms * 1000 / 1000)
    reached := update m.reached cur false
    woken := update m.woken cur false }
  schedYield cur (m.setPoint cur .sleep)

/-- `sys_nanosleep` up to its `sched_sleep`. -/
def sysNanosleep (seconds nanoseconds : U64) (cur : Fin maxProcs) (m : Machine) : Machine :=
  schedSleep (seconds * 1000 + nanoseconds / 1000000) cur m

/-- `sched_wake`. -/
def schedWake (p : Fin maxProcs) (m : Machine) : Machine :=
  if (m.kernel.procTable p).state = .sleeping ∨ (m.kernel.procTable p).state = .waiting then
    { m with
      kernel := m.kernel.setState p .ready
      woken := update m.woken p true }
  else m

/-- `signal_send`, with the value it returns. -/
def signalSend (pid sig : BitVec 32) (m : Machine) : Int × Machine :=
  if sig.slt 1 ∨ ¬ sig.slt 32 then (-1, m) else
  match procFind pid m.kernel with
  | none => (-1, m)
  | some p =>
    let s := { m.sig p with pending := (m.sig p).pending ||| 1#64 <<< sig.toNat }
    let m := { m with sig := update m.sig p s }
    (0, schedWake p m)

/-- `sys_exit` by `cur`, up to its `sched_yield`. -/
def sysExit (code : BitVec 32) (cur : Fin maxProcs) (m : Machine) : Machine :=
  schedYield cur ((m.withKernel (procExit cur code m.kernel)).setPoint cur .exit)

/-- `signal_deliver` in `cur`, up to its `sched_yield` if it comes to that. -/
def signalDeliver (cur : Fin maxProcs) (m : Machine) : Machine :=
  let s := m.sig cur
  let (pending, act) := signalLoop s.blocked s.handler (List.finRange 32).tail s.pending
  let s := { s with pending := pending }
  let m := { m with sig := update m.sig cur s }
  match act with
  | none => m
  | some 19 =>
    schedYield cur ((m.withKernel (m.kernel.setState cur .sleeping)).setPoint cur .signal)
  | some sig =>
    schedYield cur ((m.withKernel
      (procExit cur (128 + BitVec.ofNat 32 sig.val) m.kernel)).setPoint cur .signal)

/-- A round of the loop of `sys_wait4` by `cur`, up to its `sched_yield` if it comes to that. -/
def sysWait4 (pid : BitVec 32) (cur : Fin maxProcs) (m : Machine) : Machine :=
  match wait4Round cur pid m.kernel with
  | (some _, k) => (m.withKernel k).setPoint cur .run
  | (none, k) => schedYield cur ((m.withKernel k).setPoint cur (.wait4 pid))

/-- The fields of a slot that `proc_create` has cleared, and the point of its process. -/
def Machine.claim (m : Machine) (slot : Option (Fin maxProcs)) (pt : Point) : Machine :=
  match slot with
  | none => m
  | some i => { m.setPoint i pt with
      procTicks := update m.procTicks i 0
      sig := update m.sig i SigState.zero }

/-- `sys_fork` by `cur`. -/
def Machine.fork (ctx : UserCtx) (cur : Fin maxProcs) (m : Machine) : Machine :=
  let k := m.kernel
  let (pml4, s) := vmmClonePml4 k.kernelPml4 (k.procTable cur).pml4 k.phys
  let slot := if pml4 = 0 then none else freeSlot k
  let pt := if (procCreate (k.withPhys s)).1.isSome then Point.fresh else .broken
  (m.withKernel (sysFork ctx cur k).2).claim slot pt

/-- `proc_spawn_init` in the kernel's own process. -/
def Machine.spawn (ld : Loader) (stub : U64) (m : Machine) : Option Machine :=
  (procSpawnInit ld stub m.kernel).map fun r =>
    let slot := if (ld.fetch m.kernel.phys).1.isSome then none else freeSlot m.kernel
    (m.withKernel r.2).claim slot (if r.1 = 0 then .fresh else .broken)

/-- What `cur` does when control comes back to it: `fork_child_stub`, the rest of the interrupt with
`pic_eoi(0)`, the way back to user mode, or the next round of `sys_wait4`. `sys_exit` halts. -/
def Machine.resume (cur : Fin maxProcs) (m : Machine) : Option Machine :=
  match m.point cur with
  | .fresh => some (m.setPoint cur .run)
  | .tick => some ({ m with irq0 := false }.setPoint cur .run)
  | .sleep => some (m.setPoint cur .run)
  | .signal => some (m.setPoint cur .run)
  | .wait4 pid => some (sysWait4 pid cur m)
  | .run | .exit | .broken => none

/-! ## Runs -/

/-- The kinds of steps. -/
inductive Event where
  | tick
  | fork (ctx : UserCtx)
  | exit (code : BitVec 32)
  | wait4 (pid : BitVec 32)
  | nanosleep (seconds nanoseconds : U64)
  | kill (pid sig : BitVec 32)
  | signal
  | spawn
  | resume
  | other

/-- One step of the machine. The timer interrupts code that runs with interrupts enabled. System
calls are made in user mode, so not by the kernel's own process, which creates the first one. `env`
is what else the kernel and the programs do. -/
inductive MStep (env : Machine → Machine → Prop) : Machine → Event → Machine → Prop
  | tick (m : Machine) (cur : Fin maxProcs) (hc : m.kernel.currentProc = some cur)
      (hp : m.point cur = .run ∨ m.point cur = .fresh) : MStep env m .tick (handlePit cur m)
  | fork (m : Machine) (cur : Fin maxProcs) (ctx : UserCtx) (hc : m.kernel.currentProc = some cur)
      (h0 : cur ≠ 0) (hp : m.point cur = .run) : MStep env m (.fork ctx) (m.fork ctx cur)
  | exit (m : Machine) (cur : Fin maxProcs) (code : BitVec 32)
      (hc : m.kernel.currentProc = some cur) (h0 : cur ≠ 0) (hp : m.point cur = .run) :
      MStep env m (.exit code) (sysExit code cur m)
  | wait4 (m : Machine) (cur : Fin maxProcs) (pid : BitVec 32)
      (hc : m.kernel.currentProc = some cur) (h0 : cur ≠ 0) (hp : m.point cur = .run) :
      MStep env m (.wait4 pid) (sysWait4 pid cur m)
  | nanosleep (m : Machine) (cur : Fin maxProcs) (seconds nanoseconds : U64)
      (hc : m.kernel.currentProc = some cur) (h0 : cur ≠ 0) (hp : m.point cur = .run) :
      MStep env m (.nanosleep seconds nanoseconds) (sysNanosleep seconds nanoseconds cur m)
  | kill (m : Machine) (cur : Fin maxProcs) (pid sig : BitVec 32)
      (hc : m.kernel.currentProc = some cur) (h0 : cur ≠ 0) (hp : m.point cur = .run) :
      MStep env m (.kill pid sig) (signalSend pid sig m).2
  | signal (m : Machine) (cur : Fin maxProcs) (hc : m.kernel.currentProc = some cur) (h0 : cur ≠ 0)
      (hp : m.point cur = .run) : MStep env m .signal (signalDeliver cur m)
  | spawn (m m' : Machine) (ld : Loader) (stub : U64) (hc : m.kernel.currentProc = some 0)
      (hp : m.point 0 = .run) (he : m.spawn ld stub = some m') : MStep env m .spawn m'
  | resume (m m' : Machine) (cur : Fin maxProcs) (hc : m.kernel.currentProc = some cur)
      (he : m.resume cur = some m') : MStep env m .resume m'
  | other (m m' : Machine) (he : env m m') : MStep env m .other m'

/-- The machine after `proc_init`, with nothing queued and no tick yet. -/
def Machine.boot (tty : Fin 64 → U64) (k : Kernel) : Machine where
  kernel := { procInit tty k with
    nextPid := 1
    runQueue := ⟨fun _ => none, 0, 0, 0⟩ }
  procTicks := fun _ => 0
  sig := fun _ => SigState.zero
  pitTicks := 0
  cr3 := k.kernelPml4
  point := fun i => if i = 0 then .run else .broken
  irq0 := false
  reached := fun _ => false
  woken := fun _ => false

/-- The interrupt controller lets no second timer interrupt through while one is in service. -/
def PicOk (m : Machine) (e : Event) : Prop := e = .tick → m.irq0 = false

/-- The states of the runs from boot whose steps all meet the condition `ok`. -/
def MReach (env : Machine → Machine → Prop) (ok : Machine → Event → Prop) (tty : Fin 64 → U64)
    (k : Kernel) : Machine → Prop :=
  Relation.ReflTransGen (fun m m' => ∃ e, ok m e ∧ MStep env m e m') (Machine.boot tty k)

end Sinux.Proc

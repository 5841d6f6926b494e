import Sinux.Proc.Scheduler

/-!
# What the steps of the machine do

One spec for each function a step is made of, in the terms the invariants need: the states, the
queue, who is current and where everybody is. `schedYield_spec` has two cases: nobody else is ready
and `cur` goes on, or the processor goes to a ready process. `Creation` says what `sys_fork` and
`proc_spawn_init` do to the process table, on their error paths too.
-/

namespace Sinux.Proc

open Sinux.Lib Sinux.Mm

namespace Machine

/-- `state` of a process. -/
def state (m : Machine) (i : Fin maxProcs) : ProcState := (m.kernel.procTable i).state

/-- `pid` of a process. -/
def pid (m : Machine) (i : Fin maxProcs) : BitVec 32 := (m.kernel.procTable i).pid

/-- `p` is in the run queue. -/
def Queued (m : Machine) (p : Fin maxProcs) : Prop := ∃ idx, m.kernel.runQueue.queue idx = some p

end Machine

/-! ## `sched_yield` -/

/-- `p'` is `p` but for `state` and `timeslice`. -/
def Process.SameCore (p p' : Process) : Prop :=
  p' = { p with state := p'.state, timeslice := p'.timeslice }

/-- What the scheduler leaves alone in the kernel. -/
structure KernelFrame (k k' : Kernel) : Prop where
  core : ∀ i, (k.procTable i).SameCore (k'.procTable i)
  queue : k'.runQueue.queue = k.runQueue.queue
  qTail : k'.runQueue.qTail = k.runQueue.qTail
  qCount : k'.runQueue.qCount = k.runQueue.qCount
  phys : k'.phys = k.phys
  kernelPml4 : k'.kernelPml4 = k.kernelPml4
  nextPid : k'.nextPid = k.nextPid

/-- What `sched_yield` leaves alone. -/
structure YieldFrame (m m' : Machine) : Prop extends KernelFrame m.kernel m'.kernel where
  procTicks : m'.procTicks = m.procTicks
  pitTicks : m'.pitTicks = m.pitTicks
  point : m'.point = m.point
  irq0 : m'.irq0 = m.irq0
  reached : m'.reached = m.reached
  woken : m'.woken = m.woken

/-- Who has the processor after `sched_yield` by `cur`. -/
inductive YieldCase (cur : Fin maxProcs) (m m' : Machine) : Prop
  | stay (hno : (∀ p, m.Queued p → m.state p ≠ .ready) ∨ m.state cur = .ready)
      (hst : ∀ i, m'.state i = m.state i)
      (hcur : m'.kernel.currentProc = m.kernel.currentProc) (hcr3 : m'.cr3 = m.cr3)
  | switch (next : Fin maxProcs) (hne : next ≠ cur) (hq : m.Queued next)
      (hr : m.state next = .ready)
      (hst : ∀ i, m'.state i = if i = next then .running
        else if i = cur ∧ m.state cur = .running then .ready else m.state i)
      (hcur : m'.kernel.currentProc = some next)
      (hcr3 : m'.cr3 = if (m.kernel.procTable next).pml4 = 0 then m.cr3
        else (m.kernel.procTable next).pml4)

theorem doSwitch_procTable {cur next : Fin maxProcs} (hne : next ≠ cur) (m : Machine)
    (i : Fin maxProcs) : (doSwitch cur next m).kernel.procTable i =
      if i = next then { m.kernel.procTable next with state := .running, timeslice := 5 }
      else if i = cur ∧ m.state cur = .running then { m.kernel.procTable i with state := .ready }
      else m.kernel.procTable i := by
  unfold doSwitch
  dsimp only
  rw [upd_apply]
  by_cases hc : (m.kernel.procTable cur).state = .running
  · rw [if_pos hc, Kernel.setState, upd_apply, upd_apply, if_neg hne]
    refine ite_congr rfl (fun _ => rfl) fun _ => ?_
    by_cases hi : i = cur
    · rw [if_pos hi, if_pos ⟨hi, hc⟩, hi]
    · rw [if_neg hi, if_neg fun h => hi h.1]
  · refine ite_congr rfl (fun _ => by rw [if_neg hc]) fun _ => ?_
    rw [if_neg hc, if_neg fun h => hc h.2]

theorem doSwitch_spec {cur next : Fin maxProcs} (hne : next ≠ cur) (m : Machine) :
    YieldFrame m (doSwitch cur next m) ∧
    (∀ i, (doSwitch cur next m).state i = if i = next then .running
      else if i = cur ∧ m.state cur = .running then .ready else m.state i) ∧
    (doSwitch cur next m).kernel.currentProc = some next ∧
    (doSwitch cur next m).cr3 = if (m.kernel.procTable next).pml4 = 0 then m.cr3
      else (m.kernel.procTable next).pml4 := by
  have htab := doSwitch_procTable hne m
  have hrest : (doSwitch cur next m).kernel.runQueue = m.kernel.runQueue ∧
      (doSwitch cur next m).kernel.phys = m.kernel.phys ∧
      (doSwitch cur next m).kernel.kernelPml4 = m.kernel.kernelPml4 ∧
      (doSwitch cur next m).kernel.nextPid = m.kernel.nextPid := by
    unfold doSwitch
    dsimp only
    split <;> exact ⟨rfl, rfl, rfl, rfl⟩
  obtain ⟨hq, hphys, hpml4, hpid⟩ := hrest
  refine ⟨⟨⟨fun i => ?_, by rw [hq], by rw [hq], by rw [hq], hphys, hpml4, hpid⟩, rfl, rfl, rfl,
    rfl, rfl, rfl⟩, fun i => ?_, rfl, ?_⟩
  · rw [htab]
    split
    · next h => rw [h]; rfl
    · split <;> rfl
  · unfold Machine.state
    rw [htab, apply_ite Process.state, apply_ite Process.state]
    rfl
  · have h := htab next
    rw [if_pos rfl] at h
    have hcr3 : (doSwitch cur next m).cr3 =
      if ((doSwitch cur next m).kernel.procTable next).pml4 = 0 then m.cr3
        else ((doSwitch cur next m).kernel.procTable next).pml4 := rfl
    rw [hcr3, h]

theorem Process.SameCore.field {β : Type*} {g : Process → β}
    (hg : ∀ (p : Process) st ts, g { p with state := st, timeslice := ts } = g p) {p q : Process}
    (h : p.SameCore q) : g q = g p :=
  (congrArg g h).trans (hg p _ _)

theorem Process.SameCore.trans {p q r : Process} (h : p.SameCore q) (h' : q.SameCore r) :
    p.SameCore r := by
  rw [Process.SameCore] at h h'
  rw [Process.SameCore, h', h]

theorem KernelFrame.refl (k : Kernel) : KernelFrame k k :=
  ⟨fun _ => rfl, rfl, rfl, rfl, rfl, rfl, rfl⟩

theorem KernelFrame.trans {a b c : Kernel} (h : KernelFrame a b) (h' : KernelFrame b c) :
    KernelFrame a c where
  core := fun i => (h.core i).trans (h'.core i)
  queue := h'.queue.trans h.queue
  qTail := h'.qTail.trans h.qTail
  qCount := h'.qCount.trans h.qCount
  phys := h'.phys.trans h.phys
  kernelPml4 := h'.kernelPml4.trans h.kernelPml4
  nextPid := h'.nextPid.trans h.nextPid

theorem YieldFrame.trans {a b c : Machine} (h : YieldFrame a b) (h' : YieldFrame b c) :
    YieldFrame a c where
  toKernelFrame := h.toKernelFrame.trans h'.toKernelFrame
  procTicks := h'.procTicks.trans h.procTicks
  pitTicks := h'.pitTicks.trans h.pitTicks
  point := h'.point.trans h.point
  irq0 := h'.irq0.trans h.irq0
  reached := h'.reached.trans h.reached
  woken := h'.woken.trans h.woken

theorem YieldFrame.qHead (m : Machine) (i : Fin 256) : YieldFrame m
    (m.withKernel { m.kernel with runQueue := { m.kernel.runQueue with qHead := i } }) :=
  ⟨⟨fun _ => rfl, rfl, rfl, rfl, rfl, rfl, rfl⟩, rfl, rfl, rfl, rfl, rfl, rfl⟩

theorem YieldFrame.slice (m : Machine) (cur : Fin maxProcs) (n : BitVec 32) :
    let m' := m.withKernel (m.kernel.upd cur fun p => { p with timeslice := n })
    YieldFrame m m' ∧ ∀ i, m'.state i = m.state i := by
  have htab := upd_apply m.kernel cur
  refine ⟨⟨⟨fun i => ?_, rfl, rfl, rfl, rfl, rfl, rfl⟩, rfl, rfl, rfl, rfl, rfl, rfl⟩, fun i => ?_⟩
  · simp only [Machine.withKernel, htab]
    split
    · next h => rw [h]; rfl
    · rfl
  · simp only [Machine.state, Machine.withKernel, htab]
    split
    · next h => rw [h]
    · rfl

theorem schedYield_spec (cur : Fin maxProcs) (m : Machine) :
    YieldFrame m (schedYield cur m) ∧ YieldCase cur m (schedYield cur m) := by
  have stay (i : Fin 256) (hno : (∀ p, m.Queued p → m.state p ≠ .ready) ∨ m.state cur = .ready) :
      let m₁ := m.withKernel { m.kernel with runQueue := { m.kernel.runQueue with qHead := i } }
      let m₂ := if (m₁.kernel.procTable cur).state = .running then
          m₁.withKernel (m₁.kernel.upd cur fun p => { p with timeslice := 5 })
        else m₁
      YieldFrame m m₂ ∧ YieldCase cur m m₂ := by
    intro m₁
    have h₁ : YieldFrame m m₁ := YieldFrame.qHead m i
    obtain ⟨h₂, hst⟩ := YieldFrame.slice m₁ cur 5
    split
    · exact ⟨h₁.trans h₂, .stay hno hst rfl rfl⟩
    · exact ⟨h₁, .stay hno (fun _ => rfl) rfl rfl⟩
  simp only [schedYield]
  rcases nextReady_cases m.kernel.runQueue m.kernel.isReady with ⟨he, hno⟩ | ⟨idx, p, he, hp, hr, -⟩
  · rw [he]
    refine stay m.kernel.runQueue.qHead (.inl ?_)
    rintro p ⟨i, hi⟩ hr
    exact hno i ⟨p, hi, decide_eq_true hr⟩
  · rw [he]
    have hr : m.state p = .ready := of_decide_eq_true hr
    dsimp only
    split
    · next h => exact stay (idx + 1) (.inr (h ▸ hr))
    · next h =>
      obtain ⟨hf, hst, hcur, hcr3⟩ := doSwitch_spec h
        (m.withKernel { m.kernel with runQueue := { m.kernel.runQueue with qHead := idx + 1 } })
      exact ⟨(YieldFrame.qHead m _).trans hf, .switch p h ⟨idx, hp⟩ hr hst hcur hcr3⟩

/-! ## `handle_pit` -/

/-- What a tick has done before it comes to `sched_yield` or `pic_eoi`: sleepers whose time has come
are ready. -/
structure Ticked (m m' : Machine) : Prop extends KernelFrame m.kernel m'.kernel where
  state : ∀ i, m'.state i = m.state i ∨
    m.state i = .sleeping ∧ m'.state i = .ready ∧ m'.reached i = true
  currentProc : m'.kernel.currentProc = m.kernel.currentProc
  cr3 : m'.cr3 = m.cr3
  reached : ∀ i, m.reached i = true → m'.reached i = true
  woken : m'.woken = m.woken

theorem wakeSleepers_ticked (m : Machine) (n : U64) (b : Bool) :
    Ticked m (wakeSleepers { m with irq0 := b, pitTicks := n }) ∧
    (wakeSleepers { m with irq0 := b, pitTicks := n }).point = m.point ∧
    (wakeSleepers { m with irq0 := b, pitTicks := n }).irq0 = b ∧
    ∀ i, ((wakeSleepers { m with irq0 := b, pitTicks := n }).kernel.procTable i).timeslice =
      (m.kernel.procTable i).timeslice := by
  unfold wakeSleepers
  refine ⟨⟨⟨fun i => ?_, rfl, rfl, rfl, rfl, rfl, rfl⟩, fun i => ?_, rfl, rfl, fun i h => ?_, rfl⟩,
    rfl, rfl, fun i => ?_⟩
  · dsimp only
    split <;> rfl
  · unfold Machine.state
    dsimp only
    split
    · next h => exact .inr ⟨h.2.1, rfl, by rw [decide_eq_true h, Bool.or_true]⟩
    · exact .inl rfl
  · dsimp only
    rw [h, Bool.true_or]
  · dsimp only
    split <;> rfl

/-- A tick that leaves `cur` the rest of its time slice acknowledges the interrupt; any other calls
`sched_yield` first. -/
theorem handlePit_cases (cur : Fin maxProcs) (m : Machine) :
    ((0#32).slt ((m.kernel.procTable cur).timeslice - 1) = true ∧ Ticked m (handlePit cur m) ∧
      (handlePit cur m).irq0 = false ∧ (handlePit cur m).point = m.point ∧
      ((handlePit cur m).kernel.procTable cur).timeslice =
        (m.kernel.procTable cur).timeslice - 1) ∨
    (0#32).slt ((m.kernel.procTable cur).timeslice - 1) = false ∧
    ∃ m₁, Ticked m m₁ ∧ m₁.irq0 = true ∧ m₁.point = Function.update m.point cur .tick ∧
      handlePit cur m = schedYield cur m₁ := by
  obtain ⟨hw, hpoint, hirq, hslice⟩ := wakeSleepers_ticked m (m.pitTicks + 1) true
  unfold handlePit
  dsimp only
  generalize wakeSleepers { m with irq0 := true, pitTicks := m.pitTicks + 1 } = w at *
  obtain ⟨hu, hust⟩ := YieldFrame.slice w cur ((w.kernel.procTable cur).timeslice - 1)
  set u := w.withKernel (w.kernel.upd cur fun p => { p with timeslice := p.timeslice - 1 })
  have hticked : Ticked m u :=
    { toKernelFrame := hw.toKernelFrame.trans hu.toKernelFrame
      state := fun i => (hw.state i).imp (hust i).trans fun h => ⟨h.1, (hust i).trans h.2.1, h.2.2⟩
      currentProc := hw.currentProc
      cr3 := hw.cr3
      reached := hw.reached
      woken := hw.woken }
  have hleft : (u.kernel.procTable cur).timeslice = (m.kernel.procTable cur).timeslice - 1 := by
    have hself := upd_apply w.kernel cur cur fun p => { p with timeslice := p.timeslice - 1 }
    rw [if_pos rfl] at hself
    exact (congrArg Process.timeslice hself).trans (by rw [← hslice cur])
  rw [hleft]
  cases (0#32).slt ((m.kernel.procTable cur).timeslice - 1) with
  | true =>
    exact .inl ⟨rfl, ⟨hticked.toKernelFrame, hticked.state, hticked.currentProc, hticked.cr3,
      hticked.reached, hticked.woken⟩, rfl, hpoint, hleft⟩
  | false =>
    refine .inr ⟨rfl, u.setPoint cur .tick, ⟨hticked.toKernelFrame, hticked.state,
      hticked.currentProc, hticked.cr3, hticked.reached, hticked.woken⟩, hirq, ?_, rfl⟩
    rw [← hpoint]
    rfl

/-! ## `proc_create`, `sys_fork` and `proc_spawn_init` -/

/-- Slot `i` was free and is the newest process, in state `st`; no other slot has changed, and the
run queue is `q`. -/
structure Claims (i : Fin maxProcs) (st : ProcState) (q : RunQueue) (k k' : Kernel) : Prop where
  ne_zero : i ≠ 0
  free : (k.procTable i).state = .unused
  others : ∀ j, j ≠ i → k'.procTable j = k.procTable j
  state : (k'.procTable i).state = st
  pid : (k'.procTable i).pid = k.nextPid
  nextPid : k'.nextPid = k.nextPid + 1
  currentProc : k'.currentProc = k.currentProc
  kernelPml4 : k'.kernelPml4 = k.kernelPml4
  runQueue : k'.runQueue = q

section Claims

variable {i : Fin maxProcs} {st st' : ProcState} {q : RunQueue} {k k' : Kernel}

theorem Claims.upd (h : Claims i st q k k') {f : Process → Process}
    (hst : ∀ p, p.state = st → (f p).state = st') (hpid : ∀ p, (f p).pid = p.pid) :
    Claims i st' q k (k'.upd i f) := by
  have htab := upd_apply k' i
  refine ⟨h.ne_zero, h.free, fun j hj => ?_, ?_, ?_, h.nextPid, h.currentProc, h.kernelPml4,
    h.runQueue⟩
  · rw [htab, if_neg hj]
    exact h.others j hj
  · rw [htab, if_pos rfl]
    exact hst _ h.state
  · rw [htab, if_pos rfl, hpid]
    exact h.pid

theorem Claims.fields (h : Claims i st q k k') {f : Process → Process}
    (hst : ∀ p, (f p).state = p.state) (hpid : ∀ p, (f p).pid = p.pid) :
    Claims i st q k (k'.upd i f) :=
  h.upd (fun p hp => (hst p).trans hp) hpid

theorem Claims.withPhys (h : Claims i st q k k') (s : Phys) : Claims i st q k (k'.withPhys s) :=
  ⟨h.ne_zero, h.free, h.others, h.state, h.pid, h.nextPid, h.currentProc, h.kernelPml4, h.runQueue⟩

theorem Claims.inheritFds (h : Claims i st q k k') (n : Nat) (p : Fin maxProcs) :
    Claims i st q k (inheritFds n i p k') := by
  let fds (p' : Process) (j : Fin 64) : FdEntry :=
    if j.val < n then (k'.procTable p).fds j else p'.fds j
  have h' := h.fields (f := fun p' => { p' with fds := fds p' }) (fun _ => rfl) (fun _ => rfl)
  exact ⟨h'.ne_zero, h'.free, h'.others, h'.state, h'.pid, h'.nextPid, h'.currentProc,
    h'.kernelPml4, h'.runQueue⟩

theorem Claims.pushFrame (h : Claims i st q k k') (frame : List U64) :
    Claims i st q k (pushFrame i frame k') :=
  (h.withPhys _).fields (f := fun p => { p with rsp := _ }) (fun _ => rfl) (fun _ => rfl)

theorem Claims.schedAdd (h : Claims i st k.runQueue k k') :
    Claims i st (schedAdd i k).runQueue k (schedAdd i k') := by
  have hq : (Proc.schedAdd i k').runQueue = (Proc.schedAdd i k).runQueue := by
    simp only [Proc.schedAdd, h.runQueue]
    split
    · exact h.runQueue
    · rfl
  have hrest : (Proc.schedAdd i k').procTable = k'.procTable ∧
      (Proc.schedAdd i k').nextPid = k'.nextPid ∧
      (Proc.schedAdd i k').currentProc = k'.currentProc ∧
      (Proc.schedAdd i k').kernelPml4 = k'.kernelPml4 := by
    simp only [Proc.schedAdd]
    split <;> exact ⟨rfl, rfl, rfl, rfl⟩
  obtain ⟨ht, hn, hc, hp⟩ := hrest
  exact ⟨h.ne_zero, h.free, fun j hj => by rw [ht, h.others j hj], by rw [ht, h.state],
    by rw [ht, h.pid], hn.trans h.nextPid, hc.trans h.currentProc, hp.trans h.kernelPml4, hq⟩

theorem freeSlot_some (h : freeSlot k = some i) : i ≠ 0 ∧ (k.procTable i).state = .unused :=
  of_decide_eq_true (List.find?_some h :)

theorem claimSlot_claims (h : freeSlot k = some i) :
    Claims i .ready k.runQueue k (claimSlot i k) := by
  obtain ⟨h0, hfree⟩ := freeSlot_some h
  have hclear := fun j => upd_apply k i j fun _ => { Process.zero with pid := k.nextPid }
  have hnew : Claims i .unused k.runQueue k
      { k.upd i fun _ => { Process.zero with pid := k.nextPid } with nextPid := k.nextPid + 1 } := by
    refine ⟨h0, hfree, fun j hj => ?_, ?_, ?_, rfl, rfl, rfl, rfl⟩
    · exact (hclear j).trans (if_neg hj)
    · exact congrArg Process.state ((hclear i).trans (if_pos rfl))
    · exact congrArg Process.pid ((hclear i).trans (if_pos rfl))
  exact hnew.upd (f := fun p => { p with ppid := _, state := .ready, timeslice := 5 })
    (fun _ _ => rfl) (fun _ => rfl)

theorem attachPml4_claims (h : Claims i st q k k') :
    Claims i st q k (attachPml4 i k').2 ∧
    ((attachPml4 i k').1 = none ∨ (attachPml4 i k').1 = some i) := by
  have hrsp := (h.withPhys (k'.phys.kmemsetPage (k'.procTable i).kstack)).fields
    (f := fun p => { p with rsp := (k'.procTable i).kstack + kstackSize })
    (fun _ => rfl) (fun _ => rfl)
  simp only [attachPml4]
  generalize vmmNewPml4 _ _ = r
  have hpml4 := (hrsp.withPhys r.2).fields (f := fun p => { p with pml4 := r.1 })
    (fun _ => rfl) (fun _ => rfl)
  split
  · exact ⟨hpml4.withPhys _, .inl rfl⟩
  · let fds (p : Process) (j : Fin 64) : FdEntry :=
      if j.val < 3 then { p.fds j with file := 0 } else p.fds j
    exact ⟨hpml4.fields (f := fun p => { p with cwd := _, fds := fds p }) (fun _ => rfl)
      (fun _ => rfl), .inr rfl⟩

theorem procCreate_claims (h : freeSlot k = some i) :
    Claims i .ready k.runQueue k (procCreate k).2 ∧
    ((procCreate k).1 = none ∨ (procCreate k).1 = some i) := by
  have hstack := ((claimSlot_claims h).withPhys (claimSlot i k).phys.alloc.2).fields
    (f := fun p => { p with kstack := (claimSlot i k).phys.alloc.1 }) (fun _ => rfl) (fun _ => rfl)
  simp only [procCreate, h]
  split
  · exact ⟨hstack, .inl rfl⟩
  · exact attachPml4_claims hstack

theorem claims_of_procCreate {t : Phys} {k' : Kernel} {o : Option (Fin maxProcs)}
    (hslot : freeSlot k = some i) (hcreate : procCreate (k.withPhys t) = (o, k')) :
    Claims i .ready k.runQueue k k' := by
  have h := (procCreate_claims (k := k.withPhys t) hslot).1
  rw [hcreate] at h
  exact ⟨h.ne_zero, h.free, h.others, h.state, h.pid, h.nextPid, h.currentProc, h.kernelPml4,
    h.runQueue⟩

end Claims

/-- Nothing the scheduler looks at has changed. -/
structure SameSched (m m' : Machine) : Prop where
  state : ∀ i, m'.state i = m.state i
  pid : ∀ i, m'.pid i = m.pid i
  ppid : ∀ i, (m'.kernel.procTable i).ppid = (m.kernel.procTable i).ppid
  exitCode : ∀ i, (m'.kernel.procTable i).exitCode = (m.kernel.procTable i).exitCode
  runQueue : m'.kernel.runQueue = m.kernel.runQueue
  currentProc : m'.kernel.currentProc = m.kernel.currentProc
  nextPid : m'.kernel.nextPid = m.kernel.nextPid
  procTicks : m'.procTicks = m.procTicks
  pitTicks : m'.pitTicks = m.pitTicks
  point : m'.point = m.point
  irq0 : m'.irq0 = m.irq0
  reached : m'.reached = m.reached
  woken : m'.woken = m.woken

/-- The machine around a kernel in which slot `i` has been claimed. -/
structure ClaimFrame (i : Fin maxProcs) (pt : Point) (m m' : Machine) : Prop where
  point : m'.point = Function.update m.point i pt
  pitTicks : m'.pitTicks = m.pitTicks
  cr3 : m'.cr3 = m.cr3
  irq0 : m'.irq0 = m.irq0
  reached : m'.reached = m.reached
  woken : m'.woken = m.woken

/-- What `sys_fork` and `proc_spawn_init` do to the process table: nothing, claim a slot and fail,
or add a process. -/
inductive Creation (m m' : Machine) : Prop
  | same (h : SameSched m m')
  | failed (i : Fin maxProcs) (st : ProcState) (hst : st = .ready ∨ st = .unused)
      (h : Claims i st m.kernel.runQueue m.kernel m'.kernel) (hm : ClaimFrame i .broken m m')
      (hslot : freeSlot m.kernel = some i)
  | added (i : Fin maxProcs)
      (h : Claims i .ready (schedAdd i m.kernel).runQueue m.kernel m'.kernel)
      (hm : ClaimFrame i .fresh m m') (hslot : freeSlot m.kernel = some i)

theorem SameSched.phys (m : Machine) (s : Phys) : SameSched m (m.withKernel (m.kernel.withPhys s)) :=
  ⟨fun _ => rfl, fun _ => rfl, fun _ => rfl, fun _ => rfl, rfl, rfl, rfl, rfl, rfl, rfl, rfl, rfl,
    rfl⟩

theorem claim_frame (i : Fin maxProcs) (pt : Point) (m : Machine) (k : Kernel) :
    ClaimFrame i pt m ((m.withKernel k).claim (some i) pt) :=
  ⟨rfl, rfl, rfl, rfl, rfl, rfl⟩

/-- `proc_create` finds no slot and does nothing, or claims one, and may fail all the same. -/
theorem procCreate_cases (k : Kernel) (s : Phys) :
    (freeSlot k = none ∧ procCreate (k.withPhys s) = (none, k.withPhys s)) ∨
    ∃ i k', freeSlot k = some i ∧ Claims i .ready k.runQueue k k' ∧
      (procCreate (k.withPhys s) = (none, k') ∨ procCreate (k.withPhys s) = (some i, k')) := by
  have hslot : freeSlot (k.withPhys s) = freeSlot k := rfl
  cases hfree : freeSlot k with
  | none =>
    refine .inl ⟨rfl, ?_⟩
    simp only [procCreate, hslot, hfree]
  | some i =>
    obtain ⟨h, hres⟩ := procCreate_claims (hslot.trans hfree)
    refine .inr ⟨i, (procCreate (k.withPhys s)).2, rfl, ⟨h.ne_zero, h.free, h.others, h.state,
      h.pid, h.nextPid, h.currentProc, h.kernelPml4, h.runQueue⟩, ?_⟩
    exact hres.imp (fun hr => Prod.ext hr rfl) (fun hr => Prod.ext hr rfl)

theorem sysFork_claims (ctx : UserCtx) {parent i : Fin maxProcs} {k k' : Kernel} {pml4 : U64}
    {s : Phys} (hclone : vmmClonePml4 k.kernelPml4 (k.procTable parent).pml4 k.phys = (pml4, s))
    (hpml4 : pml4 ≠ 0) (hcreate : procCreate (k.withPhys s) = (some i, k'))
    (h : Claims i .ready k.runQueue k k') :
    Claims i .ready (schedAdd i k).runQueue k (sysFork ctx parent k).2 := by
  simp only [sysFork, hclone, if_neg hpml4, hcreate]
  have hchild := h.fields (f := fun p => { p with
    pml4 := pml4, ppid := (k'.procTable parent).pid, brk := (k'.procTable parent).brk,
    cwd := (k'.procTable parent).cwd }) (fun _ => rfl) (fun _ => rfl)
  exact ((hchild.inheritFds 64 parent).pushFrame _).schedAdd

theorem fork_creation (ctx : UserCtx) (cur : Fin maxProcs) (m : Machine) :
    Creation m (m.fork ctx cur) := by
  obtain ⟨pml4, s, hclone⟩ : ∃ pml4 s, vmmClonePml4 m.kernel.kernelPml4
      (m.kernel.procTable cur).pml4 m.kernel.phys = (pml4, s) := ⟨_, _, rfl⟩
  simp only [Machine.fork, hclone]
  by_cases hpml4 : pml4 = 0
  · rw [if_pos hpml4]
    simp only [sysFork, hclone, if_pos hpml4]
    exact .same (SameSched.phys m s)
  rw [if_neg hpml4]
  rcases procCreate_cases m.kernel s with ⟨hfree, hcreate⟩ | ⟨i, k', hfree, h, hcreate | hcreate⟩
  · rw [hfree]
    simp only [sysFork, hclone, if_neg hpml4, hcreate]
    exact .same (SameSched.phys m _)
  · rw [hfree, hcreate]
    refine .failed i .ready (.inl rfl) ?_ (claim_frame i .broken m _) hfree
    simp only [sysFork, hclone, if_neg hpml4, hcreate]
    exact h.withPhys _
  · rw [hfree, hcreate]
    exact .added i (sysFork_claims ctx hclone hpml4 hcreate h) (claim_frame i .fresh m _) hfree

theorem startInit_claims {ld : Loader} {stub : U64} {i : Fin maxProcs} {info : ElfInfo}
    {k k' k'' : Kernel} {r : Int} (h : Claims i .ready k.runQueue k k')
    (he : startInit ld stub i info k' = some (r, k'')) :
    r = 0 ∧ Claims i .ready (schedAdd i k).runQueue k k'' := by
  have hbrk := h.fields (f := fun p => { p with
    brkStart := (info.loadEnd + 4096 - 1) &&& ~~~4095
    brk := (info.loadEnd + 4096 - 1) &&& ~~~4095
    cwd := "/" }) (fun _ => rfl) (fun _ => rfl)
  unfold startInit at he
  obtain ⟨kp, -, he⟩ := Option.bind_eq_some_iff.mp he
  cases he
  exact ⟨rfl, (((hbrk.withPhys _).inheritFds 3 kp).pushFrame _).schedAdd⟩

theorem spawn_creation {ld : Loader} {stub : U64} {m m' : Machine}
    (he : m.spawn ld stub = some m') : Creation m m' := by
  obtain ⟨⟨r, k''⟩, hspawn, rfl⟩ := Option.map_eq_some_iff.mp he
  unfold procSpawnInit at hspawn
  cases hfetch : ld.fetch m.kernel.phys with
  | mk e s =>
    rw [hfetch] at hspawn
    cases e with
    | some e =>
      cases hspawn
      exact .same (SameSched.phys m s)
    | none =>
      rcases procCreate_cases m.kernel s with
        ⟨hfree, hcreate⟩ | ⟨i, k', hfree, h, hcreate | hcreate⟩
      · simp only [hcreate] at hspawn
        cases hspawn
        rw [hfree]
        exact .same (SameSched.phys m _)
      · simp only [hcreate] at hspawn
        cases hspawn
        rw [hfree]
        exact .failed i .ready (.inl rfl) (h.withPhys _) (claim_frame i .broken m _) hfree
      · simp only [hcreate] at hspawn
        rw [hfree]
        split at hspawn
        · obtain ⟨rfl, hadd⟩ := startInit_claims ((h.withPhys _).withPhys _) hspawn
          exact .added i hadd (claim_frame i .fresh m _) hfree
        · cases hspawn
          exact .failed i .unused (.inr rfl) (((h.withPhys _).withPhys _).upd
            (f := fun p => { p with state := .unused }) (fun _ _ => rfl) (fun _ => rfl))
            (claim_frame i .broken m _) hfree

end Sinux.Proc

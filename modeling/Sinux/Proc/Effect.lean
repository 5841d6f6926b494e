import Sinux.Proc.Machine

/-!
# The steps of the machine, seen by the scheduler

`Effect` lists what a step can do to the states, the queue and the points of the processes, and
`MStep.effect` shows that it does nothing else. Every invariant of the scheduler is proved from
`Effect`.
-/

namespace Sinux.Proc

open Function Sinux.Lib Sinux.Mm

/-! ## Giving up the processor -/

/-- `cur` is in state `st` and about to call `sched_yield` at `pt`; the others have not changed. -/
structure Blocked (cur : Fin maxProcs) (st : ProcState) (pt : Point) (m m' : Machine) : Prop where
  state : ∀ i, m'.state i = if i = cur then st else m.state i
  pid : ∀ i, m'.pid i = m.pid i
  ppid : ∀ i, (m'.kernel.procTable i).ppid = (m.kernel.procTable i).ppid
  exitCode : ∀ i, i ≠ cur → (m'.kernel.procTable i).exitCode = (m.kernel.procTable i).exitCode
  pml4 : ∀ i, i ≠ cur ∨ st ≠ .zombie →
    (m'.kernel.procTable i).pml4 = (m.kernel.procTable i).pml4
  runQueue : m'.kernel.runQueue = m.kernel.runQueue
  currentProc : m'.kernel.currentProc = m.kernel.currentProc
  nextPid : m'.kernel.nextPid = m.kernel.nextPid
  irq0 : m'.irq0 = m.irq0
  point : m'.point = update m.point cur pt
  reached : ∀ i, i ≠ cur → m'.reached i = m.reached i
  woken : ∀ i, i ≠ cur → m'.woken i = m.woken i

theorem upd_state (k : Kernel) (i : Fin maxProcs) {f : Process → Process} (st : ProcState)
    (hf : ∀ p, (f p).state = st) (j : Fin maxProcs) :
    ((k.upd i f).procTable j).state = if j = i then st else (k.procTable j).state := by
  rw [upd_apply]
  split
  · exact hf _
  · rfl

theorem setState_spec (i : Fin maxProcs) (st : ProcState) (k : Kernel) :
    (∀ j, ((k.setState i st).procTable j).state = if j = i then st else (k.procTable j).state) ∧
    (∀ j, ((k.setState i st).procTable j).pid = (k.procTable j).pid) ∧
    (∀ j, ((k.setState i st).procTable j).ppid = (k.procTable j).ppid) ∧
    (∀ j, ((k.setState i st).procTable j).exitCode = (k.procTable j).exitCode) ∧
    ∀ j, ((k.setState i st).procTable j).pml4 = (k.procTable j).pml4 := by
  let f (p : Process) : Process := { p with state := st }
  have hfield {β : Type} (g : Process → β) (hg : ∀ p, g (f p) = g p) (j : Fin maxProcs) :
      g ((k.setState i st).procTable j) = g (k.procTable j) := upd_field hg
  exact ⟨upd_state k i (f := f) st fun _ => rfl, hfield Process.pid fun _ => rfl,
    hfield Process.ppid fun _ => rfl, hfield Process.exitCode fun _ => rfl,
    hfield Process.pml4 fun _ => rfl⟩

theorem procExit_spec (i : Fin maxProcs) (code : BitVec 32) (k : Kernel) :
    (∀ j, ((procExit i code k).procTable j).state =
      if j = i then .zombie else (k.procTable j).state) ∧
    (∀ j, ((procExit i code k).procTable j).pid = (k.procTable j).pid) ∧
    (∀ j, ((procExit i code k).procTable j).ppid = (k.procTable j).ppid) ∧
    (∀ j, ((procExit i code k).procTable j).exitCode =
      if j = i then code else (k.procTable j).exitCode) ∧
    (∀ j, j ≠ i → ((procExit i code k).procTable j).pml4 = (k.procTable j).pml4) ∧
    (procExit i code k).runQueue = k.runQueue ∧
    (procExit i code k).currentProc = k.currentProc ∧
    (procExit i code k).nextPid = k.nextPid := by
  let fds (p : Process) (j : Fin 64) : FdEntry := if (p.fds j).file ≠ 0 then ⟨0, 0⟩ else p.fds j
  let f (p : Process) : Process := { p with exitCode := code, state := .zombie, fds := fds p }
  have hst := upd_state k i (f := f) .zombie (fun _ => rfl)
  have hpid (j : Fin maxProcs) : ((k.upd i f).procTable j).pid = (k.procTable j).pid :=
    upd_field fun _ => rfl
  have hppid (j : Fin maxProcs) : ((k.upd i f).procTable j).ppid = (k.procTable j).ppid :=
    upd_field fun _ => rfl
  have hcode : ∀ j, ((k.upd i f).procTable j).exitCode =
      if j = i then code else (k.procTable j).exitCode := fun j => by
    rw [upd_apply]
    split <;> rfl
  have hpml4 (j : Fin maxProcs) (hj : j ≠ i) :
      ((k.upd i f).procTable j).pml4 = (k.procTable j).pml4 := congrArg _ (upd_of_ne hj)
  have hfold : procExit i code k =
      let k := k.upd i f
      let pml4 := (k.procTable i).pml4
      if pml4 ≠ 0 ∧ pml4 ≠ k.kernelPml4 then
        (k.withPhys (vmmDestroyPml4 pml4 k.phys)).upd i fun p => { p with pml4 := 0 }
      else k := rfl
  rw [hfold]
  dsimp only
  split
  · let k' := (k.upd i f).withPhys
      (vmmDestroyPml4 ((k.upd i f).procTable i).pml4 (k.upd i f).phys)
    have hkeep {β : Type} (g : Process → β) (hg : ∀ p : Process, g { p with pml4 := 0 } = g p)
        (j : Fin maxProcs) : g ((k'.upd i fun p => { p with pml4 := 0 }).procTable j) =
        g ((k.upd i f).procTable j) := upd_field hg
    exact ⟨fun j => (hkeep Process.state (fun _ => rfl) j).trans (hst j),
      fun j => (hkeep Process.pid (fun _ => rfl) j).trans (hpid j),
      fun j => (hkeep Process.ppid (fun _ => rfl) j).trans (hppid j),
      fun j => (hkeep Process.exitCode (fun _ => rfl) j).trans (hcode j),
      fun j hj => (congrArg Process.pml4 (upd_of_ne hj)).trans (hpml4 j hj), rfl, rfl, rfl⟩
  · exact ⟨hst, hpid, hppid, hcode, hpml4, rfl, rfl, rfl⟩

theorem procFind_some {pid : BitVec 32} {k : Kernel} {i : Fin maxProcs}
    (h : procFind pid k = some i) : (k.procTable i).pid = pid ∧ (k.procTable i).state ≠ .unused :=
  of_decide_eq_true (List.find?_some h :)

/-- The signal whose default action `signal_deliver` takes in `cur`. -/
def Machine.defaultAction (m : Machine) (cur : Fin maxProcs) : Option (Fin 32) :=
  (signalLoop (m.sig cur).blocked (m.sig cur).handler (List.finRange 32).tail
    (m.sig cur).pending).2

/-- The process that exits in the step, and its code. -/
def Machine.exitOf (m : Machine) : Event → Option (Fin maxProcs × BitVec 32)
  | .exit code => m.kernel.currentProc.map (·, code)
  | .signal => do
    let cur ← m.kernel.currentProc
    let sig ← m.defaultAction cur
    if sig = 19 then none else some (cur, 128 + BitVec.ofNat 32 sig.val)
  | _ => none

/-- The process that executes a round of `sys_wait4` in the step, and the pid. -/
def Machine.waitOf (m : Machine) : Event → Option (Fin maxProcs × BitVec 32)
  | .wait4 pid => m.kernel.currentProc.map (·, pid)
  | .resume => do
    let cur ← m.kernel.currentProc
    match m.point cur with
    | .wait4 pid => some (cur, pid)
    | _ => none
  | _ => none

/-- The process whose code `sys_wait4` returns in the step, and the code. -/
def Machine.deliveryOf (m : Machine) (e : Event) : Option (Fin maxProcs × BitVec 32) := do
  let (cur, pid) ← m.waitOf e
  let child ← procFind pid m.kernel
  let (_, code) ← (wait4Round cur pid m.kernel).1
  code.map (child, ·)

/-- Why a process calls `sched_yield` in a state other than `PROC_RUNNING`, with the event, the
state and the point; `m'` is the machine at the call. -/
inductive BlockKind (cur : Fin maxProcs) (m m' : Machine) : Event → ProcState → Point → Prop
  | exit (code : BitVec 32) (hcode : (m'.kernel.procTable cur).exitCode = code) :
      BlockKind cur m m' (.exit code) .zombie .exit
  | sleep (seconds nanoseconds : U64) :
      BlockKind cur m m' (.nanosleep seconds nanoseconds) .sleeping .sleep
  | wait {e : Event} (pid : BitVec 32) (child : Fin maxProcs)
      (he : e = .wait4 pid ∨ e = .resume ∧ m.point cur = .wait4 pid)
      (hfind : procFind pid m.kernel = some child) (hz : m.state child ≠ .zombie) :
      BlockKind cur m m' e .waiting (.wait4 pid)
  | stop (hact : m.defaultAction cur = some 19) : BlockKind cur m m' .signal .sleeping .signal
  | die (sig : Fin 32) (hact : m.defaultAction cur = some sig) (h19 : sig ≠ 19)
      (hcode : (m'.kernel.procTable cur).exitCode = 128 + BitVec.ofNat 32 sig.val) :
      BlockKind cur m m' .signal .zombie .signal

/-- `cur` goes on in its own code, or in user mode. -/
structure Returns (cur : Fin maxProcs) (m m' : Machine) : Prop where
  pid : ∀ i, m'.pid i = m.pid i
  ppid : ∀ i, (m'.kernel.procTable i).ppid = (m.kernel.procTable i).ppid
  exitCode : ∀ i, (m'.kernel.procTable i).exitCode = (m.kernel.procTable i).exitCode
  pml4 : ∀ i, (m'.kernel.procTable i).pml4 = (m.kernel.procTable i).pml4
  phys : m'.kernel.phys = m.kernel.phys
  runQueue : m'.kernel.runQueue = m.kernel.runQueue
  currentProc : m'.kernel.currentProc = m.kernel.currentProc
  nextPid : m'.kernel.nextPid = m.kernel.nextPid
  irq0 : m'.irq0 = if m.point cur = .tick then false else m.irq0
  point : m'.point = update m.point cur .run
  reached : m'.reached = m.reached
  woken : m'.woken = m.woken

/-- `sched_wake` has made `p` ready. -/
structure Wakes (p : Fin maxProcs) (m m' : Machine) : Prop where
  blocked : m.state p = .sleeping ∨ m.state p = .waiting
  state : ∀ i, m'.state i = if i = p then .ready else m.state i
  pid : ∀ i, m'.pid i = m.pid i
  ppid : ∀ i, (m'.kernel.procTable i).ppid = (m.kernel.procTable i).ppid
  exitCode : ∀ i, (m'.kernel.procTable i).exitCode = (m.kernel.procTable i).exitCode
  pml4 : ∀ i, (m'.kernel.procTable i).pml4 = (m.kernel.procTable i).pml4
  phys : m'.kernel.phys = m.kernel.phys
  runQueue : m'.kernel.runQueue = m.kernel.runQueue
  currentProc : m'.kernel.currentProc = m.kernel.currentProc
  nextPid : m'.kernel.nextPid = m.kernel.nextPid
  irq0 : m'.irq0 = m.irq0
  point : m'.point = m.point
  reached : m'.reached = m.reached
  woken : m'.woken = update m.woken p true

/-- What a step does, as far as the scheduler can see. -/
inductive Effect (m : Machine) : Event → Machine → Prop
  | keep {e : Event} {m' : Machine} (he : m.exitOf e = none) (hw : m.waitOf e = none)
      (h : SameSched m m') : Effect m e m'
  | ack {m' : Machine} (ht : Ticked m m') (hi : m'.irq0 = false) (hpt : m'.point = m.point) :
      Effect m .tick m'
  | preempt {m₁ m' : Machine} (cur : Fin maxProcs) (hc : m.kernel.currentProc = some cur)
      (hp : m.point cur ≠ .broken) (ht : Ticked m m₁) (hi : m₁.irq0 = true)
      (hpt : m₁.point = update m.point cur .tick)
      (hm : m' = handlePit cur m) (hf : YieldFrame m₁ m') (hy : YieldCase cur m₁ m') :
      Effect m .tick m'
  | block {e : Event} {m₁ m' : Machine} (cur : Fin maxProcs) (st : ProcState) (pt : Point)
      (hc : m.kernel.currentProc = some cur)
      (hp : m.point cur = .run ∧ cur ≠ 0 ∨ ∃ pid, m.point cur = .wait4 pid)
      (hk : BlockKind cur m m₁ e st pt) (hb : Blocked cur st pt m m₁)
      (hf : YieldFrame m₁ m') (hy : YieldCase cur m₁ m') : Effect m e m'
  | create {e : Event} {m' : Machine} (cur : Fin maxProcs) (hc : m.kernel.currentProc = some cur)
      (hp : m.point cur = .run) (he : e = .spawn ∨ ∃ ctx, e = .fork ctx) (h : Creation m m') :
      Effect m e m'
  | wake {e : Event} {m' : Machine} (p : Fin maxProcs) (he : m.exitOf e = none)
      (hw : m.waitOf e = none) (h : Wakes p m m') : Effect m e m'
  | back {e : Event} {m' : Machine} (cur : Fin maxProcs) (hc : m.kernel.currentProc = some cur)
      (hp : m.point cur ≠ .broken) (he : m.exitOf e = none) (hd : m.deliveryOf e = none)
      (hst : ∀ i, m'.state i = m.state i) (h : Returns cur m m') : Effect m e m'
  | reap {e : Event} {m' : Machine} (cur child : Fin maxProcs) (pid : BitVec 32)
      (hc : m.kernel.currentProc = some cur)
      (he : e = .wait4 pid ∨ e = .resume ∧ m.point cur = .wait4 pid)
      (hp : m.point cur ≠ .tick ∧ m.point cur ≠ .broken)
      (hfind : procFind pid m.kernel = some child) (hz : m.state child = .zombie)
      (hst : ∀ i, m'.state i = if i = child then .unused else m.state i)
      (h : Returns cur m m') : Effect m e m'

theorem schedAdd_queued {i p : Fin maxProcs} {k : Kernel} {idx : Fin 256}
    (h : (schedAdd i k).runQueue.queue idx = some p) : k.runQueue.queue idx = some p ∨ p = i := by
  unfold schedAdd at h
  dsimp only at h
  split at h
  · exact .inl h
  · dsimp only at h
    by_cases hi : idx = k.runQueue.qTail
    · rw [hi, update_self] at h
      exact .inr (Option.some.inj h).symm
    · rw [update_of_ne hi] at h
      exact .inl h

theorem Effect.queued {m m' : Machine} {e : Event} (h : Effect m e m') {p : Fin maxProcs}
    (hp : m'.Queued p) : m.Queued p ∨ p ≠ 0 := by
  obtain ⟨idx, hidx⟩ := hp
  have same (hq : m'.kernel.runQueue.queue = m.kernel.runQueue.queue) : m.Queued p :=
    ⟨idx, by rw [← hq]; exact hidx⟩
  cases h with
  | keep _ _ h => exact .inl (same (by rw [h.runQueue]))
  | ack ht _ _ => exact .inl (same ht.queue)
  | preempt cur _ _ ht _ _ _ hf _ => exact .inl (same (hf.queue.trans ht.queue))
  | block cur st pt _ _ _ hb hf _ => exact .inl (same (by rw [hf.queue, hb.runQueue]))
  | create cur _ _ _ h =>
    cases h with
    | same h => exact .inl (same (by rw [h.runQueue]))
    | failed i st _ h _ _ => exact .inl (same (by rw [h.runQueue]))
    | added i h _ _ =>
      rw [h.runQueue] at hidx
      rcases schedAdd_queued hidx with hold | rfl
      · exact .inl ⟨idx, hold⟩
      · exact .inr h.ne_zero
  | wake q _ _ h => exact .inl (same (by rw [h.runQueue]))
  | back cur _ _ _ _ _ h => exact .inl (same (by rw [h.runQueue]))
  | reap cur child pid _ _ _ _ _ _ h => exact .inl (same (by rw [h.runQueue]))

/-! ## Every step has such an effect -/

section Steps

variable (cur : Fin maxProcs) (m : Machine)

theorem blocked_exit (code : BitVec 32) (pt : Point) :
    let m₁ := (m.withKernel (procExit cur code m.kernel)).setPoint cur pt
    Blocked cur .zombie pt m m₁ ∧ (m₁.kernel.procTable cur).exitCode = code := by
  obtain ⟨hst, hpid, hppid, hcode, hpml4, hq, hc, hn⟩ := procExit_spec cur code m.kernel
  exact ⟨⟨hst, hpid, hppid, fun i hi => (hcode i).trans (if_neg hi),
    fun i hi => hpml4 i (hi.resolve_right fun h => h rfl), hq, hc, hn, rfl, rfl,
    fun _ _ => rfl, fun _ _ => rfl⟩, (hcode cur).trans (if_pos rfl)⟩

theorem blocked_setState (st : ProcState) (pt : Point) :
    Blocked cur st pt m ((m.withKernel (m.kernel.setState cur st)).setPoint cur pt) := by
  obtain ⟨hst, hpid, hppid, hcode, hpml4⟩ := setState_spec cur st m.kernel
  exact ⟨hst, hpid, hppid, fun i _ => hcode i, fun i _ => hpml4 i, rfl, rfl, rfl, rfl, rfl,
    fun _ _ => rfl, fun _ _ => rfl⟩

theorem blocked_sleep (s ns : U64) : ∃ m₁, Blocked cur .sleeping .sleep m m₁ ∧
    m₁.kernel.phys = m.kernel.phys ∧ m₁.reached cur = false ∧ m₁.woken cur = false ∧
    sysNanosleep s ns cur m = schedYield cur m₁ := by
  let m₁ := { m with
    kernel := m.kernel.setState cur .sleeping
    procTicks := update m.procTicks cur
      (m.pitTicks + (s * 1000 + ns / 1000000) * 1000 / 1000)
    reached := update m.reached cur false
    woken := update m.woken cur false }
  obtain ⟨hst, hpid, hppid, hcode, hpml4⟩ := setState_spec cur .sleeping m.kernel
  exact ⟨m₁.setPoint cur .sleep, ⟨hst, hpid, hppid, fun i _ => hcode i, fun i _ => hpml4 i, rfl, rfl,
    rfl, rfl, rfl, fun i hi => update_of_ne hi .., fun i hi => update_of_ne hi ..⟩,
    rfl, update_self .., update_self .., rfl⟩

theorem signalSend_wakes {pid : BitVec 32} (sig : BitVec 32) {p : Fin maxProcs}
    (hsig : ¬ (sig.slt 1 ∨ ¬ sig.slt 32)) (hfind : procFind pid m.kernel = some p)
    (h : m.state p = .sleeping ∨ m.state p = .waiting) : Wakes p m (signalSend pid sig m).2 := by
  have h' : (m.kernel.procTable p).state = .sleeping ∨ (m.kernel.procTable p).state = .waiting := h
  obtain ⟨hst, hpid, hppid, hcode, hpml4⟩ := setState_spec p .ready m.kernel
  simp only [signalSend, if_neg hsig, hfind, schedWake, if_pos h']
  exact ⟨h, hst, hpid, hppid, hcode, hpml4, rfl, rfl, rfl, rfl, rfl, rfl, rfl, rfl⟩

theorem signalSend_effect (pid sig : BitVec 32) :
    Effect m (.kill pid sig) (signalSend pid sig m).2 := by
  have hsame (s : Fin maxProcs → SigState) : SameSched m { m with sig := s } :=
    ⟨fun _ => rfl, fun _ => rfl, fun _ => rfl, fun _ => rfl, rfl, rfl, rfl, rfl, rfl, rfl, rfl,
      rfl, rfl⟩
  by_cases hsig : sig.slt 1 ∨ ¬ sig.slt 32
  · simp only [signalSend, if_pos hsig]
    exact .keep rfl rfl (hsame m.sig)
  cases hfind : procFind pid m.kernel with
  | none =>
    simp only [signalSend, if_neg hsig, hfind]
    exact .keep rfl rfl (hsame m.sig)
  | some p =>
    by_cases h : m.state p = .sleeping ∨ m.state p = .waiting
    · exact .wake p rfl rfl (signalSend_wakes m sig hsig hfind h)
    · have h' : ¬ ((m.kernel.procTable p).state = .sleeping ∨
        (m.kernel.procTable p).state = .waiting) := h
      simp only [signalSend, if_neg hsig, hfind, schedWake, if_neg h']
      exact .keep rfl rfl (hsame _)

variable {cur m}

theorem effect_exit (hc : m.kernel.currentProc = some cur) (hp : m.point cur = .run)
    (h0 : cur ≠ 0) (code : BitVec 32) : Effect m (.exit code) (sysExit code cur m) := by
  obtain ⟨hb, hcode⟩ := blocked_exit cur m code .exit
  obtain ⟨hf, hy⟩ := schedYield_spec cur
    ((m.withKernel (procExit cur code m.kernel)).setPoint cur .exit)
  exact .block cur _ _ hc (.inl ⟨hp, h0⟩) (.exit code hcode) hb hf hy

theorem effect_nanosleep (hc : m.kernel.currentProc = some cur) (hp : m.point cur = .run)
    (h0 : cur ≠ 0) (s ns : U64) : Effect m (.nanosleep s ns) (sysNanosleep s ns cur m) := by
  obtain ⟨m₁, hb, -, -, -, he⟩ := blocked_sleep cur m s ns
  obtain ⟨hf, hy⟩ := schedYield_spec cur m₁
  rw [he]
  exact .block cur _ _ hc (.inl ⟨hp, h0⟩) (.sleep s ns) hb hf hy

theorem effect_signal (hc : m.kernel.currentProc = some cur) (hp : m.point cur = .run)
    (h0 : cur ≠ 0) : Effect m .signal (signalDeliver cur m) := by
  have hact : m.defaultAction cur = (signalLoop (m.sig cur).blocked (m.sig cur).handler
    (List.finRange 32).tail (m.sig cur).pending).2 := rfl
  simp only [signalDeliver]
  generalize signalLoop _ _ _ _ = r at hact ⊢
  obtain ⟨pending, act⟩ := r
  let m₀ := { m with sig := update m.sig cur { m.sig cur with pending := pending } }
  have lift {st pt m₁} (h : Blocked cur st pt m₀ m₁) : Blocked cur st pt m m₁ :=
    ⟨h.state, h.pid, h.ppid, h.exitCode, h.pml4, h.runQueue, h.currentProc, h.nextPid, h.irq0,
      h.point, h.reached, h.woken⟩
  dsimp only
  split
  · refine .keep ?_ rfl ⟨fun _ => rfl, fun _ => rfl, fun _ => rfl, fun _ => rfl, rfl, rfl, rfl, rfl,
      rfl, rfl, rfl, rfl, rfl⟩
    have hact' : m.defaultAction cur = none := hact
    simp [Machine.exitOf, hc, hact']
  · obtain ⟨hf, hy⟩ := schedYield_spec cur
      ((m₀.withKernel (m.kernel.setState cur .sleeping)).setPoint cur .signal)
    exact .block cur _ _ hc (.inl ⟨hp, h0⟩) (.stop hact)
      (lift (blocked_setState cur m₀ _ _)) hf hy
  · next sig h19 =>
    obtain ⟨hb, hcode⟩ := blocked_exit cur m₀ (128 + BitVec.ofNat 32 sig.val) .signal
    obtain ⟨hf, hy⟩ := schedYield_spec cur ((m₀.withKernel
      (procExit cur (128 + BitVec.ofNat 32 sig.val) m.kernel)).setPoint cur .signal)
    exact .block cur _ _ hc (.inl ⟨hp, h0⟩) (.die sig hact (fun h => h19 (h ▸ rfl)) hcode)
      (lift hb) hf hy

theorem waitOf_eq (hc : m.kernel.currentProc = some cur) {pid : BitVec 32} {e : Event}
    (he : e = .wait4 pid ∨ e = .resume ∧ m.point cur = .wait4 pid) :
    m.waitOf e = some (cur, pid) := by
  rcases he with rfl | ⟨rfl, hp⟩ <;> simp [Machine.waitOf, *]

theorem blocked_wait4 (cur : Fin maxProcs) {pid : BitVec 32} {child : Fin maxProcs}
    (hfind : procFind pid m.kernel = some child) (hz : m.state child ≠ .zombie) :
    ∃ m₁, Blocked cur .waiting (.wait4 pid) m m₁ ∧ m₁.kernel.phys = m.kernel.phys ∧
      sysWait4 pid cur m = schedYield cur m₁ := by
  have hz' : ¬ (m.kernel.procTable child).state = .zombie := hz
  refine ⟨_, blocked_setState cur m .waiting (.wait4 pid), rfl, ?_⟩
  simp only [sysWait4, wait4Round, hfind, if_neg hz']
  rfl

theorem reaped_wait4 {pid : BitVec 32} {child : Fin maxProcs}
    (hfind : procFind pid m.kernel = some child) (hz : m.state child = .zombie)
    (hp : m.point cur ≠ .tick) : Returns cur m (sysWait4 pid cur m) ∧
      ∀ i, (sysWait4 pid cur m).state i = if i = child then .unused else m.state i := by
  have hz' : (m.kernel.procTable child).state = .zombie := hz
  obtain ⟨hst, hpid, hppid, hcode, hpml4⟩ := setState_spec child .unused m.kernel
  simp only [sysWait4, wait4Round, hfind, if_pos hz']
  exact ⟨⟨hpid, hppid, hcode, hpml4, rfl, rfl, rfl, rfl, (if_neg hp).symm, rfl, rfl, rfl⟩, hst⟩

theorem effect_wait4 (hc : m.kernel.currentProc = some cur)
    (hp : m.point cur = .run ∧ cur ≠ 0 ∨ ∃ pid, m.point cur = .wait4 pid) {pid : BitVec 32}
    {e : Event} (he : e = .wait4 pid ∨ e = .resume ∧ m.point cur = .wait4 pid) :
    Effect m e (sysWait4 pid cur m) := by
  have hpt : m.point cur ≠ .tick ∧ m.point cur ≠ .broken := by
    rcases hp with ⟨hp, -⟩ | ⟨pid', hp⟩ <;> rw [hp] <;> exact ⟨nofun, nofun⟩
  cases hfind : procFind pid m.kernel with
  | none =>
    have hnoexit : m.exitOf e = none := by rcases he with rfl | ⟨rfl, -⟩ <;> rfl
    have hdel : m.deliveryOf e = none := by simp [Machine.deliveryOf, waitOf_eq hc he, hfind]
    simp only [sysWait4, wait4Round, hfind]
    exact .back cur hc hpt.2 hnoexit hdel (fun _ => rfl) ⟨fun _ => rfl, fun _ => rfl, fun _ => rfl,
      fun _ => rfl, rfl, rfl, rfl, rfl, (if_neg hpt.1).symm, rfl, rfl, rfl⟩
  | some child =>
    by_cases hz : m.state child = .zombie
    · obtain ⟨hret, hst⟩ := reaped_wait4 hfind hz hpt.1
      exact .reap cur child pid hc he hpt hfind hz hst hret
    · obtain ⟨m₁, hb, -, heq⟩ := blocked_wait4 cur hfind hz
      obtain ⟨hf, hy⟩ := schedYield_spec cur m₁
      rw [heq]
      exact .block cur _ _ hc hp (.wait pid child he hfind hz) hb hf hy

theorem waitOf_none (hc : m.kernel.currentProc = some cur) (hp : ∀ pid, m.point cur ≠ .wait4 pid) :
    m.waitOf .resume = none := by
  simp only [Machine.waitOf, hc]
  cases h : m.point cur <;> simp_all

theorem effect_resume {m' : Machine} (hc : m.kernel.currentProc = some cur)
    (he : m.resume cur = some m') : Effect m .resume m' := by
  have back {pt : Point} (hpt : m.point cur = pt) (b : Bool) (hp : pt ≠ .broken)
      (hw : ∀ pid, pt ≠ .wait4 pid) (hb : b = if pt = .tick then false else m.irq0) :
      Effect m .resume ({ m with irq0 := b }.setPoint cur .run) := by
    subst hpt
    exact .back cur hc hp rfl (by simp [Machine.deliveryOf, waitOf_none hc hw]) (fun _ => rfl)
      ⟨fun _ => rfl, fun _ => rfl, fun _ => rfl, fun _ => rfl, rfl, rfl, rfl, rfl, hb, rfl, rfl,
        rfl⟩
  simp only [Machine.resume] at he
  split at he
  · next hp => exact Option.some.inj he ▸ back hp m.irq0 nofun nofun rfl
  · next hp => exact Option.some.inj he ▸ back hp false nofun nofun rfl
  · next hp => exact Option.some.inj he ▸ back hp m.irq0 nofun nofun rfl
  · next hp => exact Option.some.inj he ▸ back hp m.irq0 nofun nofun rfl
  · next pid hp =>
    exact Option.some.inj he ▸ effect_wait4 hc (.inr ⟨pid, hp⟩) (.inr ⟨rfl, hp⟩)
  all_goals cases he

theorem effect_tick (hc : m.kernel.currentProc = some cur)
    (hp : m.point cur = .run ∨ m.point cur = .fresh) : Effect m .tick (handlePit cur m) := by
  have hpt : m.point cur ≠ .broken := by
    rcases hp with hp | hp <;> rw [hp] <;> nofun
  rcases handlePit_cases cur m with ⟨-, ht, hi, hpt', -⟩ | ⟨-, m₁, ht, hi, hpt', he⟩
  · exact .ack ht hi hpt'
  · obtain ⟨hf, hy⟩ := schedYield_spec cur m₁
    rw [← he] at hf hy
    exact .preempt cur hc hpt ht hi hpt' rfl hf hy

end Steps

theorem MStep.effect {m m' : Machine} {e : Event} (h : MStep SameSched m e m') :
    Effect m e m' := by
  cases h with
  | tick cur hc hp => exact effect_tick hc hp
  | fork cur ctx hc h0 hp => exact .create cur hc hp (.inr ⟨ctx, rfl⟩) (fork_creation ctx cur m)
  | exit cur code hc h0 hp => exact effect_exit hc hp h0 code
  | wait4 cur pid hc h0 hp => exact effect_wait4 hc (.inl ⟨hp, h0⟩) (.inl rfl)
  | nanosleep cur s ns hc h0 hp => exact effect_nanosleep hc hp h0 s ns
  | kill cur pid sig hc h0 hp => exact signalSend_effect m pid sig
  | signal cur hc h0 hp => exact effect_signal hc hp h0
  | spawn _ ld stub hc hp he => exact .create 0 hc hp (.inl rfl) (spawn_creation he)
  | resume _ cur hc he => exact effect_resume hc he
  | other _ he => exact .keep rfl rfl he

end Sinux.Proc

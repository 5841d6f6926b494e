import Sinux.Proc.Signals

/-!
# Stopped processes

`SIGSTOP` puts a process to `PROC_SLEEPING`, the state of `sched_sleep`, and leaves its `ticks`
alone. `sched_tick` wakes every queued process in that state whose `ticks` the timer has reached.

* `schedTick`, `ticks`: `sched_tick`, and a run of it at any counts of the timer.
* `stays_stopped_iff`: **a stopped process stays stopped** exactly if it is not in the run queue, or
  every count is below the `ticks` that an earlier sleep left.
* `stopped_wakes`: one that never slept is ready at the next tick.
-/

namespace Sinux.Proc

open Sinux.Lib Sinux.Mm

/-- `sched_tick`. -/
def schedTick (m : Machine) : Machine :=
  match m.kernel.currentProc with
  | none => m
  | some cur =>
    let m := wakeSleepers m
    let m := m.withKernel (m.kernel.upd cur fun p => { p with timeslice := p.timeslice - 1 })
    if (0#32).slt (m.kernel.procTable cur).timeslice then m
    else schedYield cur (m.setPoint cur .tick)

/-- Ticks while `pit_ticks()` returns the counts in turn. -/
def ticks : List U64 → Machine → Machine
  | [], m => m
  | c :: cs, m => ticks cs (schedTick { m with pitTicks := c })

variable {m : Machine} {cur p : Fin maxProcs}

theorem handlePit_schedTick (hc : m.kernel.currentProc = some cur) :
    handlePit cur m =
      let t := schedTick { m with irq0 := true, pitTicks := m.pitTicks + 1 }
      if (0#32).slt ((m.kernel.procTable cur).timeslice - 1) then { t with irq0 := false }
      else t := by
  have hslice := (wakeSleepers_ticked m (m.pitTicks + 1) true).2.2.2 cur
  simp only [handlePit, schedTick, hc]
  generalize wakeSleepers { m with irq0 := true, pitTicks := m.pitTicks + 1 } = w at hslice ⊢
  have hleft : ((w.kernel.upd cur fun p => { p with timeslice := p.timeslice - 1 }).procTable
      cur).timeslice = (m.kernel.procTable cur).timeslice - 1 := by
    rw [upd_self, ← hslice]
  simp only [Machine.withKernel, hleft]
  split <;> rfl

/-! ## One tick -/

theorem wakeSleepers_state (m : Machine) (p : Fin maxProcs) :
    (wakeSleepers m).state p = if m.Due p then .ready else m.state p := by
  unfold wakeSleepers Machine.state
  dsimp only
  split <;> rfl

theorem schedYield_sleeping (cur p : Fin maxProcs) (m : Machine) :
    (schedYield cur m).state p = .sleeping ↔ m.state p = .sleeping := by
  obtain ⟨-, hcase⟩ := schedYield_spec cur m
  cases hcase with
  | stay _ hst _ _ => rw [hst]
  | switch next _ _ hr hst _ _ =>
    rw [hst]
    by_cases hp : p = next
    · rw [if_pos hp, hp, hr]
      exact iff_of_false nofun nofun
    · rw [if_neg hp]
      split
      · next hcur =>
        rw [hcur.1, hcur.2]
        exact iff_of_false nofun nofun
      · exact Iff.rfl

/-- What ticks leave alone. -/
structure TickFrame (m m' : Machine) : Prop where
  queue : m'.kernel.runQueue.queue = m.kernel.runQueue.queue
  procTicks : m'.procTicks = m.procTicks
  current : m'.kernel.currentProc = none ↔ m.kernel.currentProc = none

theorem TickFrame.trans {m' m'' : Machine} (h : TickFrame m m') (h' : TickFrame m' m'') :
    TickFrame m m'' :=
  ⟨h'.queue.trans h.queue, h'.procTicks.trans h.procTicks, h'.current.trans h.current⟩

theorem TickFrame.queued {m' : Machine} (h : TickFrame m m') (p : Fin maxProcs) :
    m'.Queued p ↔ m.Queued p := by
  rw [Machine.Queued, Machine.Queued, h.queue]

theorem wakeSleepers_frame (m : Machine) : TickFrame m (wakeSleepers m) := by
  unfold wakeSleepers
  exact ⟨rfl, rfl, Iff.rfl⟩

/-- The end of a tick, once the sleepers are awake: the slice, and `sched_yield` if it is used
up. -/
theorem schedTick_end (hc : m.kernel.currentProc = some cur) :
    TickFrame (wakeSleepers m) (schedTick m) ∧ ∀ p,
      (schedTick m).state p = .sleeping ↔ (wakeSleepers m).state p = .sleeping := by
  have hc' : (wakeSleepers m).kernel.currentProc = some cur := by
    unfold wakeSleepers
    exact hc
  simp only [schedTick, hc]
  generalize wakeSleepers m = w at hc' ⊢
  set u := w.withKernel (w.kernel.upd cur fun p => { p with timeslice := p.timeslice - 1 })
  have hcu : u.kernel.currentProc = some cur := hc'
  have hst (p : Fin maxProcs) : u.state p = w.state p := upd_field (k := w.kernel) (i := cur)
    (f := fun p => { p with timeslice := p.timeslice - 1 }) (g := Process.state) fun _ => rfl
  split
  · exact ⟨⟨rfl, rfl, Iff.rfl⟩, fun p => by rw [hst p]⟩
  · obtain ⟨hy, hcase⟩ := schedYield_spec cur (u.setPoint cur .tick)
    refine ⟨⟨hy.queue, hy.procTicks, ?_⟩, fun p => ?_⟩
    · cases hcase with
      | stay _ _ hcur _ => rw [hcur, hc', ← hcu]; rfl
      | switch next _ _ _ _ hcur _ =>
        rw [hcur, hc']
        exact iff_of_false (Option.some_ne_none next) (Option.some_ne_none cur)
    · rw [schedYield_sleeping, ← hst p]
      rfl

/-- **One tick** leaves asleep exactly those that are not due. -/
theorem schedTick_sleeping (hc : m.kernel.currentProc = some cur) (p : Fin maxProcs) :
    (schedTick m).state p = .sleeping ↔ m.state p = .sleeping ∧ ¬ m.Due p := by
  rw [(schedTick_end hc).2, wakeSleepers_state]
  by_cases hd : m.Due p
  · rw [if_pos hd]
    exact iff_of_false nofun fun h => h.2 hd
  · rw [if_neg hd, and_iff_left hd]

theorem schedTick_frame (hc : m.kernel.currentProc = some cur) : TickFrame m (schedTick m) :=
  (wakeSleepers_frame m).trans (schedTick_end hc).1

/-! ## All ticks -/

/-- **A run of ticks** leaves a sleeping process asleep exactly if nobody ticks, it is not queued,
or its time does not come. -/
theorem ticks_sleeping (cs : List U64) (m : Machine) (p : Fin maxProcs) :
    (ticks cs m).state p = .sleeping ↔ m.state p = .sleeping ∧
      (m.kernel.currentProc = none ∨ ¬ m.Queued p ∨ ∀ c ∈ cs, c < m.procTicks p) := by
  induction cs generalizing m with
  | nil => simp [ticks]
  | cons c cs ih =>
    rw [ticks, ih]
    cases hc : m.kernel.currentProc with
    | none =>
      have htick : schedTick { m with pitTicks := c } = { m with pitTicks := c } := by
        simp only [schedTick, hc]
      rw [htick, hc]
      simp [Machine.state]
    | some cur =>
      have hc' : { m with pitTicks := c }.kernel.currentProc = some cur := hc
      have hf := schedTick_frame hc'
      have hcur : (schedTick { m with pitTicks := c }).kernel.currentProc ≠ none := by
        rw [Ne, hf.current, hc']
        exact Option.some_ne_none cur
      have hdue : { m with pitTicks := c }.Due p ↔ m.Queued p ∧ m.state p = .sleeping ∧
          m.procTicks p ≤ c := Iff.rfl
      have hst : { m with pitTicks := c }.state p = m.state p := rfl
      have hq : { m with pitTicks := c }.Queued p ↔ m.Queued p := Iff.rfl
      rw [schedTick_sleeping hc', hf.queued, hf.procTicks, hdue, hst, hq]
      simp only [hcur, false_or, reduceCtorEq, List.forall_mem_cons]
      rw [and_assoc]
      refine and_congr_right fun hs => ?_
      simp only [hs, true_and, not_and, BitVec.not_le]
      tauto

theorem Wakes.state_self {m' : Machine} (h : Wakes p m m') : m'.state p = .ready := by
  rw [h.state, if_pos rfl]

theorem schedWake_state (h : m.state p = .sleeping) : (schedWake p m).state p = .ready := by
  have h' : (m.kernel.procTable p).state = .sleeping := h
  rw [schedWake, if_pos (Or.inl h')]
  exact ((setState_spec p .ready m.kernel).1 p).trans (if_pos rfl)

/-- **Stopped processes.** `SIGSTOP` is the first fatal signal of `cur`. In the machine `m₁` after
`signal_deliver` the process sleeps, whatever its `ticks`. A run of ticks leaves it asleep exactly
if it is not in the run queue or no count has reached its `ticks`, so every run does exactly if it
is not queued (there is always a current process). As long as it sleeps `sched_wake` and
`signal_send` make it ready. -/
theorem stays_stopped_iff (run : HandlerRun) (hc : m.kernel.currentProc = some cur)
    (hrun : ∀ h sig m, (run h sig m).sig cur = m.sig cur)
    (hstop : IsLeast {sig | sig ∈ signals ∧ (m.sig cur).Fatal sig} 19) :
    let m₁ := (signalDeliverCalls run m).2
    m₁.state cur = .sleeping ∧
    (∀ cs, (ticks cs m₁).state cur = .sleeping ↔
      m₁.kernel.currentProc = none ∨ ¬ m₁.Queued cur ∨ ∀ c ∈ cs, c < m₁.procTicks cur) ∧
    ((∀ cs, (ticks cs m₁).state cur = .sleeping) ↔
      m₁.kernel.currentProc = none ∨ ¬ m₁.Queued cur) ∧
    ∀ cs, (ticks cs m₁).state cur = .sleeping →
      (schedWake cur (ticks cs m₁)).state cur = .ready ∧
      ∀ pid sig, 1 ≤ sig.toInt → sig.toInt < 32 → procFind pid (ticks cs m₁).kernel = some cur →
        (signalSend pid sig (ticks cs m₁)).2.state cur = .ready := by
  intro m₁
  have hk : (m.sig cur).firstFatal signals = some 19 :=
    (SigState.mem_firstFatal signals_ascending).mpr hstop
  have hsleep : m₁.state cur = .sleeping := by
    have hdone := deliverLoop_done hrun signals m signals_ascending
    rw [← signalDeliverCalls_eq hc] at hdone
    exact (hdone.action 19 hk).stopped rfl
  have hruns (cs : List U64) : (ticks cs m₁).state cur = .sleeping ↔
      m₁.kernel.currentProc = none ∨ ¬ m₁.Queued cur ∨ ∀ c ∈ cs, c < m₁.procTicks cur := by
    rw [ticks_sleeping, and_iff_right hsleep]
  refine ⟨hsleep, hruns, ⟨fun h => ?_, fun h cs => (hruns cs).mpr (h.imp_right Or.inl)⟩,
    fun cs hs => ⟨?_, fun pid sig h1 h32 hfind => ?_⟩⟩
  · -- the time of every process comes
    rcases (hruns [BitVec.allOnes 64]).mp (h _) with h0 | hq | hlt
    · exact Or.inl h0
    · exact Or.inr hq
    · have hmax := hlt _ (List.mem_singleton_self _)
      have hle : m₁.procTicks cur ≤ BitVec.allOnes 64 := by
        rw [BitVec.le_def, BitVec.toNat_allOnes]
        omega
      exact absurd hmax (BitVec.not_lt.mpr hle)
  · exact schedWake_state hs
  · refine (signalSend_wakes _ sig ?_ hfind (Or.inl hs)).state_self
    simp only [BitVec.slt_iff_toInt_lt, not_or, not_not]
    exact ⟨not_lt.mpr h1, h32⟩

/-- Process 1 has the processor and is the only one in the queue; `SIGSTOP` is pending, and it has
slept until tick `t` before. -/
def toStop (t : U64) : Machine :=
  let p : Process := { Process.zero with state := .running, timeslice := 5 }
  let k : Kernel := ⟨eightPages, 0, fun _ => p, some 1, 2, fun _ => 0,
    ⟨fun idx => if idx = 0 then some 1 else none, 0, 1, 1⟩⟩
  { Machine.boot (fun _ => 0) k with
    kernel := k, sig := fun _ => ⟨0x80000, 0, fun _ => sigDfl⟩, procTicks := fun _ => t }

/-- A process that is to sleep until tick 100 is asleep after 50 ticks. -/
theorem stays_stopped_hundred :
    (ticks (List.replicate 50 99) (signalDeliverCalls (fun _ _ m => m) (toStop 100)).2).state 1 =
      .sleeping := by
  have hk : ((toStop 100).sig 1).firstFatal signals = some 19 := by decide
  have hc : (toStop 100).kernel.currentProc = some 1 := rfl
  obtain ⟨-, h, -⟩ := stays_stopped_iff (fun _ _ m => m) hc (fun _ _ _ => rfl)
    ((SigState.mem_firstFatal signals_ascending).mp hk)
  refine (h _).mpr (Or.inr (Or.inr fun c hc => ?_))
  rw [List.eq_of_mem_replicate hc]
  decide +kernel

/-- **A stopped process goes on.** It has never slept, so its `ticks` is 0, and the first tick makes
it ready. -/
theorem stopped_wakes :
    (signalDeliverCalls (fun _ _ m => m) (toStop 0)).2.state 1 = .sleeping ∧
    (ticks [1] (signalDeliverCalls (fun _ _ m => m) (toStop 0)).2).state 1 = .ready := by
  decide +kernel

end Sinux.Proc

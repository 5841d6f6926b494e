import Sinux.Proc.Spawn
import Sinux.Proc.KernelStack

/-!
# Process states

A process that sleeps, waits or exits sets its state and calls `sched_yield`. If nobody else is ready
`sched_yield` returns to it, and it goes on as if it had been woken.

* `states_sound`: in every run in which somebody else is ready whenever a process blocks, the
  current process is the only one in `PROC_RUNNING`, and it has not come back from `sched_sleep`
  before its time.
-/

namespace Sinux.Proc

open Function Sinux.Lib Sinux.Mm

/-- The event makes the current process call `sched_yield` in a state other than `PROC_RUNNING`. -/
def Blocks (m : Machine) : Event → Prop
  | .exit _ => True
  | .nanosleep _ _ => True
  | .wait4 pid => ∃ c, procFind pid m.kernel = some c ∧ m.state c ≠ .zombie
  | .resume => ∃ cur pid c, m.kernel.currentProc = some cur ∧ m.point cur = .wait4 pid ∧
      procFind pid m.kernel = some c ∧ m.state c ≠ .zombie
  | .signal => ∃ cur, m.kernel.currentProc = some cur ∧ m.defaultAction cur ≠ none
  | _ => False

/-- A process that blocks leaves the processor to somebody. -/
def SomeoneReady (m : Machine) (e : Event) : Prop :=
  Blocks m e → ∃ p, m.Queued p ∧ m.state p = .ready

/-- The state machine of the scheduler. -/
structure StatesSound (m : Machine) (c : Fin maxProcs) : Prop where
  current : m.kernel.currentProc = some c
  running : m.state c = .running
  unique : ∀ i, i ≠ c → m.state i ≠ .running
  /-- `sched_sleep` has returned because its time had come or a signal had woken the process. -/
  slept : m.point c = .sleep → m.reached c = true ∨ m.woken c = true
  /-- `sys_exit` has not returned. -/
  exited : m.point c ≠ .exit

/-- A process suspended in `sched_sleep` is asleep or was woken, one suspended in `sys_exit` is
gone. -/
structure PointInv (m : Machine) (i : Fin maxProcs) : Prop where
  sleep : m.point i = .sleep → m.state i = .sleeping ∨ m.reached i = true ∨ m.woken i = true
  exit : m.point i = .exit → m.state i = .zombie ∨ m.state i = .unused

/-- The invariant. -/
structure StateInv (m : Machine) : Prop where
  current : ∃ c, m.kernel.currentProc = some c ∧ m.state c = .running ∧
    ∀ i, i ≠ c → m.state i ≠ .running
  points : ∀ i, PointInv m i

theorem StateInv.sound {m : Machine} (h : StateInv m) : ∃ c, StatesSound m c := by
  obtain ⟨c, hc, hr, hu⟩ := h.current
  refine ⟨c, hc, hr, hu, fun hp => ?_, fun hp => ?_⟩
  · rcases (h.points c).sleep hp with hs | hs
    · rw [hr] at hs
      cases hs
    · exact hs
  · rcases (h.points c).exit hp with hs | hs <;> rw [hr] at hs <;> cases hs

theorem BlockKind.blocks {cur : Fin maxProcs} {m m' : Machine} {e : Event} {st : ProcState}
    {pt : Point} (h : BlockKind cur m m' e st pt) (hc : m.kernel.currentProc = some cur) :
    Blocks m e ∧ st ≠ .running ∧ st ≠ .ready ∧ (pt = .sleep → st = .sleeping) ∧
      (pt = .exit → st = .zombie) := by
  cases h with
  | exit code _ => exact ⟨trivial, nofun, nofun, nofun, fun _ => rfl⟩
  | sleep s ns => exact ⟨trivial, nofun, nofun, fun _ => rfl, nofun⟩
  | wait pid child he hfind hz =>
    refine ⟨?_, nofun, nofun, nofun, nofun⟩
    rcases he with rfl | ⟨rfl, hp⟩
    · exact ⟨child, hfind, hz⟩
    · exact ⟨cur, pid, child, hc, hp, hfind, hz⟩
  | stop hact => exact ⟨⟨cur, hc, by rw [hact]; nofun⟩, nofun, nofun, nofun, nofun⟩
  | die sig hact _ _ => exact ⟨⟨cur, hc, by rw [hact]; nofun⟩, nofun, nofun, nofun, nofun⟩

theorem pointInv_of_point {m : Machine} {i : Fin maxProcs} (pt : Point) (h : m.point i = pt)
    (hs : pt ≠ .sleep) (he : pt ≠ .exit) : PointInv m i :=
  ⟨fun hp => absurd (h.symm.trans hp) hs, fun hp => absurd (h.symm.trans hp) he⟩

theorem PointInv.congr {m m' : Machine} {i : Fin maxProcs} (h : PointInv m i)
    (hp : m'.point i = m.point i) (hst : m'.state i = m.state i)
    (hr : m.reached i = true → m'.reached i = true)
    (hw : m.woken i = true → m'.woken i = true) : PointInv m' i := by
  refine ⟨fun hs => ?_, fun he => ?_⟩
  · rw [hst]
    exact (h.sleep (hp ▸ hs)).imp_right (Or.imp hr hw)
  · rw [hst]
    exact h.exit (hp ▸ he)

theorem PointInv.ticked {m m' : Machine} {i : Fin maxProcs} (h : PointInv m i)
    (ht : Ticked m m') (hp : m'.point i = m.point i) : PointInv m' i := by
  rcases ht.state i with hst | ⟨hsl, -, hr⟩
  · exact h.congr hp hst (ht.reached i) fun hw => by rw [ht.woken]; exact hw
  · refine ⟨fun _ => .inr (.inl hr), fun he => ?_⟩
    rcases h.exit (hp ▸ he) with hz | hz <;> rw [hsl] at hz <;> cases hz

theorem Ticked.running_iff {m m' : Machine} (h : Ticked m m') (i : Fin maxProcs) :
    m'.state i = .running ↔ m.state i = .running := by
  rcases h.state i with hst | ⟨hsl, hr, -⟩
  · rw [hst]
  · rw [hsl, hr]
    exact ⟨nofun, nofun⟩

/-- `cur` calls `sched_yield`: it is running, or somebody else is ready. -/
structure YieldPre (cur : Fin maxProcs) (m : Machine) : Prop where
  current : m.kernel.currentProc = some cur
  unique : ∀ i, i ≠ cur → m.state i ≠ .running
  points : ∀ i, PointInv m i
  ready : m.state cur = .running ∨ m.state cur ≠ .ready ∧ ∃ p, m.Queued p ∧ m.state p = .ready

theorem stateInv_yield {cur : Fin maxProcs} {m m' : Machine} (h : YieldPre cur m)
    (hf : YieldFrame m m') (hy : YieldCase cur m m') : StateInv m' := by
  have hpt (i : Fin maxProcs) : m'.point i = m.point i := by rw [hf.point]
  have hr (i : Fin maxProcs) : m.reached i = true → m'.reached i = true := by
    rw [hf.reached]
    exact id
  have hw (i : Fin maxProcs) : m.woken i = true → m'.woken i = true := by
    rw [hf.woken]
    exact id
  cases hy with
  | stay hno hst hcur _ =>
    rcases h.ready with hrun | ⟨hnr, p, hq, hp⟩
    · refine ⟨⟨cur, hcur.trans h.current, (hst cur).trans hrun, fun i hi => ?_⟩, fun i => ?_⟩
      · rw [hst]
        exact h.unique i hi
      · exact (h.points i).congr (hpt i) (hst i) (hr i) (hw i)
    · rcases hno with hno | hc
      · exact absurd hp (hno p hq)
      · exact absurd hc hnr
  | switch next hne _ hready hst hcur _ =>
    refine ⟨⟨next, hcur, (hst next).trans (if_pos rfl), fun i hi => ?_⟩, fun i => ?_⟩
    · rw [hst, if_neg hi]
      split
      · nofun
      · next hnot =>
        by_cases hic : i = cur
        · exact fun hrun => hnot ⟨hic, hic ▸ hrun⟩
        · exact h.unique i hic
    · -- whoever was running or ready is at neither of the two points, or was woken
      have hlive (hl : m.state i = .ready ∨ m.state i = .running) : PointInv m' i := by
        refine ⟨fun hs => ?_, fun he => ?_⟩
        · rcases (h.points i).sleep (hpt i ▸ hs) with hsl | hrw
          · rcases hl with hl | hl <;> rw [hsl] at hl <;> cases hl
          · exact .inr (hrw.imp (hr i) (hw i))
        · rcases (h.points i).exit (hpt i ▸ he) with hz | hz <;> rw [hz] at hl <;>
            rcases hl with hl | hl <;> cases hl
      have hst' := hst i
      split at hst'
      · next hi => exact hlive (.inl (hi ▸ hready))
      · split at hst'
        · next hc => exact hlive (.inr (hc.1 ▸ hc.2))
        · exact (h.points i).congr (hpt i) hst' (hr i) (hw i)

theorem StateInv.stay {m m' : Machine} (inv : StateInv m)
    (hcur : m'.kernel.currentProc = m.kernel.currentProc)
    (hrun : ∀ i, m'.state i = .running ↔ m.state i = .running)
    (hpt : ∀ i, PointInv m i → PointInv m' i) : StateInv m' := by
  obtain ⟨c, hc, hr, hu⟩ := inv.current
  exact ⟨⟨c, hcur.trans hc, (hrun c).mpr hr, fun i hi h => hu i hi ((hrun i).mp h)⟩,
    fun i => hpt i (inv.points i)⟩

theorem StateInv.claims {m m' : Machine} (inv : StateInv m) {i : Fin maxProcs} {st : ProcState}
    {q : RunQueue} {pt : Point} (h : Claims i st q m.kernel m'.kernel) (hm : ClaimFrame i pt m m')
    (hst : st ≠ .running) (hs : pt ≠ .sleep) (he : pt ≠ .exit) : StateInv m' := by
  refine inv.stay h.currentProc (fun j => ?_) fun j hj => ?_
  · by_cases hji : j = i
    · rw [hji, Machine.state, h.state, Machine.state, h.free]
      exact ⟨fun hx => absurd hx hst, fun hx => by cases hx⟩
    · rw [Machine.state, h.others j hji]
      rfl
  · by_cases hji : j = i
    · exact pointInv_of_point pt (by rw [hm.point, hji, update_self]) hs he
    · refine hj.congr (by rw [hm.point, update_of_ne hji])
        (congrArg Process.state (h.others j hji)) ?_ ?_
      · rw [hm.reached]
        exact id
      · rw [hm.woken]
        exact id

theorem StateInv.returns {m m' : Machine} (inv : StateInv m) {cur : Fin maxProcs}
    (h : Returns cur m m') (hst : ∀ i, m'.state i = m.state i ∨
      m.state i = .zombie ∧ m'.state i = .unused) : StateInv m' := by
  refine inv.stay h.currentProc (fun i => ?_) fun i hi => ?_
  · rcases hst i with hi | ⟨hz, hu⟩
    · rw [hi]
    · rw [hz, hu]
      exact ⟨nofun, nofun⟩
  · by_cases hic : i = cur
    · exact pointInv_of_point .run (by rw [h.point, hic, update_self]) nofun nofun
    · have hp : m'.point i = m.point i := by rw [h.point, update_of_ne hic]
      rcases hst i with hs | ⟨hz, hu⟩
      · refine hi.congr hp hs ?_ ?_
        · rw [h.reached]
          exact id
        · rw [h.woken]
          exact id
      · refine ⟨fun hsl => ?_, fun _ => .inr hu⟩
        rw [h.reached, h.woken]
        exact (hi.sleep (hp ▸ hsl)).imp_left fun hx => by rw [hz] at hx; cases hx

theorem stateInv_step {m m' : Machine} {e : Event} (inv : StateInv m) (hok : SomeoneReady m e)
    (hst : MStep SameSched m e m') : StateInv m' := by
  obtain ⟨c, hc, hrun, huniq⟩ := inv.current
  have hcur {cur : Fin maxProcs} (h : m.kernel.currentProc = some cur) : cur = c :=
    Option.some.inj (h.symm.trans hc)
  have hsame (h : SameSched m m') : StateInv m' :=
    inv.stay h.currentProc (fun i => by rw [h.state]) fun i hi =>
      hi.congr (by rw [h.point]) (h.state i) (by rw [h.reached]; exact id)
        (by rw [h.woken]; exact id)
  cases hst.effect with
  | keep _ _ h => exact hsame h
  | ack ht _ hpt =>
    exact inv.stay ht.currentProc ht.running_iff fun i hi => hi.ticked ht (by rw [hpt])
  | preempt cur hc' _ ht _ hpt _ hf hy =>
    obtain rfl := hcur hc'
    refine stateInv_yield ⟨ht.currentProc.trans hc, fun i hi hr => huniq i hi
      ((ht.running_iff i).mp hr), fun i => ?_, .inl ((ht.running_iff cur).mpr hrun)⟩ hf hy
    by_cases hic : i = cur
    · exact pointInv_of_point .tick (by rw [hpt, hic, update_self]) nofun nofun
    · exact (inv.points i).ticked ht (by rw [hpt, update_of_ne hic])
  | block cur st pt hc' _ hk hb hf hy =>
    obtain rfl := hcur hc'
    obtain ⟨hbl, hnrun, hnready, hsl, hex⟩ := hk.blocks hc
    have hst_cur := (hb.state cur).trans (if_pos rfl)
    have hst_ne {i : Fin maxProcs} (hi : i ≠ cur) := (hb.state i).trans (if_neg hi)
    refine stateInv_yield ⟨hb.currentProc.trans hc, fun i hi => by rw [hst_ne hi]; exact huniq i hi,
      fun i => ?_, .inr ⟨by rw [hst_cur]; exact hnready, ?_⟩⟩ hf hy
    · by_cases hic : i = cur
      · subst hic
        have hp : _ = pt := (congrFun hb.point i).trans (update_self ..)
        exact ⟨fun hs => .inl (hst_cur.trans (hsl (hp.symm.trans hs))),
          fun he => .inl (hst_cur.trans (hex (hp.symm.trans he)))⟩
      · exact (inv.points i).congr (by rw [hb.point, update_of_ne hic]) (hst_ne hic)
          (by rw [hb.reached i hic]; exact id) (by rw [hb.woken i hic]; exact id)
    · obtain ⟨p, ⟨idx, hidx⟩, hp⟩ := hok hbl
      have hpc : p ≠ cur := fun h => by rw [h, hrun] at hp; cases hp
      exact ⟨p, ⟨idx, by rw [hb.runQueue]; exact hidx⟩, (hst_ne hpc).trans hp⟩
  | create cur _ _ _ h =>
    cases h with
    | same h => exact hsame h
    | failed i st hst' h hm _ =>
      exact inv.claims h hm (by rcases hst' with rfl | rfl <;> nofun) nofun nofun
    | added i h hm _ => exact inv.claims h hm nofun nofun nofun
  | wake p _ _ h =>
    refine inv.stay h.currentProc (fun i => ?_) fun i hi => ?_
    · rw [h.state]
      split
      · next hip =>
        rcases h.blocked with hb | hb <;> rw [hip, hb] <;> exact ⟨nofun, nofun⟩
      · rfl
    · by_cases hip : i = p
      · subst hip
        refine ⟨fun _ => .inr (.inr (by rw [h.woken, update_self])), fun he => ?_⟩
        rcases hi.exit (by rw [← h.point]; exact he) with hz | hz <;> rcases h.blocked with hb | hb <;>
          rw [hz] at hb <;> cases hb
      · exact hi.congr (by rw [h.point]) ((h.state i).trans (if_neg hip))
          (by rw [h.reached]; exact id) (by rw [h.woken, update_of_ne hip]; exact id)
  | back cur _ _ _ _ hst' h => exact inv.returns h fun i => .inl (hst' i)
  | reap cur child pid _ _ _ _ hz hst' h =>
    refine inv.returns h fun i => ?_
    have hi := hst' i
    split at hi
    · next hic => exact .inr ⟨hic ▸ hz, hi⟩
    · exact .inl hi

theorem stateInv_of_reach {tty : Fin 64 → U64} {k : Kernel} {m : Machine}
    (hr : MReach SameSched SomeoneReady tty k m) : StateInv m := by
  induction hr with
  | refl =>
    refine ⟨⟨0, rfl, rfl, fun i hi => ?_⟩, fun i => ?_⟩
    · rw [boot_state, if_neg hi]
      nofun
    · have hp : (Machine.boot tty k).point i = if i = 0 then .run else .broken := rfl
      by_cases hi : i = 0
      · exact pointInv_of_point .run (hp.trans (if_pos hi)) nofun nofun
      · exact pointInv_of_point .broken (hp.trans (if_neg hi)) nofun nofun
  | tail _ hst ih =>
    obtain ⟨e, hok, hst⟩ := hst
    exact stateInv_step ih hok hst

/-- **The process states are sound while nobody blocks alone.** In every state of a run in which
some queued process is ready whenever the current one sleeps, waits or exits, the current process is
the only running one, `sched_sleep` returned to it only if its time had come or a signal woke it,
and it has not come back from `sys_exit`. -/
theorem states_sound {tty : Fin 64 → U64} {k : Kernel} {m : Machine}
    (hr : MReach SameSched SomeoneReady tty k m) : ∃ c, StatesSound m c :=
  (stateInv_of_reach hr).sound

theorem someoneReady_allows : AllowsFirstRun SomeoneReady where
  spawn := fun _ _ h => h.elim
  tick := fun _ _ h => h.elim
  resume := fun _ c hc hp h => by
    obtain ⟨cur, pid, -, hcur, hpt, -⟩ := h
    rw [Option.some.inj (hcur.symm.trans hc), hp] at hpt
    cases hpt

/-- The first process runs in such a run. -/
theorem states_sound_firstRun : ∃ m, MReach SameSched SomeoneReady (fun _ => 0) bootKernel m ∧
    m.kernel.currentProc ≠ some 0 ∧ ∃ c, StatesSound m c := by
  obtain ⟨i, g, f, m₀, m, hs, h, hr⟩ := first_run someoneReady_allows (fun _ => 0)
    (k := bootKernel) sixteenPages_valid bootKernel_room 0x400000 0 0x100000
  refine ⟨m, hr, ?_, states_sound hr⟩
  rw [h.current]
  exact fun h0 => hs.claims.ne_zero (Option.some.inj h0)

theorem sleep_alone {i : Fin maxProcs} {m : Machine} (hc : m.kernel.currentProc = some i)
    (hq : ∀ p, m.Queued p → p = i) (s ns : U64) :
    let m' := sysNanosleep s ns i m
    m'.kernel.currentProc = some i ∧ m'.state i = .sleeping ∧ m'.point i = .sleep ∧
      m'.reached i = false ∧ m'.woken i = false := by
  intro m'
  obtain ⟨m₁, hb, -, hre, hw, hm⟩ := blocked_sleep i m s ns
  obtain ⟨hf, hy⟩ := schedYield_spec i m₁
  rw [← hm] at hf hy
  cases hy with
  | stay _ hst hcur _ =>
    refine ⟨hcur.trans (hb.currentProc.trans hc), (hst i).trans ((hb.state i).trans (if_pos rfl)),
      ?_, ?_, ?_⟩
    · rw [hf.point, hb.point, update_self]
    · rw [hf.reached]
      exact hre
    · rw [hf.woken]
      exact hw
  | switch next hne hnq _ _ _ _ =>
    obtain ⟨idx, hidx⟩ := hnq
    exact absurd (hq next ⟨idx, by rw [← hb.runQueue]; exact hidx⟩) hne

/-- **A sleeper goes on at once.** The first process calls `nanosleep` for an hour. Nobody else is
ready, `sched_yield` returns to it in state `PROC_SLEEPING`, and neither a tick nor a signal has come
in between. -/
theorem sleep_returns_at_once : ∃ m c, MReach SameSched PicOk (fun _ => 0) bootKernel m ∧
    m.kernel.currentProc = some c ∧ m.state c = .sleeping ∧ m.point c = .sleep ∧
    m.reached c = false ∧ m.woken c = false ∧ ¬ ∃ c, StatesSound m c := by
  obtain ⟨i, g, f, m₀, m, hs, h, hr⟩ := first_run picOk_allows (fun _ => 0) (k := bootKernel)
    sixteenPages_valid bootKernel_room 0x400000 0 0x100000
  have hrun : m.point i = .run := by rw [h.point, update_self]
  have hq (p : Fin maxProcs) (hp : m.Queued p) : p = i := by
    obtain ⟨idx, hidx⟩ := hp
    exact (hs.queued p).mp ⟨idx, by rw [← h.queue]; exact hidx⟩
  obtain ⟨hc, hst, hp, hre, hw⟩ := sleep_alone h.current hq 3600 0
  refine ⟨_, i, hr.tail ⟨.nanosleep 3600 0, nofun, .nanosleep m i 3600 0 h.current
    hs.claims.ne_zero hrun⟩, hc, hst, hp, hre, hw, ?_⟩
  rintro ⟨c, hsound⟩
  have hic : c = i := Option.some.inj (hsound.current.symm.trans hc)
  have := hsound.running
  rw [hic, hst] at this
  cases this

end Sinux.Proc

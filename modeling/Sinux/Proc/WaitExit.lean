import Sinux.Proc.States
import Sinux.Proc.ForkRun

/-!
# `wait4` and `exit`

`sys_wait4` of a child that is not a zombie sets `PROC_WAITING` and calls `sched_yield` in a loop.
`sys_exit` does not look for a waiting parent, so a parent that waits first is not woken by it.

* `wait_exit_sound`: in every run in which nobody waits yet for a process that exits, nobody ever
  waits for a zombie, and every exit code is returned by `sys_wait4` exactly once.
* `exit_leaves_parent_waiting`: the other order.
-/

namespace Sinux.Proc

open Function Sinux.Lib Sinux.Mm

/-! ## Waiting, exiting and reaping -/

/-- `p` is suspended in `sys_wait4` for the pid of `c`, in `PROC_WAITING`. -/
def Machine.WaitsFor (m : Machine) (p c : Fin maxProcs) : Prop :=
  m.state p = .waiting ∧ m.point p = .wait4 (m.pid c)

/-- The codes with which the processes of each slot have exited, and those that `sys_wait4` has
returned for them. -/
structure Codes where
  exited : Fin maxProcs → List (BitVec 32)
  delivered : Fin maxProcs → List (BitVec 32)

/-- The code is added to the list of its slot. -/
def record (codes : Fin maxProcs → List (BitVec 32)) :
    Option (Fin maxProcs × BitVec 32) → Fin maxProcs → List (BitVec 32)
  | none => codes
  | some (i, code) => update codes i (codes i ++ [code])

/-- A step of the machine, with the codes that it adds. -/
def CStep (ok : Machine → Event → Prop) (w w' : Machine × Codes) : Prop :=
  ∃ e, ok w.1 e ∧ MStep SameSched w.1 e w'.1 ∧
    w'.2 = ⟨record w.2.exited (w.1.exitOf e), record w.2.delivered (w.1.deliveryOf e)⟩

/-- The runs from boot. -/
def CReach (ok : Machine → Event → Prop) (tty : Fin 64 → U64) (k : Kernel) :
    Machine × Codes → Prop :=
  Relation.ReflTransGen (CStep ok) (Machine.boot tty k, ⟨fun _ => [], fun _ => []⟩)

/-- `sys_wait4` and `sys_exit` in the order that works. -/
structure ExitsFirst (m : Machine) (e : Event) : Prop where
  /-- Nobody waits yet for a process that exits. -/
  exit : ∀ c code, m.exitOf e = some (c, code) → ∀ p, ¬ m.WaitsFor p c
  /-- A process that blocks is alive. -/
  alive : Blocks m e → ∀ c, m.kernel.currentProc = some c →
    m.state c ≠ .zombie ∧ m.state c ≠ .unused
  /-- `next_pid` has not wrapped round to the pid of a process that is still there. -/
  pid : (e = .spawn ∨ ∃ ctx, e = .fork ctx) →
    ∀ c, m.state c ≠ .unused → m.pid c ≠ m.kernel.nextPid
  /-- `sys_wait4` is called by the parent. -/
  parent : ∀ p pid c, m.waitOf e = some (p, pid) → procFind pid m.kernel = some c →
    (m.kernel.procTable c).ppid = m.pid p

/-- What holds between `sys_wait4` and `sys_exit`. -/
structure WaitSound (m : Machine) (codes : Codes) : Prop where
  /-- Nobody is left waiting for a process that has exited. -/
  awake : ∀ p c, m.state c = .zombie → ¬ m.WaitsFor p c
  /-- The codes of a slot are returned once each and in order; only that of a zombie is still to
  come. -/
  codes : ∀ c, codes.exited c = codes.delivered c ++
    if m.state c = .zombie then [(m.kernel.procTable c).exitCode] else []

/-- The invariant. -/
structure WaitInv (m : Machine) (codes : Codes) : Prop extends WaitSound m codes where
  unique : ∀ i j, m.state i ≠ .unused → m.state j ≠ .unused → m.pid i = m.pid j → i = j

/-! ## Steps in which nobody exits and nobody is reaped -/

/-- No process comes, exits or goes, and nobody begins to wait. -/
structure Carries (m m' : Machine) : Prop where
  pid : ∀ i, m'.pid i = m.pid i
  exitCode : ∀ i, (m'.kernel.procTable i).exitCode = (m.kernel.procTable i).exitCode
  unused : ∀ i, m'.state i = .unused ↔ m.state i = .unused
  zombie : ∀ i, m'.state i = .zombie ↔ m.state i = .zombie
  waiting : ∀ i pid, m'.state i = .waiting → m'.point i = .wait4 pid →
    m.state i = .waiting ∧ m.point i = .wait4 pid

variable {m m' : Machine} {codes : Codes}

theorem WaitInv.carry (inv : WaitInv m codes) (h : Carries m m') : WaitInv m' codes := by
  refine ⟨⟨fun p c hz hw => ?_, fun c => ?_⟩, fun i j hi hj hpid => ?_⟩
  · obtain ⟨hst, hpt⟩ := h.waiting p _ hw.1 hw.2
    exact inv.awake p c ((h.zombie c).mp hz) ⟨hst, hpt.trans (by rw [h.pid])⟩
  · have := inv.codes c
    simp only [h.zombie c, h.exitCode c]
    exact this
  · rw [h.pid, h.pid] at hpid
    exact inv.unique i j (fun hu => hi ((h.unused i).mpr hu)) (fun hu => hj ((h.unused j).mpr hu))
      hpid

theorem SameSched.carries (h : SameSched m m') : Carries m m' :=
  ⟨h.pid, h.exitCode, fun i => by rw [h.state], fun i => by rw [h.state],
    fun i pid hst hpt => ⟨(h.state i).symm.trans hst, by rw [← h.point]; exact hpt⟩⟩

theorem KernelFrame.ids {k k' : Kernel} (h : KernelFrame k k') :
    (∀ i, (k'.procTable i).pid = (k.procTable i).pid) ∧
    ∀ i, (k'.procTable i).exitCode = (k.procTable i).exitCode :=
  ⟨fun i => Process.SameCore.field (g := Process.pid) (fun _ _ _ => rfl) (h.core i),
    fun i => Process.SameCore.field (g := Process.exitCode) (fun _ _ _ => rfl) (h.core i)⟩

theorem Carries.yield {cur : Fin maxProcs} (hf : YieldFrame m m') (hy : YieldCase cur m m') :
    Carries m m' := by
  obtain ⟨hpid, hcode⟩ := hf.toKernelFrame.ids
  have hpt (i : Fin maxProcs) : m'.point i = m.point i := by rw [hf.point]
  cases hy with
  | stay _ hst _ _ =>
    exact ⟨hpid, hcode, fun i => by rw [hst], fun i => by rw [hst],
      fun i pid hs hp => ⟨(hst i).symm.trans hs, (hpt i).symm.trans hp⟩⟩
  | switch next _ _ hr hst _ _ =>
    have key (i : Fin maxProcs) (st : ProcState) (h1 : st ≠ .running) (h2 : st ≠ .ready) :
        m'.state i = st ↔ m.state i = st := by
      rw [hst]
      split
      · next hi => exact iff_of_false (Ne.symm h1) (by rw [hi, hr]; exact Ne.symm h2)
      · split
        · next hc => exact iff_of_false (Ne.symm h2) (by rw [hc.1, hc.2]; exact Ne.symm h1)
        · rfl
    exact ⟨hpid, hcode, fun i => key i _ nofun nofun, fun i => key i _ nofun nofun,
      fun i pid hs hp => ⟨(key i .waiting nofun nofun).mp hs, (hpt i).symm.trans hp⟩⟩

theorem Carries.ticked (cur : Fin maxProcs) (ht : Ticked m m')
    (hpt : m'.point = m.point ∨ m'.point = update m.point cur .tick) :
    Carries m m' := by
  obtain ⟨hpid, hcode⟩ := ht.toKernelFrame.ids
  have key (i : Fin maxProcs) (st : ProcState) (h1 : st ≠ .sleeping) (h2 : st ≠ .ready) :
      m'.state i = st ↔ m.state i = st := by
    rcases ht.state i with h | ⟨hs, hr, -⟩
    · rw [h]
    · rw [hs, hr]
      exact iff_of_false (Ne.symm h2) (Ne.symm h1)
  refine ⟨hpid, hcode, fun i => key i _ nofun nofun, fun i => key i _ nofun nofun,
    fun i pid hs hp => ⟨(key i .waiting nofun nofun).mp hs, ?_⟩⟩
  rcases hpt with hpt | hpt
  · rw [← hpt]
    exact hp
  · rw [hpt] at hp
    by_cases hi : i = cur
    · rw [hi, update_self] at hp
      cases hp
    · rwa [update_of_ne hi] at hp

theorem Carries.trans {m₁ : Machine} (h : Carries m m₁) (h' : Carries m₁ m') : Carries m m' :=
  ⟨fun i => (h'.pid i).trans (h.pid i), fun i => (h'.exitCode i).trans (h.exitCode i),
    fun i => (h'.unused i).trans (h.unused i), fun i => (h'.zombie i).trans (h.zombie i),
    fun i pid hs hp => h.waiting i pid (h'.waiting i pid hs hp).1 (h'.waiting i pid hs hp).2⟩

theorem Wakes.carries {p : Fin maxProcs} (h : Wakes p m m') : Carries m m' := by
  have key (i : Fin maxProcs) (st : ProcState) (h1 : st ≠ .ready) (h2 : st ≠ .sleeping)
      (h3 : st ≠ .waiting) : m'.state i = st ↔ m.state i = st := by
    rw [h.state]
    split
    · next hi =>
      refine iff_of_false (Ne.symm h1) ?_
      rcases h.blocked with hb | hb <;> rw [hi, hb]
      · exact Ne.symm h2
      · exact Ne.symm h3
    · rfl
  refine ⟨h.pid, h.exitCode, fun i => key i _ nofun nofun nofun,
    fun i => key i _ nofun nofun nofun, fun i pid hs hp => ⟨?_, by rw [← h.point]; exact hp⟩⟩
  rw [h.state] at hs
  split at hs
  · cases hs
  · exact hs

theorem Returns.waiting {cur : Fin maxProcs} (h : Returns cur m m') {i : Fin maxProcs}
    {pid : BitVec 32} (hp : m'.point i = .wait4 pid) : m.point i = .wait4 pid := by
  rw [h.point] at hp
  by_cases hi : i = cur
  · rw [hi, update_self] at hp
    cases hp
  · rwa [update_of_ne hi] at hp

theorem Returns.carries {cur : Fin maxProcs} (h : Returns cur m m')
    (hst : ∀ i, m'.state i = m.state i) : Carries m m' :=
  ⟨h.pid, h.exitCode, fun i => by rw [hst], fun i => by rw [hst],
    fun i _ hs hp => ⟨(hst i).symm.trans hs, h.waiting hp⟩⟩

/-! ## A process that blocks -/

@[simp] theorem record_none (l : Fin maxProcs → List (BitVec 32)) : record l none = l := rfl

theorem record_of_ne {l : Fin maxProcs → List (BitVec 32)} {o : Option (Fin maxProcs × BitVec 32)}
    {c : Fin maxProcs} (h : ∀ code, o ≠ some (c, code)) : record l o c = l c := by
  match o, h with
  | none, _ => rfl
  | some (i, code), h => exact update_of_ne (fun e => h code (by rw [e])) ..

theorem BlockKind.recorded {cur : Fin maxProcs} {m₁ : Machine} {e : Event} {st : ProcState}
    {pt : Point}
    (h : BlockKind cur m m₁ e st pt) (hc : m.kernel.currentProc = some cur) :
    (m.exitOf e = if st = .zombie then some (cur, (m₁.kernel.procTable cur).exitCode) else none) ∧
      m.deliveryOf e = none := by
  cases h with
  | exit code hcode => exact ⟨by simp [Machine.exitOf, hc, hcode], rfl⟩
  | sleep s ns => exact ⟨rfl, rfl⟩
  | wait pid child he hfind hz =>
    have hexit : m.exitOf e = none := by rcases he with rfl | ⟨rfl, -⟩ <;> rfl
    have hz' : ¬ (m.kernel.procTable child).state = .zombie := hz
    exact ⟨hexit, by simp [Machine.deliveryOf, waitOf_eq hc he, wait4Round, hfind, hz']⟩
  | stop hact => exact ⟨by simp [Machine.exitOf, hc, hact], rfl⟩
  | die sig hact h19 hcode => exact ⟨by simp [Machine.exitOf, hc, hact, h19, hcode], rfl⟩

theorem WaitInv.block {cur : Fin maxProcs} {m₁ : Machine} {e : Event} {st : ProcState} {pt : Point}
    (inv : WaitInv m codes) (hok : ExitsFirst m e) (hc : m.kernel.currentProc = some cur)
    (hk : BlockKind cur m m₁ e st pt) (hb : Blocked cur st pt m m₁) :
    WaitInv m₁ ⟨record codes.exited (m.exitOf e), record codes.delivered (m.deliveryOf e)⟩ := by
  obtain ⟨hnz, hnu⟩ := hok.alive (hk.blocks hc).1 cur hc
  obtain ⟨hexit, hdel⟩ := hk.recorded hc
  have hcur : m₁.state cur = st := (hb.state cur).trans (if_pos rfl)
  have hne {i : Fin maxProcs} (hi : i ≠ cur) : m₁.state i = m.state i :=
    (hb.state i).trans (if_neg hi)
  have hwait {p c : Fin maxProcs} (hp : p ≠ cur) (hw : m₁.WaitsFor p c) : m.WaitsFor p c := by
    refine ⟨(hne hp).symm.trans hw.1, ?_⟩
    rw [← hb.pid, ← hw.2, hb.point, update_of_ne hp]
  have hlive {i : Fin maxProcs} (hi : m₁.state i ≠ .unused) : m.state i ≠ .unused := by
    by_cases hic : i = cur
    · exact hic ▸ hnu
    · rwa [← hne hic]
  refine ⟨⟨fun p c hz hw => ?_, fun c => ?_⟩, fun i j hi hj hpid => ?_⟩
  · by_cases hp : p = cur
    · -- `cur` has found its child alive, and the zombie has another pid
      subst hp
      have hpt : m₁.point p = pt := (congrFun hb.point p).trans (update_self ..)
      have hst : st = .waiting := hcur.symm.trans hw.1
      cases hk with
      | wait pid child _ hfind hz' =>
        have hcp : c ≠ p := fun h => by
          rw [h, hcur] at hz
          cases hz
        rw [hne hcp] at hz
        obtain ⟨hpid, hlive'⟩ := procFind_some hfind
        have hpid' : pid = m₁.pid c := Point.wait4.inj (hpt.symm.trans hw.2)
        have hcc := inv.unique c child (by rw [hz]; nofun) hlive'
          ((hb.pid c).symm.trans (hpid'.symm.trans hpid.symm))
        exact hz' (hcc ▸ hz)
      | _ => cases hst
    · by_cases hcc : c = cur
      · subst hcc
        rw [if_pos (hcur.symm.trans hz)] at hexit
        exact hok.exit c _ hexit p (hwait hp hw)
      · exact inv.awake p c ((hne hcc).symm.trans hz) (hwait hp hw)
  · have hold := inv.codes c
    rw [hdel, hexit]
    dsimp only [record_none]
    by_cases hcc : c = cur
    · subst hcc
      rw [if_neg hnz, List.append_nil] at hold
      rw [hcur, ← hold]
      split
      · exact update_self ..
      · exact (List.append_nil _).symm
    · rw [record_of_ne fun code => ?_]
      · rw [hne hcc, hb.exitCode c hcc]
        exact hold
      · split
        · exact fun h => hcc (congrArg Prod.fst (Option.some.inj h)).symm
        · nofun
  · exact inv.unique i j (hlive hi) (hlive hj) (by rw [← hb.pid, ← hb.pid]; exact hpid)

/-! ## The other steps -/

theorem WaitInv.claims {i : Fin maxProcs} {st : ProcState} {q : RunQueue} {pt : Point}
    (inv : WaitInv m codes) (h : Claims i st q m.kernel m'.kernel) (hm : ClaimFrame i pt m m')
    (hst : st = .ready ∨ st = .unused)
    (hpid : ∀ c, m.state c ≠ .unused → m.pid c ≠ m.kernel.nextPid) : WaitInv m' codes := by
  have hother {j : Fin maxProcs} (hj : j ≠ i) : m'.kernel.procTable j = m.kernel.procTable j :=
    h.others j hj
  have hnot (s : ProcState) (h1 : s ≠ .ready) (h2 : s ≠ .unused) : m'.state i ≠ s := by
    have : m'.state i = st := h.state
    rw [this]
    rcases hst with rfl | rfl
    · exact Ne.symm h1
    · exact Ne.symm h2
  refine ⟨⟨fun p c hz hw => ?_, fun c => ?_⟩, fun a b ha hb hab => ?_⟩
  · have hc : c ≠ i := fun e => hnot .zombie nofun nofun (e ▸ hz)
    have hp : p ≠ i := fun e => hnot .waiting nofun nofun (e ▸ hw.1)
    refine inv.awake p c ((congrArg _ (hother hc)).symm.trans hz)
      ⟨(congrArg _ (hother hp)).symm.trans hw.1, ?_⟩
    have hpt := hw.2
    rw [hm.point, update_of_ne hp] at hpt
    exact hpt.trans (congrArg _ (congrArg _ (hother hc)))
  · have hold := inv.codes c
    by_cases hc : c = i
    · subst hc
      have hfree : m.state c ≠ .zombie := by
        have : m.state c = .unused := h.free
        rw [this]
        nofun
      rw [if_neg hfree] at hold
      exact hold.trans (by rw [if_neg (hnot .zombie nofun nofun)])
    · rw [show m'.state c = m.state c from congrArg _ (hother hc),
        show m'.kernel.procTable c = m.kernel.procTable c from hother hc]
      exact hold
  · have hnew {c : Fin maxProcs} (hc : c ≠ i) (hl : m'.state c ≠ .unused) :
        m'.pid c ≠ m'.pid i := by
      have h1 : m'.pid c = m.pid c := congrArg _ (hother hc)
      have h2 : m'.pid i = m.kernel.nextPid := h.pid
      have h3 : m'.state c = m.state c := congrArg _ (hother hc)
      rw [h1, h2]
      exact hpid c (h3 ▸ hl)
    by_cases hai : a = i
    · by_contra hne
      exact hnew (fun e => hne (hai.trans e.symm)) hb (hai ▸ hab.symm)
    · by_cases hbi : b = i
      · exact absurd (hbi ▸ hab) (hnew hai ha)
      · have h1 : m'.state a = m.state a := congrArg _ (hother hai)
        have h2 : m'.state b = m.state b := congrArg _ (hother hbi)
        have h3 : m'.pid a = m.pid a := congrArg _ (hother hai)
        have h4 : m'.pid b = m.pid b := congrArg _ (hother hbi)
        exact inv.unique a b (h1 ▸ ha) (h2 ▸ hb) (h3.symm.trans (hab.trans h4))

theorem WaitInv.reap {cur child : Fin maxProcs} (inv : WaitInv m codes)
    (h : Returns cur m m') (hz : m.state child = .zombie)
    (hst : ∀ i, m'.state i = if i = child then .unused else m.state i) :
    WaitInv m' ⟨codes.exited, record codes.delivered
      (some (child, (m.kernel.procTable child).exitCode))⟩ := by
  have hchild : m'.state child = .unused := (hst child).trans (if_pos rfl)
  have hlive {i : Fin maxProcs} (hi : m'.state i ≠ .unused) : m'.state i = m.state i :=
    (hst i).trans (if_neg fun (e : i = child) => hi (e ▸ hchild))
  refine ⟨⟨fun p c hzc hw => ?_, fun c => ?_⟩, fun i j hi hj hpid => ?_⟩
  · refine inv.awake p c ?_ ⟨?_, ?_⟩
    · rw [← hlive (by rw [hzc]; nofun)]
      exact hzc
    · rw [← hlive (by rw [hw.1]; nofun)]
      exact hw.1
    · rw [← h.pid]
      exact h.waiting hw.2
  · have hold := inv.codes c
    dsimp only
    by_cases hc : c = child
    · subst hc
      rw [if_pos hz] at hold
      have hdel : record codes.delivered (some (c, (m.kernel.procTable c).exitCode)) c =
        codes.delivered c ++ [(m.kernel.procTable c).exitCode] := update_self ..
      rw [hdel, hchild, if_neg nofun, List.append_nil]
      exact hold
    · rw [record_of_ne fun code e => hc (congrArg Prod.fst (Option.some.inj e)).symm, hst,
        if_neg hc, h.exitCode]
      exact hold
  · exact inv.unique i j (by rwa [← hlive hi]) (by rwa [← hlive hj])
      ((h.pid i).symm.trans (hpid.trans (h.pid j)))

theorem waitInv_step {e : Event} (inv : WaitInv m codes) (hok : ExitsFirst m e)
    (hst : MStep SameSched m e m') :
    WaitInv m' ⟨record codes.exited (m.exitOf e), record codes.delivered (m.deliveryOf e)⟩ := by
  have quiet (hexit : m.exitOf e = none) (hdel : m.deliveryOf e = none)
      (h : WaitInv m' codes) : WaitInv m' ⟨record codes.exited (m.exitOf e),
        record codes.delivered (m.deliveryOf e)⟩ := by
    rw [hexit, hdel]
    exact h
  have nowait (hw : m.waitOf e = none) : m.deliveryOf e = none := by
    rw [Machine.deliveryOf, hw]
    rfl
  cases hst.effect with
  | keep he hw h => exact quiet he (nowait hw) (inv.carry h.carries)
  | ack ht _ hpt => exact quiet rfl rfl (inv.carry (Carries.ticked 0 ht (.inl hpt)))
  | preempt cur _ _ ht _ hpt _ hf hy =>
    exact quiet rfl rfl (inv.carry ((Carries.ticked cur ht (.inr hpt)).trans (.yield hf hy)))
  | block cur st pt hc _ hk hb hf hy => exact (inv.block hok hc hk hb).carry (.yield hf hy)
  | create cur _ _ he h =>
    have hpid := hok.pid he
    have hlog : m.exitOf e = none ∧ m.waitOf e = none := by
      rcases he with rfl | ⟨ctx, rfl⟩ <;> exact ⟨rfl, rfl⟩
    refine quiet hlog.1 (nowait hlog.2) ?_
    cases h with
    | same h => exact inv.carry h.carries
    | failed i st hst' h hm _ => exact inv.claims h hm hst' hpid
    | added i h hm _ => exact inv.claims h hm (.inl rfl) hpid
  | wake p he hw h => exact quiet he (nowait hw) (inv.carry h.carries)
  | back cur _ _ he hd hst' h => exact quiet he hd (inv.carry (h.carries hst'))
  | reap cur child pid hc he _ hfind hz hst' h =>
    have hexit : m.exitOf e = none := by rcases he with rfl | ⟨rfl, -⟩ <;> rfl
    have hz' : (m.kernel.procTable child).state = .zombie := hz
    have hdel : m.deliveryOf e = some (child, (m.kernel.procTable child).exitCode) := by
      simp [Machine.deliveryOf, waitOf_eq hc he, wait4Round, hfind, hz']
    rw [hexit, hdel]
    exact inv.reap h hz hst'

theorem waitInv_of_reach {tty : Fin 64 → U64} {k : Kernel} {w : Machine × Codes}
    (hr : CReach ExitsFirst tty k w) : WaitInv w.1 w.2 := by
  induction hr with
  | refl =>
    have hst := boot_state tty k
    refine ⟨⟨fun p c hz => ?_, fun c => ?_⟩, fun i j hi hj _ => ?_⟩
    · rw [hst] at hz
      split at hz <;> cases hz
    · rw [hst]
      split <;> rfl
    · have hzero {c : Fin maxProcs} (hc : (Machine.boot tty k).state c ≠ .unused) : c = 0 := by
        by_contra h
        exact hc ((hst c).trans (if_neg h))
      rw [hzero hi, hzero hj]
  | tail _ hst ih =>
    obtain ⟨e, hok, hst, hcodes⟩ := hst
    have := waitInv_step ih hok hst
    rw [← hcodes] at this
    exact this

/-- **No wake-up is lost when the exit comes first.** In every state of a run in which nobody waits
yet for a process that exits, nobody is left in `PROC_WAITING` for a zombie, and the codes that
`sys_wait4` has returned for a slot are those with which its processes have exited, each once,
except that of a zombie that has not been reaped. -/
theorem wait_exit_sound {tty : Fin 64 → U64} {k : Kernel} {w : Machine × Codes}
    (hr : CReach ExitsFirst tty k w) : WaitSound w.1 w.2 :=
  (waitInv_of_reach hr).toWaitSound

/-! ## Runs -/

theorem creach_of_mreach {ok : Machine → Event → Prop} {tty : Fin 64 → U64} {k : Kernel}
    (hr : MReach SameSched ok tty k m) : ∃ codes, CReach ok tty k (m, codes) := by
  induction hr with
  | refl => exact ⟨_, .refl⟩
  | tail _ hst ih =>
    obtain ⟨codes, hc⟩ := ih
    obtain ⟨e, hok, hst⟩ := hst
    exact ⟨_, hc.tail ⟨e, hok, hst, rfl⟩⟩

theorem exitsFirst_quiet {e : Event} (hexit : m.exitOf e = none) (hb : ¬ Blocks m e)
    (hcreate : ¬ (e = .spawn ∨ ∃ ctx, e = .fork ctx)) (hw : m.waitOf e = none) : ExitsFirst m e :=
  ⟨fun _ _ h => (nomatch hexit.symm.trans h), fun h => absurd h hb, fun h => absurd h hcreate,
    fun _ _ _ h => (nomatch hw.symm.trans h)⟩

theorem exitsFirst_create {e : Event} (he : e = .spawn ∨ ∃ ctx, e = .fork ctx)
    (hpid : ∀ c, m.state c ≠ .unused → m.pid c ≠ m.kernel.nextPid) : ExitsFirst m e := by
  rcases he with rfl | ⟨ctx, rfl⟩ <;>
    exact ⟨fun _ _ => nofun, fun h => h.elim, fun _ => hpid, fun _ _ _ => nofun⟩

theorem exitsFirst_allows : AllowsFirstRun ExitsFirst where
  spawn := fun tty k => exitsFirst_create (.inl rfl) fun c hc => by
    have h0 : c = 0 := by
      by_contra h
      exact hc ((boot_state tty k c).trans (if_neg h))
    subst h0
    show (0 : BitVec 32) ≠ 1
    decide
  tick := fun _ _ => exitsFirst_quiet rfl (fun h => h) (by rintro (h | ⟨_, h⟩) <;> cases h) rfl
  resume := fun m c hc hp => by
    refine exitsFirst_quiet rfl ?_ (by rintro (h | ⟨_, h⟩) <;> cases h)
      (waitOf_none hc (by rw [hp]; nofun))
    rintro ⟨cur, pid, -, hcur, hpt, -⟩
    rw [Option.some.inj (hcur.symm.trans hc), hp] at hpt
    cases hpt

theorem exitsFirst_wait {p c : Fin maxProcs} {pid : BitVec 32} {e : Event}
    (hc : m.kernel.currentProc = some p)
    (he : e = .wait4 pid ∨ e = .resume ∧ m.point p = .wait4 pid)
    (halive : Blocks m e → m.state p = .running) (hfind : procFind pid m.kernel = some c)
    (hpar : (m.kernel.procTable c).ppid = m.pid p) : ExitsFirst m e := by
  have hw := waitOf_eq hc he
  refine ⟨fun _ _ h => ?_, fun hb q hq => ?_, fun h => ?_, fun p' pid' c' hw' hf' => ?_⟩
  · rcases he with rfl | ⟨rfl, -⟩ <;> cases h
  · rw [Option.some.inj (hq.symm.trans hc), halive hb]
    exact ⟨nofun, nofun⟩
  · rcases he with rfl | ⟨rfl, -⟩ <;> rcases h with h | ⟨_, h⟩ <;> cases h
  · rw [hw] at hw'
    cases hw'
    rw [hfind] at hf'
    cases hf'
    exact hpar

theorem exitsFirst_allowsReap : AllowsReap ExitsFirst where
  wait4 := fun _ _ _ hc hrun hfind hpar => exitsFirst_wait hc (.inl rfl) (fun _ => hrun) hfind hpar
  fresh := exitsFirst_allows.resume
  kill := fun _ _ _ => exitsFirst_quiet rfl (fun h => h) (by rintro (h | ⟨_, h⟩) <;> cases h) rfl
  exit := fun m c hc hrun hno => by
    refine ⟨fun _ _ _ p hw => hno p hw.1, fun _ q hq => ?_, fun h => ?_, fun _ _ _ => nofun⟩
    · rw [Option.some.inj (hq.symm.trans hc), hrun]
      exact ⟨nofun, nofun⟩
    · rcases h with h | ⟨_, h⟩ <;> cases h
  reap := fun m p c hc hp hfind hz hpar => by
    refine exitsFirst_wait hc (.inr ⟨rfl, hp⟩) (fun hb => ?_) hfind hpar
    obtain ⟨cur, pid, c', hcur, hpt, hf', hz'⟩ := hb
    rw [Option.some.inj (hcur.symm.trans hc), hp] at hpt
    cases hpt
    rw [hfind] at hf'
    cases hf'
    exact absurd hz hz'

/-- The first process waits for its child, is woken by a signal and reaps it after its exit. -/
theorem wait_exit_sound_reaped : ∃ m codes i j,
    CReach ExitsFirst (fun _ => 0) forkKernel (m, codes) ∧ i ≠ j ∧ m.pid j = 2 ∧
    m.state j = .unused ∧ WaitSound m codes := by
  obtain ⟨i, j, f, c, m, h, hr⟩ := first_fork exitsFirst_allows
    (fun m ctx _ hpid => exitsFirst_create (.inr ⟨ctx, rfl⟩) hpid) ⟨0, 0, 0, 0⟩
  obtain ⟨m', s, pt, φ, hr', hs, hst, -⟩ := h.reaps exitsFirst_allowsReap hr
  obtain ⟨codes, hcodes⟩ := creach_of_mreach hr'
  refine ⟨m', codes, i, j, hcodes, h.ne, (hs.pid j).trans h.pid_j, ?_, wait_exit_sound hcodes⟩
  rw [hs.state, hst, if_neg h.j_ne, if_neg h.ne.symm]

/-- **The exit of the child does not wake the parent.** The first process forks and waits for its
child, which exits: the child is a zombie, the parent is still in `PROC_WAITING` for it, and nobody
in the queue is ready. -/
theorem exit_leaves_parent_waiting : ∃ m p c, MReach SameSched PicOk (fun _ => 0) forkKernel m ∧
    m.state c = .zombie ∧ (m.kernel.procTable c).ppid = m.pid p ∧ m.WaitsFor p c ∧
    ∀ q, m.Queued q → m.state q ≠ .ready := by
  obtain ⟨i, j, f, c, m, h, hr⟩ := first_fork picOk_allows (fun _ _ _ _ => nofun) ⟨0, 0, 0, 0⟩
  obtain ⟨m₁, hr₁, h₁⟩ := h.waits hr nofun fun _ _ _ _ => nofun
  obtain ⟨hb, -⟩ := blocked_exit j m₁ 0 .exit
  obtain ⟨hf, hy⟩ := schedYield_spec j ((m₁.withKernel (procExit j 0 m₁.kernel)).setPoint j .exit)
  have h₂ := h₁.blocked (update_self ..) hb
  rw [update_idem, update_idem] at h₂
  have hno (q : Fin maxProcs) (hq : m.Queued q) :
      update (update m.state i .waiting) j .zombie q ≠ .ready := by
    rcases (queued_pair h.queue q).mp hq with rfl | rfl
    · rw [update_of_ne h.ne, update_self]
      nofun
    · rw [update_self]
      nofun
  have h₃ := h₂.yieldAlone hf hy hno
  refine ⟨sysExit 0 j m₁, i, j, hr₁.tail ⟨.exit 0, nofun, .exit m₁ j 0 h₁.current h.j_ne
    (by rw [h₁.point, update_self])⟩, ?_, ?_, ⟨?_, ?_⟩, fun q hq => ?_⟩
  · exact (congrFun h₃.state j).trans (update_self ..)
  · exact (h₃.ppid j).trans (h.ppid_j.trans (h.pid_i.symm.trans (h₃.pid i).symm))
  · refine (congrFun h₃.state i).trans ?_
    rw [update_of_ne h.ne, update_self]
  · refine (congrFun h₃.point i).trans ?_
    rw [update_of_ne h.ne, update_self]
    exact congrArg Point.wait4 ((h₃.pid j).trans h.pid_j).symm
  · exact fun hx => hno q ((h₃.queued q).mp hq) ((congrFun h₃.state q).symm.trans hx)

end Sinux.Proc

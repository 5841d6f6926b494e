import Sinux.Proc.Spaces
import Mathlib.Algebra.Order.BigOperators.Group.Finset

/-!
# A process and its child

A machine with enough memory for the first process to fork: half of 16384 pages are free, and no two
neighbours, so that the kernel stacks, which run over their page, run into pages that were taken at
boot. `first_fork` is the run up to the first `fork`, and the lemmas after it are what the two
processes can do from there.
-/

namespace Sinux.Proc

open Function Sinux.Lib Sinux.Lib.Radix Sinux.Mm

/-! ## The machine -/

/-- Page 0 and the odd pages are taken. -/
def everyOther : Phys :=
  ⟨⟨fun k => if k = 0 then 0xAB else 0xAA, 16384, 8191, by decide⟩, fun _ _ => 0⟩

theorem everyOther_test (i : Nat) :
    bmTest everyOther.pmm.bitmap i = decide (i % 2 = 1 ∨ i = 0) := by
  have hbits : ∀ r < 8, (0xAB#8).getLsbD r = decide (r % 2 = 1 ∨ r = 0) ∧
      (0xAA#8).getLsbD r = decide (r % 2 = 1) := by decide
  obtain ⟨h0, h1⟩ := hbits (i % 8) (Nat.mod_lt i (by decide))
  rw [bmTest_eq]
  show (if i / 8 = 0 then 0xAB#8 else 0xAA#8).getLsbD (i % 8) = _
  split
  · rw [h0, decide_eq_decide]
    omega
  · rw [h1, decide_eq_decide]
    omega

theorem everyOther_clear (n : Nat) :
    PackedBits.clearCount everyOther.pmm.bitmap (2 * n + 2) = n := by
  induction n with
  | zero => decide
  | succ n ih =>
    have h0 : PackedBits.test everyOther.pmm.bitmap (2 * n + 2) = false := by
      rw [← bmTest_eq, everyOther_test]
      exact decide_eq_false (by omega)
    have h1 : PackedBits.test everyOther.pmm.bitmap (2 * n + 3) = true := by
      rw [← bmTest_eq, everyOther_test]
      exact decide_eq_true (by omega)
    rw [show 2 * (n + 1) + 2 = 2 * n + 2 + 1 + 1 by omega, PackedBits.clearCount_succ,
      PackedBits.clearCount_succ, ih, h0, if_pos rfl, show 2 * n + 2 + 1 = 2 * n + 3 by omega, h1]
    rfl

theorem everyOther_bits : everyOther.pmm.clearBits = 8191 := everyOther_clear 8191

theorem everyOther_valid : everyOther.pmm.Valid := ⟨everyOther_bits.symm, by decide⟩

theorem everyOther_spaces : Spaces (fun x => x % 2 = 0) ∅ everyOther := by
  refine ⟨tables_empty everyOther_valid, fun x hx => ?_, fun x hx => ?_⟩
  · obtain ⟨_, h, _⟩ := hx
    exact absurd h (Set.notMem_empty _)
  · have := hx.2
    rw [everyOther_test] at this
    have := of_decide_eq_false this
    omega

/-- The kernel with this memory and its PML4 in page 1. -/
def forkKernel : Kernel := { bootKernel with phys := everyOther }

theorem cloneCost_le (S : Finset VPage) : cloneCost S ≤ 1 + 4 * S.card := by
  have h : (tablesOver S).card ≤ S.card * 3 :=
    Finset.card_biUnion_le_card_mul _ _ _ fun v _ => List.toFinset_card_le v.tablePaths
  unfold cloneCost copyCost
  omega

/-! ## The first fork -/

/-- Process `i` has just forked process `j`. -/
structure Family (i j : Fin maxProcs) (f c : Nat) (m : Machine) : Prop where
  i_ne : i ≠ 0
  j_ne : j ≠ 0
  ne : i ≠ j
  current : m.kernel.currentProc = some i
  state : ∀ l, m.state l = if l = j ∨ l = 0 then .ready else if l = i then .running else .unused
  point_i : m.point i = .run
  point_j : m.point j = .fresh
  pid_zero : m.pid 0 = 0
  pid_i : m.pid i = 1
  pid_j : m.pid j = 2
  ppid_j : (m.kernel.procTable j).ppid = 1
  queue : m.kernel.runQueue.queue =
    update (update (fun _ => none) 0 (some i)) 1 (some j)
  qTail : m.kernel.runQueue.qTail = 2
  qCount : m.kernel.runQueue.qCount = 2
  /-- `j` is the first slot besides 0 and `i`. -/
  slot : ∀ k : Kernel, (∀ l, (k.procTable l).state = .unused ↔ l ≠ 0 ∧ l ≠ i) →
    freeSlot k = some j
  pml4_i : (m.kernel.procTable i).pml4 = pageAddr f
  pml4_j : (m.kernel.procTable j).pml4 = pageAddr c
  f_lt : f < 2 ^ 52
  c_lt : c < 2 ^ 52
  pages : f ≠ c
  spaces : Spaces (fun x => x % 2 = 0) {c, f} m.kernel.phys
  mapped : (mappedPages m.kernel.phys.mem f).card ≤ 512
  room : 2051 ≤ m.kernel.phys.pmm.clearBits

theorem freeSlot_congr {k k' : Kernel}
    (h : ∀ l, (k.procTable l).state = .unused ↔ (k'.procTable l).state = .unused) :
    freeSlot k = freeSlot k' := by
  unfold freeSlot
  congr 1
  funext l
  rw [decide_eq_decide, h]

theorem first_fork {ok : Machine → Event → Prop} (hok : AllowsFirstRun ok)
    (hfork : ∀ m ctx, (∀ p, m.Queued p → m.state p ≠ .unused) →
      (∀ p, m.state p ≠ .unused → m.pid p ≠ m.kernel.nextPid) → ok m (.fork ctx)) (ctx : UserCtx) :
    ∃ i j f c m, Family i j f c m ∧ MReach SameSched ok (fun _ => 0) forkKernel m := by
  have hroom₀ : 2 ≤ forkKernel.phys.pmm.clearBits := by
    show 2 ≤ everyOther.pmm.clearBits
    rw [everyOther_bits]
    decide
  obtain ⟨i, g, f, m₀, m, hs, h, hr⟩ := first_run hok (fun _ => 0) (k := forkKernel)
    everyOther_valid hroom₀ 0x400000 0 0x100000
  have hi := hs.claims.ne_zero
  -- the memory of the first process
  obtain ⟨hspaces, hbits, hcard⟩ := spaces_spawned (fun x hx hx' => by omega) everyOther_spaces
    hs.free_stack hs.free_pml4 (by show 2050 ≤ everyOther.pmm.clearBits; rw [everyOther_bits]; decide)
    forkKernel.kernelPml4 0x400000 0 0x100000
  have hphys : m.kernel.phys =
      spawnedPhys forkKernel.kernelPml4 0x400000 0 0x100000 g f everyOther := h.phys.trans hs.phys
  rw [← hphys] at hspaces hbits hcard
  rw [everyOther_bits] at hbits
  rw [insert_empty_eq] at hspaces
  have hfield {β : Type} (r : Process → β)
      (hr : ∀ (p : Process) st ts, r { p with state := st, timeslice := ts } = r p)
      (l : Fin maxProcs) : r (m.kernel.procTable l) = r (m₀.kernel.procTable l) :=
    (h.core l).field hr
  have hpml4 : (m.kernel.procTable i).pml4 = pageAddr f :=
    (hfield Process.pml4 (fun _ _ _ => rfl) i).trans hs.pml4
  have hflt : f < 2 ^ 52 := hs.free_pml4.lt
  have hpage : pageOf (m.kernel.procTable i).pml4 = f := by rw [hpml4, pageOf_pageAddr hflt]
  have hunused (l : Fin maxProcs) : m.state l = .unused ↔ l ≠ 0 ∧ l ≠ i := by
    rw [h.state]
    split
    · next h0 => exact iff_of_false nofun fun hx => hx.1 h0
    · next h0 =>
      split
      · next hl => exact iff_of_false nofun fun hx => hx.2 hl
      · next hl => exact iff_of_true rfl ⟨h0, hl⟩
  obtain ⟨j, hslot⟩ : ∃ j, freeSlot m.kernel = some j := by
    have h2 : (1 : Fin maxProcs) ≠ 2 := by decide
    by_cases h1 : i = 1
    · exact freeSlot_isSome (i := 2) (by decide) ((hunused 2).mpr ⟨by decide, h1 ▸ h2.symm⟩)
    · exact freeSlot_isSome (i := 1) (by decide) ((hunused 1).mpr ⟨by decide, fun e => h1 e.symm⟩)
  obtain ⟨hj0, hjst⟩ := freeSlot_some hslot
  have hji : j ≠ i := ((hunused j).mp hjst).2
  have hcost := cloneCost_le (mappedPages m.kernel.phys.mem f)
  obtain ⟨c, hF⟩ := fork_ok (P := fun x => x % 2 = 0) (fun x hx hx' => by omega) hspaces
    (by rw [hpage]; rfl) hslot (n := 2051) (by rw [hpage]; omega) (by omega) ctx
  have hpid (l : Fin maxProcs) : m.pid l = m₀.pid l := hfield Process.pid (fun _ _ _ => rfl) l
  have hpid_zero : m.pid 0 = 0 :=
    (hpid 0).trans (congrArg Process.pid (hs.claims.others 0 hi.symm))
  have hpid_i : m.pid i = 1 := (hpid i).trans hs.claims.pid
  have hnext : m.kernel.nextPid = 2 := h.nextPid.trans hs.claims.nextPid
  refine ⟨i, j, f, c, m.fork ctx i, ?_, hr.tail ⟨.fork ctx, hfork m ctx ?_ ?_,
    .fork m i ctx h.current hi (by rw [h.point, update_self])⟩⟩
  · have hother (l : Fin maxProcs) (hl : l ≠ j) := hF.claims.others l hl
    have hq₀ : m.kernel.runQueue.queue = update (fun _ => none) 0 (some i) := by
      rw [h.queue, hs.queue]
    have ht₀ : m.kernel.runQueue.qTail = 1 := by rw [h.qTail, hs.queue]
    have hc₀ : m.kernel.runQueue.qCount = 1 := by rw [h.qCount, hs.queue]
    have hq : (m.fork ctx i).kernel.runQueue = { m.kernel.runQueue with
        queue := update m.kernel.runQueue.queue m.kernel.runQueue.qTail (some j)
        qTail := m.kernel.runQueue.qTail + 1
        qCount := m.kernel.runQueue.qCount + 1 } := by
      rw [hF.claims.runQueue, schedAdd, if_neg (by omega)]
    have hbits' := hF.bits
    refine ⟨hi, hj0, hji.symm, hF.claims.currentProc.trans h.current, fun l => ?_, ?_, ?_, ?_, ?_, ?_,
      ?_, ?_, ?_, ?_, fun k hk => ?_, ?_, hF.pml4, hflt, hF.fresh.lt, ?_, hF.spaces, ?_, by omega⟩
    · by_cases hl : l = j
      · rw [if_pos (.inl hl), hl]
        exact hF.claims.state
      · refine (congrArg Process.state (hother l hl)).trans ((h.state l).trans ?_)
        simp only [hl, false_or]
    · rw [hF.frame.point, update_of_ne hji.symm, h.point, update_self]
    · rw [hF.frame.point, update_self]
    · exact (congrArg Process.pid (hother 0 hj0.symm)).trans hpid_zero
    · exact (congrArg Process.pid (hother i hji.symm)).trans hpid_i
    · exact hF.claims.pid.trans hnext
    · exact hF.ppid.trans ((congrArg Process.pid (hother i hji.symm)).trans hpid_i)
    · rw [hq, hq₀, ht₀]
    · rw [hq, ht₀]
      rfl
    · rw [hq, hc₀]
    · rw [← hslot]
      exact freeSlot_congr fun l => (hk l).trans (hunused l).symm
    · exact (congrArg Process.pml4 (hother i hji.symm)).trans hpml4
    · rintro rfl
      exact Pmm.not_free_of_used (hspaces.tables.used f (Node.root rfl)) hF.fresh
    · rw [mappedPages_congr (Set.mem_singleton f) hF.mem]
      exact hcard
  · intro p hp hst
    obtain ⟨idx, hidx⟩ := hp
    have hpi := (hs.queued p).mp ⟨idx, by rw [← h.queue]; exact hidx⟩
    exact ((hunused p).mp hst).2 hpi
  · intro p hp
    rw [hnext]
    by_cases h0 : p = 0
    · rw [h0, hpid_zero]
      decide
    · by_cases hpi : p = i
      · rw [hpi, hpid_i]
        decide
      · exact absurd ((hunused p).mpr ⟨h0, hpi⟩) hp

/-! ## What the processes can do -/

/-- The machine `m₀` some steps later, with `cur` at the processor, in the states `s` and at the
points `pt`. -/
structure Snap (m₀ : Machine) (cur : Fin maxProcs) (s : Fin maxProcs → ProcState)
    (pt : Fin maxProcs → Point) (φ : Phys) (m : Machine) : Prop where
  current : m.kernel.currentProc = some cur
  state : m.state = s
  point : m.point = pt
  pid : ∀ l, m.pid l = m₀.pid l
  ppid : ∀ l, (m.kernel.procTable l).ppid = (m₀.kernel.procTable l).ppid
  pml4 : ∀ l, s l ≠ .zombie → s l ≠ .unused →
    (m.kernel.procTable l).pml4 = (m₀.kernel.procTable l).pml4
  queue : m.kernel.runQueue.queue = m₀.kernel.runQueue.queue
  qTail : m.kernel.runQueue.qTail = m₀.kernel.runQueue.qTail
  qCount : m.kernel.runQueue.qCount = m₀.kernel.runQueue.qCount
  phys : m.kernel.phys = φ

section Snap

variable {m₀ m m' : Machine} {cur : Fin maxProcs} {s : Fin maxProcs → ProcState}
  {pt : Fin maxProcs → Point} {φ : Phys}

theorem Snap.refl (h : m.kernel.currentProc = some cur) :
    Snap m cur m.state m.point m.kernel.phys m :=
  ⟨h, rfl, rfl, fun _ => rfl, fun _ => rfl, fun _ _ _ => rfl, rfl, rfl, rfl, rfl⟩

theorem Snap.queued (h : Snap m₀ cur s pt φ m) (p : Fin maxProcs) :
    m.Queued p ↔ m₀.Queued p := by
  unfold Machine.Queued
  rw [h.queue]

theorem Snap.blocked (h : Snap m₀ cur s pt φ m) (hrun : s cur = .running) {st : ProcState}
    {p : Point} (hb : Blocked cur st p m m') :
    Snap m₀ cur (update s cur st) (update pt cur p) m'.kernel.phys m' := by
  have hst : m'.state = update s cur st := by
    funext l
    rw [hb.state, h.state, update_apply]
  refine ⟨hb.currentProc.trans h.current, hst, by rw [hb.point, h.point],
    fun l => (hb.pid l).trans (h.pid l), fun l => (hb.ppid l).trans (h.ppid l), fun l hz hu => ?_,
    by rw [hb.runQueue, h.queue], by rw [hb.runQueue, h.qTail], by rw [hb.runQueue, h.qCount], rfl⟩
  by_cases hl : l = cur
  · subst hl
    rw [update_self] at hz
    exact (hb.pml4 l (.inr hz)).trans (h.pml4 l (by rw [hrun]; nofun) (by rw [hrun]; nofun))
  · rw [update_of_ne hl] at hz hu
    exact (hb.pml4 l (.inl hl)).trans (h.pml4 l hz hu)

theorem Snap.framed (h : Snap m₀ cur s pt φ m) (hf : YieldFrame m m') {next : Fin maxProcs}
    {s' : Fin maxProcs → ProcState} (hc : m'.kernel.currentProc = some next) (hst : m'.state = s')
    (hs : ∀ l, s' l ≠ .zombie → s' l ≠ .unused → s l ≠ .zombie ∧ s l ≠ .unused) :
    Snap m₀ next s' pt φ m' where
  current := hc
  state := hst
  point := hf.point.trans h.point
  pid l := ((hf.core l).field (g := Process.pid) fun _ _ _ => rfl).trans (h.pid l)
  ppid l := ((hf.core l).field (g := Process.ppid) fun _ _ _ => rfl).trans (h.ppid l)
  pml4 l hz hu := ((hf.core l).field (g := Process.pml4) fun _ _ _ => rfl).trans
    (h.pml4 l (hs l hz hu).1 (hs l hz hu).2)
  queue := hf.queue.trans h.queue
  qTail := hf.qTail.trans h.qTail
  qCount := hf.qCount.trans h.qCount
  phys := hf.phys.trans h.phys

theorem Snap.yieldTo (h : Snap m₀ cur s pt φ m) (hf : YieldFrame m m') (hy : YieldCase cur m m')
    (next : Fin maxProcs) (hq : m₀.Queued next) (hr : s next = .ready) (hcur : s cur ≠ .ready)
    (hno : s cur ≠ .running) (huniq : ∀ p, m₀.Queued p → s p = .ready → p = next) :
    Snap m₀ next (update s next .running) pt φ m' := by
  have hst₀ (l : Fin maxProcs) : m.state l = s l := congrFun h.state l
  cases hy with
  | stay hstay _ _ _ =>
    rcases hstay with hstay | hstay
    · exact absurd ((hst₀ next).trans hr) (hstay next ((h.queued next).mpr hq))
    · exact absurd ((hst₀ cur).symm.trans hstay) hcur
  | switch p _ hq' hr' hst hc _ =>
    obtain rfl := huniq p ((h.queued p).mp hq') ((hst₀ p).symm.trans hr')
    refine h.framed hf hc (funext fun l => ?_) fun l hz hu => ?_
    · rw [hst, hst₀ cur, hst₀ l, update_apply, if_neg (c := l = cur ∧ _) fun hx => hno hx.2]
    · by_cases hl : l = p
      · rw [hl, hr]
        exact ⟨nofun, nofun⟩
      · rw [update_of_ne hl] at hz hu
        exact ⟨hz, hu⟩

theorem Snap.yieldAlone (h : Snap m₀ cur s pt φ m) (hf : YieldFrame m m')
    (hy : YieldCase cur m m') (hno : ∀ p, m₀.Queued p → s p ≠ .ready) :
    Snap m₀ cur s pt φ m' := by
  cases hy with
  | stay _ hst hc _ =>
    exact h.framed hf (hc.trans h.current) ((funext hst).trans h.state) fun _ hz hu => ⟨hz, hu⟩
  | switch p _ hq hr _ _ _ =>
    exact absurd ((congrFun h.state p).symm.trans hr) (hno p ((h.queued p).mp hq))

theorem Snap.back (h : Snap m₀ cur s pt φ m) (hret : Returns cur m m')
    (hst : ∀ l, m'.state l = m.state l) : Snap m₀ cur s (update pt cur .run) φ m' :=
  ⟨hret.currentProc.trans h.current, (funext hst).trans h.state, by rw [hret.point, h.point],
    fun l => (hret.pid l).trans (h.pid l), fun l => (hret.ppid l).trans (h.ppid l),
    fun l hz hu => (hret.pml4 l).trans (h.pml4 l hz hu), by rw [hret.runQueue, h.queue],
    by rw [hret.runQueue, h.qTail], by rw [hret.runQueue, h.qCount], hret.phys.trans h.phys⟩

theorem Snap.resumeFresh (h : Snap m₀ cur s pt φ m) (hp : pt cur = .fresh) :
    ∃ m', m.resume cur = some m' ∧ Snap m₀ cur s (update pt cur .run) φ m' := by
  have hp' : m.point cur = .fresh := by rw [h.point, hp]
  refine ⟨m.setPoint cur .run, by simp only [Machine.resume, hp'], h.back ?_ fun _ => rfl⟩
  exact ⟨fun _ => rfl, fun _ => rfl, fun _ => rfl, fun _ => rfl, rfl, rfl, rfl, rfl,
    by rw [hp']; rfl, rfl, rfl, rfl⟩

theorem Snap.wakes (h : Snap m₀ cur s pt φ m) {p : Fin maxProcs} (hw : Wakes p m m') :
    Snap m₀ cur (update s p .ready) pt φ m' := by
  refine ⟨hw.currentProc.trans h.current, ?_, hw.point.trans h.point,
    fun l => (hw.pid l).trans (h.pid l), fun l => (hw.ppid l).trans (h.ppid l), fun l hz hu => ?_,
    by rw [hw.runQueue, h.queue], by rw [hw.runQueue, h.qTail], by rw [hw.runQueue, h.qCount],
    hw.phys.trans h.phys⟩
  · funext l
    rw [hw.state, h.state, update_apply]
  · refine (hw.pml4 l).trans ?_
    by_cases hl : l = p
    · have hb := hw.blocked
      rw [h.state, ← hl] at hb
      exact h.pml4 l (by rcases hb with hb | hb <;> rw [hb] <;> nofun)
        (by rcases hb with hb | hb <;> rw [hb] <;> nofun)
    · rw [update_of_ne hl] at hz hu
      exact h.pml4 l hz hu

theorem Snap.reaps (h : Snap m₀ cur s pt φ m) {child : Fin maxProcs} (hret : Returns cur m m')
    (hst : ∀ l, m'.state l = if l = child then .unused else m.state l) :
    Snap m₀ cur (update s child .unused) (update pt cur .run) φ m' := by
  refine ⟨hret.currentProc.trans h.current, ?_, by rw [hret.point, h.point],
    fun l => (hret.pid l).trans (h.pid l), fun l => (hret.ppid l).trans (h.ppid l),
    fun l hz hu => (hret.pml4 l).trans ?_, by rw [hret.runQueue, h.queue],
    by rw [hret.runQueue, h.qTail], by rw [hret.runQueue, h.qCount], hret.phys.trans h.phys⟩
  · funext l
    rw [hst, h.state, update_apply]
  · have hl : l ≠ child := fun e => hu (by rw [e, update_self])
    rw [update_of_ne hl] at hz hu
    exact h.pml4 l hz hu

end Snap

theorem procFind_eq {pid : BitVec 32} {k : Kernel} {j : Fin maxProcs}
    (hpid : (k.procTable j).pid = pid) (hst : (k.procTable j).state ≠ .unused)
    (huniq : ∀ l, (k.procTable l).pid = pid → (k.procTable l).state ≠ .unused → l = j) :
    procFind pid k = some j := by
  obtain ⟨l, hl⟩ := procFind_isSome hpid hst
  obtain ⟨hlp, hls⟩ := procFind_some hl
  rw [hl, huniq l hlp hls]

section Family

variable {i j : Fin maxProcs} {f c : Nat} {m : Machine}

theorem queued_pair {m : Machine} (hq : m.kernel.runQueue.queue =
    update (update (fun _ => none) 0 (some i)) 1 (some j)) (p : Fin maxProcs) :
    m.Queued p ↔ p = i ∨ p = j := by
  unfold Machine.Queued
  rw [hq]
  constructor
  · rintro ⟨idx, hidx⟩
    by_cases h1 : idx = 1
    · rw [h1, update_self] at hidx
      exact .inr (Option.some.inj hidx).symm
    · rw [update_of_ne h1] at hidx
      by_cases h0 : idx = 0
      · rw [h0, update_self] at hidx
        exact .inl (Option.some.inj hidx).symm
      · rw [update_of_ne h0] at hidx
        cases hidx
  · rintro (rfl | rfl)
    · exact ⟨0, by rw [update_of_ne (by decide), update_self]⟩
    · exact ⟨1, update_self ..⟩

theorem Family.procFind_eq (h : Family i j f c m) {k : Kernel} {p : Fin maxProcs}
    (hp : p = i ∨ p = j) (hpid : ∀ l, (k.procTable l).pid = m.pid l)
    (hst : ∀ l, (k.procTable l).state ≠ .unused → l = 0 ∨ l = i ∨ l = j)
    (hlive : (k.procTable p).state ≠ .unused) : procFind (m.pid p) k = some p := by
  refine Proc.procFind_eq (hpid p) hlive fun l hl hls => ?_
  rw [hpid] at hl
  rcases hst l hls with rfl | rfl | rfl <;> rcases hp with rfl | rfl <;>
    simp [h.pid_zero, h.pid_i, h.pid_j] at hl ⊢

theorem Family.live (h : Family i j f c m) (l : Fin maxProcs) (hl : m.state l ≠ .unused) :
    l = 0 ∨ l = i ∨ l = j := by
  rw [h.state] at hl
  split at hl
  · next hl' => exact hl'.elim (fun e => .inr (.inr e)) .inl
  · split at hl
    · next e => exact .inr (.inl e)
    · exact absurd rfl hl

theorem Family.state_i (h : Family i j f c m) : m.state i = .running := by
  rw [h.state, if_neg (not_or.mpr ⟨h.ne, h.i_ne⟩), if_pos rfl]

theorem Family.state_j (h : Family i j f c m) : m.state j = .ready := by
  rw [h.state, if_pos (.inl rfl)]

theorem Family.waits (h : Family i j f c m) {ok : Machine → Event → Prop} {tty : Fin 64 → U64}
    {k : Kernel} (hr : MReach SameSched ok tty k m) (hwait : ok m (.wait4 2))
    (hres : ∀ m c, m.kernel.currentProc = some c → m.point c = .fresh → ok m .resume) :
    ∃ m', MReach SameSched ok tty k m' ∧
      Snap m j (update (update m.state i .waiting) j .running)
        (update (update m.point i (.wait4 2)) j .run) m.kernel.phys m' := by
  have hfind : procFind 2 m.kernel = some j := by
    rw [← h.pid_j]
    exact h.procFind_eq (.inr rfl) (fun _ => rfl) h.live (by
      show m.state j ≠ _
      rw [h.state_j]
      nofun)
  obtain ⟨m₁, hb, hphys, heq⟩ := blocked_wait4 i hfind (by rw [h.state_j]; nofun)
  obtain ⟨hf, hy⟩ := schedYield_spec i m₁
  have hs₁ := (Snap.refl h.current).blocked h.state_i hb
  have hs₂ := hs₁.yieldTo hf hy j ((queued_pair h.queue j).mpr (.inr rfl))
    (by rw [update_of_ne h.ne.symm, h.state_j]) (by rw [update_self]; nofun)
    (by rw [update_self]; nofun) fun p hp hready => by
      rcases (queued_pair h.queue p).mp hp with rfl | rfl
      · rw [update_self] at hready
        cases hready
      · rfl
  have hpt : update m.point i (.wait4 2) j = .fresh := by
    rw [update_of_ne h.ne.symm, h.point_j]
  obtain ⟨m', hm', hs₃⟩ := hs₂.resumeFresh hpt
  rw [← heq] at hm' hs₂
  rw [hphys] at hs₃
  have hstep := hr.tail ⟨.wait4 2, hwait, .wait4 m i 2 h.current h.i_ne h.point_i⟩
  exact ⟨m', hstep.tail ⟨.resume, hres _ j hs₂.current (by rw [hs₂.point, hpt]),
    .resume _ _ j hs₂.current hm'⟩, hs₃⟩

theorem procExit_phys (i : Fin maxProcs) (code : BitVec 32) (k : Kernel) :
    (procExit i code k).phys =
      if (k.procTable i).pml4 ≠ 0 ∧ (k.procTable i).pml4 ≠ k.kernelPml4 then
        vmmDestroyPml4 (k.procTable i).pml4 k.phys
      else k.phys := by
  unfold procExit
  dsimp only
  rw [upd_self]
  split
  · next hc => exact (if_pos hc).symm
  · next hc => exact (if_neg hc).symm

/-- The events of the run below. -/
structure AllowsReap (ok : Machine → Event → Prop) : Prop where
  wait4 : ∀ m p c, m.kernel.currentProc = some p → m.state p = .running →
    procFind 2 m.kernel = some c → (m.kernel.procTable c).ppid = m.pid p → ok m (.wait4 2)
  fresh : ∀ m c, m.kernel.currentProc = some c → m.point c = .fresh → ok m .resume
  kill : ∀ m pid sig, ok m (.kill pid sig)
  exit : ∀ m c, m.kernel.currentProc = some c → m.state c = .running →
    (∀ p, m.state p ≠ .waiting) → ok m (.exit 0)
  reap : ∀ m p c, m.kernel.currentProc = some p → m.point p = .wait4 2 →
    procFind 2 m.kernel = some c → m.state c = .zombie →
    (m.kernel.procTable c).ppid = m.pid p → ok m .resume

theorem Family.live_later (h : Family i j f c m) {s : Fin maxProcs → ProcState}
    {pt : Fin maxProcs → Point} {φ : Phys} {m' : Machine} {p : Fin maxProcs}
    (hs : Snap m p s pt φ m') (hout : ∀ l, l ≠ i → l ≠ j → s l = m.state l) (l : Fin maxProcs)
    (hl : (m'.kernel.procTable l).state ≠ .unused) : l = 0 ∨ l = i ∨ l = j := by
  by_contra hno
  push Not at hno
  rw [show (m'.kernel.procTable l).state = s l from congrFun hs.state l,
    hout l hno.2.1 hno.2.2] at hl
  rcases h.live l hl with rfl | rfl | rfl
  · exact hno.1 rfl
  · exact hno.2.1 rfl
  · exact hno.2.2 rfl

theorem Family.wakes (h : Family i j f c m) {ok : Machine → Event → Prop} (hok : AllowsReap ok)
    {tty : Fin 64 → U64} {k : Kernel} (hr : MReach SameSched ok tty k m) :
    ∃ m' s pt, MReach SameSched ok tty k m' ∧ Snap m j s pt m.kernel.phys m' ∧ s i = .ready ∧
      s j = .running ∧ (∀ l, l ≠ i → l ≠ j → s l = m.state l) ∧ pt i = .wait4 2 ∧ pt j = .run := by
  have hji := h.ne.symm
  have hpid_i : (1 : BitVec 32) = m.pid i := h.pid_i.symm
  have hfind : procFind 2 m.kernel = some j := by
    rw [← h.pid_j]
    exact h.procFind_eq (.inr rfl) (fun _ => rfl) h.live (by
      show m.state j ≠ _
      rw [h.state_j]
      nofun)
  obtain ⟨m₂, hr₂, h₂⟩ := h.waits hr (hok.wait4 m i j h.current h.state_i hfind
    (by rw [h.ppid_j, h.pid_i])) hok.fresh
  have hwaiting : m₂.state i = .waiting := by
    rw [h₂.state, update_of_ne h.ne, update_self]
  have hfind₂ : procFind 1 m₂.kernel = some i := by
    rw [hpid_i]
    refine h.procFind_eq (.inl rfl) h₂.pid (h.live_later h₂ fun l hi hj => ?_) ?_
    · rw [update_of_ne hj, update_of_ne hi]
    · show m₂.state i ≠ _
      rw [hwaiting]
      nofun
  have h₃ := h₂.wakes (signalSend_wakes m₂ 18 (by decide) hfind₂ (.inr hwaiting))
  refine ⟨_, _, _, hr₂.tail ⟨.kill 1 18, hok.kill _ _ _, .kill m₂ j 1 18 h₂.current h.j_ne
    (by rw [h₂.point, update_self])⟩, h₃, ?_, ?_, fun l hi hj => ?_, ?_, ?_⟩
  · rw [update_self]
  · rw [update_of_ne hji, update_self]
  · rw [update_of_ne hi, update_of_ne hj, update_of_ne hi]
  · rw [update_of_ne h.ne, update_self]
  · rw [update_self]

theorem Family.exit_spaces (h : Family i j f c m) {k : Kernel}
    (hpml4 : (k.procTable j).pml4 = (m.kernel.procTable j).pml4) (hphys : k.phys = m.kernel.phys)
    (code : BitVec 32) :
    Spaces (fun x => x % 2 = 0) {f} (procExit j code k).phys ∧
      (procExit j code k).phys.mem = m.kernel.phys.mem ∧
      m.kernel.phys.pmm.clearBits ≤ (procExit j code k).phys.pmm.clearBits := by
  have hpage : pageOf (pageAddr c) = c := pageOf_pageAddr h.c_lt
  have hroots : ({c, f} : Set Nat) \ {c} = {f} :=
    Set.insert_sdiff_self_of_notMem fun e => h.pages (Set.mem_singleton_iff.mp e).symm
  rw [procExit_phys]
  split
  · rw [hpml4, h.pml4_j, hphys]
    have hroot : pageOf (pageAddr c) ∈ ({c, f} : Set Nat) := by
      rw [hpage]
      exact Set.mem_insert c {f}
    have hd := h.spaces.destroy hroot
    rwa [hpage, hroots] at hd
  · rw [hphys]
    exact ⟨h.spaces.mono (Set.subset_insert c {f}), rfl, le_rfl⟩

/-- **The child is reaped.** `i` waits for `j`, which wakes it with a signal and exits; then `i` is
alone again. -/
theorem Family.reaps (h : Family i j f c m) {ok : Machine → Event → Prop} (hok : AllowsReap ok)
    {tty : Fin 64 → U64} {k : Kernel} (hr : MReach SameSched ok tty k m) :
    ∃ m' s pt φ, MReach SameSched ok tty k m' ∧ Snap m i s pt φ m' ∧
      (∀ l, s l = if l = 0 then .ready else if l = i then .running else .unused) ∧ pt i = .run ∧
      Spaces (fun x => x % 2 = 0) {f} φ ∧ φ.mem = m.kernel.phys.mem ∧
      m.kernel.phys.pmm.clearBits ≤ φ.pmm.clearBits := by
  have hji := h.ne.symm
  obtain ⟨m₁, s₁, pt₁, hr₁, h₁, hs_i, hs_j, hs_out, hpt_i, hpt_j⟩ := h.wakes hok hr
  have hst₁ (l : Fin maxProcs) : m₁.state l = s₁ l := congrFun h₁.state l
  -- the exit
  obtain ⟨hb, -⟩ := blocked_exit j m₁ 0 .exit
  obtain ⟨hf, hy⟩ := schedYield_spec j ((m₁.withKernel (procExit j 0 m₁.kernel)).setPoint j .exit)
  have h₂ := (h₁.blocked hs_j hb).yieldTo hf hy i ((queued_pair h.queue i).mpr (.inl rfl))
    (by rw [update_of_ne h.ne, hs_i]) (by rw [update_self]; nofun)
    (by rw [update_self]; nofun) fun p hp hready => by
      rcases (queued_pair h.queue p).mp hp with rfl | rfl
      · rfl
      · rw [update_self] at hready
        cases hready
  have hpml4 : (m₁.kernel.procTable j).pml4 = (m.kernel.procTable j).pml4 :=
    h₁.pml4 j (by rw [hs_j]; nofun) (by rw [hs_j]; nofun)
  obtain ⟨hspaces, hmem, hbits⟩ := h.exit_spaces hpml4 h₁.phys 0
  have hr₂ := hr₁.tail ⟨.exit 0, hok.exit m₁ j h₁.current (by rw [hst₁, hs_j]) fun p hp => ?_,
    .exit m₁ j 0 h₁.current h.j_ne (by rw [h₁.point, hpt_j])⟩
  · set m₂ := sysExit 0 j m₁
    change Snap m i _ _ _ m₂ at h₂
    have hst₂ (l : Fin maxProcs) := congrFun h₂.state l
    have hz : m₂.state j = .zombie := by
      rw [hst₂, update_of_ne hji, update_self]
    have hpt : m₂.point i = .wait4 2 := by
      rw [h₂.point, update_of_ne h.ne, hpt_i]
    have hfind : procFind 2 m₂.kernel = some j := by
      rw [← h.pid_j]
      refine h.procFind_eq (.inr rfl) h₂.pid (h.live_later h₂ fun l hi hj => ?_) ?_
      · rw [update_of_ne hi, update_of_ne hj, hs_out l hi hj]
      · show m₂.state j ≠ _
        rw [hz]
        nofun
    obtain ⟨hret, hst⟩ := reaped_wait4 hfind hz (by rw [hpt]; nofun : m₂.point i ≠ .tick)
    have h₃ := h₂.reaps hret hst
    refine ⟨_, _, _, _, hr₂.tail ⟨.resume, hok.reap m₂ i j h₂.current hpt hfind hz ?_,
      .resume _ _ i h₂.current (by simp only [Machine.resume, hpt])⟩, h₃, fun l => ?_,
      update_self .., hspaces, hmem, hbits⟩
    · rw [h₂.ppid, h.ppid_j, h₂.pid, h.pid_i]
    · by_cases hj : l = j
      · rw [hj, update_self, if_neg h.j_ne, if_neg hji]
      · rw [update_of_ne hj]
        by_cases hi : l = i
        · rw [hi, update_self, if_neg h.i_ne, if_pos rfl]
        · rw [update_of_ne hi, update_of_ne hj, hs_out l hi hj, h.state, if_neg hi]
          simp only [hj, false_or]
  · rw [hst₁] at hp
    by_cases hj : p = j
    · rw [hj, hs_j] at hp
      cases hp
    · by_cases hi : p = i
      · rw [hi, hs_i] at hp
        cases hp
      · rw [hs_out p hi hj, h.state, if_neg hi] at hp
        split at hp <;> cases hp

end Family

end Sinux.Proc

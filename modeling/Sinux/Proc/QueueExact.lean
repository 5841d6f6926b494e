import Sinux.Proc.ForkRun
import Mathlib.Data.Fintype.Fin

/-!
# The run queue and the process table

Nothing takes a process out of the run queue: `sched_remove` has no caller. An entry outlives its
process, and when `proc_create` gives the slot to another process the queue already holds it.

* `second_child_queued_twice`: one `fork`, `exit`, `wait4` cycle and another `fork`.
* `queue_exact`: in every run in which `proc_create` claims no slot that is still in the queue, the
  queue holds each process once, exactly those for which `sched_add` was called, and `q_count` is
  their number.
-/

namespace Sinux.Proc

open Function Sinux.Lib Sinux.Mm

/-- `sched_add` was called for the process that has the slot now. -/
def Machine.Added (m : Machine) (p : Fin maxProcs) : Prop := p ≠ 0 ∧ m.point p ≠ .broken

/-- The number of occupied slots of `queue`. -/
def RunQueue.occupied (q : RunQueue) : Nat :=
  (Finset.univ.filter fun idx => (q.queue idx).isSome = true).card

/-- The run queue tracks the processes exactly. -/
structure QueueExact (m : Machine) : Prop where
  once : ∀ a b p, m.kernel.runQueue.queue a = some p → m.kernel.runQueue.queue b = some p → a = b
  count : m.kernel.runQueue.qCount = m.kernel.runQueue.occupied
  /-- Nobody is in the queue before his `sched_add`, and no `sched_add` was dropped. -/
  added : ∀ p, m.Queued p ↔ m.Added p

/-- `proc_create` does not claim a slot that is still in the queue. -/
def ClaimsUnqueued (m : Machine) (e : Event) : Prop :=
  (e = .spawn ∨ ∃ ctx, e = .fork ctx) → ∀ i, freeSlot m.kernel = some i → ¬ m.Queued i

/-- The invariant: the first `q_count` entries are occupied. -/
structure QueueInv (m : Machine) : Prop where
  once : ∀ a b p, m.kernel.runQueue.queue a = some p → m.kernel.runQueue.queue b = some p → a = b
  dense : ∀ idx, m.kernel.runQueue.queue idx ≠ none ↔ idx.val < m.kernel.runQueue.qCount
  tail : m.kernel.runQueue.qTail.val = m.kernel.runQueue.qCount % 256
  added : ∀ p, m.Queued p ↔ m.Added p

theorem QueueInv.count_lt {m : Machine} (h : QueueInv m) : m.kernel.runQueue.qCount < 256 := by
  by_contra hge
  have hsome (idx : Fin 256) : ∃ p, m.kernel.runQueue.queue idx = some p :=
    Option.ne_none_iff_exists'.mp ((h.dense idx).mpr (by omega))
  choose f hf using hsome
  have hinj : Injective f := fun a b hab => h.once a b (f b) (hab ▸ hf a) (hf b)
  obtain ⟨idx, h0⟩ := Finite.surjective_of_injective hinj 0
  exact ((h.added 0).mp ⟨idx, (hf idx).trans (congrArg some h0)⟩).1 rfl

theorem QueueInv.exact {m : Machine} (h : QueueInv m) : QueueExact m := by
  refine ⟨h.once, ?_, h.added⟩
  have hlt := h.count_lt
  have hset : (Finset.univ.filter fun idx => (m.kernel.runQueue.queue idx).isSome = true) =
      Finset.univ.filter fun idx : Fin 256 => idx.val < m.kernel.runQueue.qCount := by
    refine Finset.filter_congr fun idx _ => ?_
    rw [← h.dense idx, Option.isSome_iff_ne_none]
  rw [RunQueue.occupied, hset, Fin.card_filter_val_lt]
  omega

/-! ## Steps -/

theorem QueueInv.congr {m m' : Machine} (h : QueueInv m)
    (hq : m'.kernel.runQueue.queue = m.kernel.runQueue.queue)
    (ht : m'.kernel.runQueue.qTail = m.kernel.runQueue.qTail)
    (hc : m'.kernel.runQueue.qCount = m.kernel.runQueue.qCount)
    (hp : ∀ p, m'.point p = .broken ↔ m.point p = .broken) : QueueInv m' := by
  refine ⟨?_, ?_, ?_, fun p => ?_⟩
  · rw [hq]
    exact h.once
  · rw [hq, hc]
    exact h.dense
  · rw [ht, hc]
    exact h.tail
  · unfold Machine.Queued Machine.Added
    rw [hq, Ne, Ne, hp]
    exact h.added p

theorem broken_update {f g : Fin maxProcs → Point} {i : Fin maxProcs} {pt : Point}
    (hg : g = update f i pt) (hi : f i ≠ .broken) (hpt : pt ≠ .broken)
    (p : Fin maxProcs) : g p = .broken ↔ f p = .broken := by
  rw [hg]
  by_cases hp : p = i
  · rw [hp, update_self]
    exact iff_of_false hpt hi
  · rw [update_of_ne hp]

theorem BlockKind.ne_broken {cur : Fin maxProcs} {m m' : Machine} {e : Event} {st : ProcState}
    {pt : Point} (h : BlockKind cur m m' e st pt) : pt ≠ .broken := by
  cases h <;> nofun

theorem QueueInv.failed {m m' : Machine} (inv : QueueInv m) {i : Fin maxProcs} {st : ProcState}
    (h : Claims i st m.kernel.runQueue m.kernel m'.kernel) (hm : ClaimFrame i .broken m m')
    (hi : ¬ m.Queued i) : QueueInv m' := by
  have hbroken : m.point i = .broken := by
    by_contra hb
    exact hi ((inv.added i).mpr ⟨h.ne_zero, hb⟩)
  refine inv.congr (by rw [h.runQueue]) (by rw [h.runQueue]) (by rw [h.runQueue]) fun p => ?_
  rw [hm.point]
  by_cases hp : p = i
  · rw [hp, update_self, hbroken]
  · rw [update_of_ne hp]

theorem QueueInv.add {m m' : Machine} (inv : QueueInv m) {i : Fin maxProcs}
    (h : Claims i .ready (schedAdd i m.kernel).runQueue m.kernel m'.kernel)
    (hm : ClaimFrame i .fresh m m') (hi : ¬ m.Queued i) : QueueInv m' := by
  have hlt := inv.count_lt
  have hdense := inv.dense
  have htail : m.kernel.runQueue.qTail.val = m.kernel.runQueue.qCount := by
    rw [inv.tail]
    omega
  have hq' : m'.kernel.runQueue = { m.kernel.runQueue with
      queue := update m.kernel.runQueue.queue m.kernel.runQueue.qTail (some i)
      qTail := m.kernel.runQueue.qTail + 1
      qCount := m.kernel.runQueue.qCount + 1 } := by
    rw [h.runQueue, schedAdd, if_neg (by omega)]
  set q := m.kernel.runQueue
  have hqueue : m'.kernel.runQueue.queue = update q.queue q.qTail (some i) := by rw [hq']
  have hcount : m'.kernel.runQueue.qCount = q.qCount + 1 := by rw [hq']
  have hnew {idx : Fin 256} {p : Fin maxProcs} (hp : m'.kernel.runQueue.queue idx = some p) :
      (idx = q.qTail ∧ p = i) ∨ (idx ≠ q.qTail ∧ q.queue idx = some p) := by
    rw [hqueue] at hp
    by_cases hidx : idx = q.qTail
    · rw [hidx, update_self] at hp
      exact .inl ⟨hidx, (Option.some.inj hp).symm⟩
    · rw [update_of_ne hidx] at hp
      exact .inr ⟨hidx, hp⟩
  refine ⟨fun a b p ha hb => ?_, fun idx => ?_, ?_, fun p => ?_⟩
  · rcases hnew ha with ⟨ha, hpi⟩ | ⟨-, ha⟩ <;> rcases hnew hb with ⟨hb, hpi'⟩ | ⟨-, hb⟩
    · rw [ha, hb]
    · exact absurd ⟨b, hpi ▸ hb⟩ hi
    · exact absurd ⟨a, hpi' ▸ ha⟩ hi
    · exact inv.once a b p ha hb
  · rw [hqueue, hcount]
    by_cases hidx : idx = q.qTail
    · rw [hidx, update_self]
      exact iff_of_true (Option.some_ne_none i) (by omega)
    · rw [update_of_ne hidx, hdense idx]
      have hne : idx.val ≠ q.qCount := fun e => hidx (Fin.ext (e.trans htail.symm))
      omega
  · rw [hq']
    show (q.qTail + 1).val = (q.qCount + 1) % 256
    rw [Fin.val_add, htail]
    rfl
  · constructor
    · rintro ⟨idx, hidx⟩
      rcases hnew hidx with ⟨-, rfl⟩ | ⟨-, hold⟩
      · exact ⟨h.ne_zero, by rw [hm.point, update_self]; intro hb; cases hb⟩
      · have hpi : p ≠ i := fun e => hi ⟨idx, e ▸ hold⟩
        obtain ⟨h0, hb⟩ := (inv.added p).mp ⟨idx, hold⟩
        exact ⟨h0, by rw [hm.point, update_of_ne hpi]; exact hb⟩
    · rintro ⟨h0, hb⟩
      by_cases hpi : p = i
      · exact ⟨q.qTail, by rw [hqueue, update_self, hpi]⟩
      · rw [hm.point, update_of_ne hpi] at hb
        obtain ⟨idx, hidx⟩ := (inv.added p).mpr ⟨h0, hb⟩
        refine ⟨idx, ?_⟩
        rw [hqueue, update_of_ne fun e => ?_]
        · exact hidx
        · have := (hdense idx).mp (by rw [hidx]; exact Option.some_ne_none p)
          rw [e, htail] at this
          exact lt_irrefl _ this

theorem queueInv_step {m m' : Machine} {e : Event} (inv : QueueInv m) (hok : ClaimsUnqueued m e)
    (hst : MStep SameSched m e m') : QueueInv m' := by
  have hsame (h : SameSched m m') : QueueInv m' :=
    inv.congr (by rw [h.runQueue]) (by rw [h.runQueue]) (by rw [h.runQueue])
      fun p => by rw [h.point]
  cases hst.effect with
  | keep _ _ h => exact hsame h
  | ack ht _ hpt => exact inv.congr ht.queue ht.qTail ht.qCount fun p => by rw [hpt]
  | preempt cur _ hp ht _ hpt _ hf _ =>
    exact inv.congr (hf.queue.trans ht.queue) (hf.qTail.trans ht.qTail)
      (hf.qCount.trans ht.qCount) (broken_update (hf.point.trans hpt) hp nofun)
  | block cur st pt _ hp hk hb hf _ =>
    refine inv.congr (by rw [hf.queue, hb.runQueue]) (by rw [hf.qTail, hb.runQueue])
      (by rw [hf.qCount, hb.runQueue]) (broken_update (hf.point.trans hb.point) ?_ hk.ne_broken)
    rcases hp with ⟨hp, -⟩ | ⟨pid, hp⟩ <;> rw [hp] <;> nofun
  | create cur _ _ he h =>
    cases h with
    | same h => exact hsame h
    | failed i st _ h hm hslot => exact inv.failed h hm (hok he i hslot)
    | added i h hm hslot => exact inv.add h hm (hok he i hslot)
  | wake p _ _ h =>
    exact inv.congr (by rw [h.runQueue]) (by rw [h.runQueue]) (by rw [h.runQueue])
      fun q => by rw [h.point]
  | back cur _ hp _ _ _ h =>
    exact inv.congr (by rw [h.runQueue]) (by rw [h.runQueue]) (by rw [h.runQueue])
      (broken_update h.point hp nofun)
  | reap cur child pid _ _ hp _ _ _ h =>
    exact inv.congr (by rw [h.runQueue]) (by rw [h.runQueue]) (by rw [h.runQueue])
      (broken_update h.point hp.2 nofun)

theorem queueInv_of_reach {tty : Fin 64 → U64} {k : Kernel} {m : Machine}
    (hr : MReach SameSched ClaimsUnqueued tty k m) : QueueInv m := by
  induction hr with
  | refl =>
    refine ⟨fun _ _ _ h => (by cases h), fun idx => ?_, rfl, fun p => ?_⟩
    · exact iff_of_false (fun h => h rfl) (Nat.not_lt_zero _)
    · refine iff_of_false ?_ ?_
      · rintro ⟨_, h⟩
        cases h
      · rintro ⟨h0, hb⟩
        exact hb (if_neg h0)
  | tail _ hst ih =>
    obtain ⟨e, hok, hst⟩ := hst
    exact queueInv_step ih hok hst

/-- **The run queue is exact while no queued slot is claimed.** -/
theorem queue_exact {tty : Fin 64 → U64} {k : Kernel} {m : Machine}
    (hr : MReach SameSched ClaimsUnqueued tty k m) : QueueExact m :=
  (queueInv_of_reach hr).exact

theorem claimsUnqueued_allows : AllowsFirstRun ClaimsUnqueued where
  spawn := fun _ _ _ _ _ ⟨_, h⟩ => by cases h
  tick := fun _ _ h => by rcases h with h | ⟨_, h⟩ <;> cases h
  resume := fun _ _ _ _ h => by rcases h with h | ⟨_, h⟩ <;> cases h

/-- The first process and its child are both in the queue. -/
theorem queue_exact_family : ∃ m i j, MReach SameSched ClaimsUnqueued (fun _ => 0) forkKernel m ∧
    i ≠ j ∧ m.Queued i ∧ m.Queued j ∧ QueueExact m := by
  obtain ⟨i, j, f, c, m, h, hr⟩ := first_fork claimsUnqueued_allows
    (fun m _ hlive _ _ i hi hq => hlive i hq (freeSlot_some hi).2) ⟨0, 0, 0, 0⟩
  exact ⟨m, i, j, hr, h.ne, (queued_pair h.queue i).mpr (.inl rfl),
    (queued_pair h.queue j).mpr (.inr rfl), queue_exact hr⟩

theorem picOk_allowsReap : AllowsReap PicOk :=
  ⟨fun _ _ _ _ _ _ _ => nofun, fun _ _ _ _ => nofun, fun _ _ _ => nofun,
    fun _ _ _ _ _ => nofun, fun _ _ _ _ _ _ _ _ => nofun⟩

/-- **The second child is in the queue twice.** The first process forks, waits for its child, which
exits and is reaped, and forks again. The new child has the slot of the old one, and its `sched_add`
adds it beside the entry that was never removed. -/
theorem second_child_queued_twice : ∃ m j, MReach SameSched PicOk (fun _ => 0) forkKernel m ∧
    m.state j = .ready ∧ m.kernel.runQueue.queue 1 = some j ∧ m.kernel.runQueue.queue 2 = some j ∧
    ¬ QueueExact m := by
  obtain ⟨i, j, f, c, m, h, hr⟩ := first_fork picOk_allows (fun _ _ _ _ h => by cases h) ⟨0, 0, 0, 0⟩
  obtain ⟨m', s, pt, φ, hr', hs, hst, hpt, hspaces, hmem, hbits⟩ := h.reaps picOk_allowsReap hr
  have hst' (l : Fin maxProcs) : m'.state l = .unused ↔ l ≠ 0 ∧ l ≠ i := by
    rw [hs.state, hst]
    split
    · next h0 => exact iff_of_false (fun h => by cases h) fun hx => hx.1 h0
    · next h0 =>
      split
      · next hi => exact iff_of_false (fun h => by cases h) fun hx => hx.2 hi
      · next hi => exact iff_of_true rfl ⟨h0, hi⟩
  have hslot : freeSlot m'.kernel = some j := h.slot m'.kernel hst'
  have hrun : s i = .running := by rw [hst, if_neg h.i_ne, if_pos rfl]
  have hpage : pageOf (m'.kernel.procTable i).pml4 = f := by
    rw [hs.pml4 i (by rw [hrun]; intro h; cases h) (by rw [hrun]; intro h; cases h), h.pml4_i,
      pageOf_pageAddr h.f_lt]
  have hcard := h.mapped
  rw [← hmem, ← hs.phys] at hcard
  have hcost := cloneCost_le (mappedPages m'.kernel.phys.mem f)
  have hroom := h.room
  obtain ⟨c', hF⟩ := fork_ok (P := fun x => x % 2 = 0) (fun x hx hx' => by omega)
    (hs.phys ▸ hspaces) (by rw [hpage]; rfl) hslot (n := 2051) (by rw [hpage]; omega)
    (by rw [hs.phys]; omega) ⟨0, 0, 0, 0⟩
  have hq : (m'.fork ⟨0, 0, 0, 0⟩ i).kernel.runQueue.queue =
      update m.kernel.runQueue.queue 2 (some j) := by
    rw [hF.claims.runQueue, schedAdd, if_neg (by rw [hs.qCount, h.qCount]; decide), hs.queue,
      hs.qTail, h.qTail]
  have h1 : (m'.fork ⟨0, 0, 0, 0⟩ i).kernel.runQueue.queue 1 = some j := by
    rw [hq, update_of_ne (by decide), h.queue, update_self]
  have h2 : (m'.fork ⟨0, 0, 0, 0⟩ i).kernel.runQueue.queue 2 = some j := by
    rw [hq, update_self]
  refine ⟨_, j, hr'.tail ⟨.fork ⟨0, 0, 0, 0⟩, (fun h => by cases h), .fork m' i _ hs.current h.i_ne
    (by rw [hs.point, hpt])⟩, hF.claims.state, h1, h2, fun hx => ?_⟩
  exact absurd (hx.once 1 2 j h1 h2) (by decide)

end Sinux.Proc

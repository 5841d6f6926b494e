import Sinux.Proc.Spawn
import Sinux.Proc.KernelStack

/-!
# Acknowledging the timer (`handle_pit`, `pic_eoi`)

`handle_pit` acknowledges IRQ 0 after `sched_tick` has returned, and `sched_tick` may switch. A
process that was itself suspended in a tick goes on to the `pic_eoi(0)` of its own interrupt; a
process on its first frame or suspended in a system call goes to user mode without one.

* `UnackedInv`: from boot the tick that takes the processor from process 0 stays in service. Process
  0 is not queued, so it does not come back to its `pic_eoi(0)`.
* `user_unacked`: user code never runs with the timer acknowledged.
-/

namespace Sinux.Proc

open Function Sinux.Lib Sinux.Mm

/-- The processor executes user code. Process 0 never leaves the kernel. -/
def Machine.InUser (m : Machine) : Prop :=
  ∃ c, m.kernel.currentProc = some c ∧ c ≠ 0 ∧ m.point c = .run

/-! ## From boot -/

/-- Process 0 has the processor, or it lost it at a tick that is still in service. It is not queued,
so it does not get the processor back, and no other process is suspended in a tick. -/
structure UnackedInv (m : Machine) : Prop where
  current : ∃ c, m.kernel.currentProc = some c ∧ (c ≠ 0 → m.irq0 = true)
  queue : ¬ m.Queued 0
  point : ∀ c, c ≠ 0 → m.point c ≠ .tick
  zero : m.point 0 = .run ∨ m.point 0 = .tick

theorem UnackedInv.irq0 {m : Machine} (h : UnackedInv m) {cur : Fin maxProcs}
    (hc : m.kernel.currentProc = some cur) (h0 : cur ≠ 0) : m.irq0 = true := by
  obtain ⟨c, hc', hi⟩ := h.current
  rw [hc] at hc'
  cases hc'
  exact hi h0

theorem BlockKind.ne_tick {cur : Fin maxProcs} {m m' : Machine} {e : Event} {st : ProcState}
    {pt : Point} (h : BlockKind cur m m' e st pt) : pt ≠ .tick := by
  cases h <;> nofun

theorem UnackedInv.congr {m m' : Machine} (inv : UnackedInv m) (hq : ¬ m'.Queued 0)
    (hcur : m'.kernel.currentProc = m.kernel.currentProc) (hirq : m'.irq0 = m.irq0)
    (hpoint : m'.point = m.point) : UnackedInv m' :=
  ⟨by rw [hcur, hirq]; exact inv.current, hq, by rw [hpoint]; exact inv.point,
    by rw [hpoint]; exact inv.zero⟩

theorem UnackedInv.setPoint {m m' : Machine} (inv : UnackedInv m) (hq : ¬ m'.Queued 0)
    (hcur : ∃ c, m'.kernel.currentProc = some c ∧ (c ≠ 0 → m'.irq0 = true)) {i : Fin maxProcs}
    {pt : Point} (hpoint : m'.point = update m.point i pt)
    (h0 : i = 0 → pt = .run ∨ pt = .tick) (hne : i ≠ 0 → pt ≠ .tick) : UnackedInv m' := by
  refine ⟨hcur, hq, fun c hc => ?_, ?_⟩
  · rw [hpoint]
    by_cases hci : c = i
    · rw [hci, update_self]
      exact hne (hci ▸ hc)
    · rw [update_of_ne hci]
      exact inv.point c hc
  · rw [hpoint]
    by_cases hi : i = 0
    · rw [hi, update_self]
      exact h0 hi
    · rw [update_of_ne (Ne.symm hi)]
      exact inv.zero

theorem unackedInv_step {m m' : Machine} {e : Event} (inv : UnackedInv m) (hok : PicOk m e)
    (hst : MStep SameSched m e m') : UnackedInv m' := by
  have heff := hst.effect
  have hq : ¬ m'.Queued 0 := fun h => (heff.queued h).elim inv.queue fun h0 => h0 rfl
  -- with an interrupt in service there is no tick, so a tick interrupts process 0
  have htick {cur : Fin maxProcs} (he : e = .tick) (hc : m.kernel.currentProc = some cur) :
      cur = 0 := by
    by_contra h0
    have hfalse := hok he
    rw [inv.irq0 hc h0] at hfalse
    cases hfalse
  cases heff with
  | keep _ _ h => exact inv.congr hq h.currentProc h.irq0 h.point
  | ack ht hi hpt =>
    obtain ⟨c, hc, -⟩ := inv.current
    exact ⟨⟨c, ht.currentProc.trans hc, fun h0 => absurd (htick rfl hc) h0⟩, hq, hpt ▸ inv.point,
      hpt ▸ inv.zero⟩
  | preempt cur hc _ ht hi hpt hm hf hy =>
    obtain rfl := htick rfl hc
    refine inv.setPoint hq ?_ (hf.point.trans hpt) (fun _ => .inr rfl) fun h => absurd rfl h
    cases hy with
    | stay _ _ hcur _ => exact ⟨0, hcur.trans (ht.currentProc.trans hc), fun h => absurd rfl h⟩
    | switch next _ _ _ _ hcur _ => exact ⟨next, hcur, fun _ => hf.irq0.trans hi⟩
  | block cur st pt hc hp hk hb hf hy =>
    have h0 : cur ≠ 0 := by
      rcases hp with ⟨-, h0⟩ | ⟨pid, hp⟩
      · exact h0
      · rintro rfl
        rcases inv.zero with h | h <;> rw [hp] at h <;> cases h
    have hirq : m'.irq0 = true := hf.irq0.trans (hb.irq0.trans (inv.irq0 hc h0))
    refine inv.setPoint hq ?_ (hf.point.trans hb.point) (fun h => absurd h h0) fun _ => hk.ne_tick
    cases hy with
    | stay _ _ hcur _ => exact ⟨cur, hcur.trans (hb.currentProc.trans hc), fun _ => hirq⟩
    | switch next _ _ _ _ hcur _ => exact ⟨next, hcur, fun _ => hirq⟩
  | create cur hc hp _ h =>
    obtain ⟨c, hc, hirq⟩ := inv.current
    cases h with
    | same h => exact inv.congr hq h.currentProc h.irq0 h.point
    | failed i st _ h hm _ =>
      exact inv.setPoint hq ⟨c, h.currentProc.trans hc, fun h0 => hm.irq0.trans (hirq h0)⟩ hm.point
        (fun h0 => absurd h0 h.ne_zero) fun _ => nofun
    | added i h hm _ =>
      exact inv.setPoint hq ⟨c, h.currentProc.trans hc, fun h0 => hm.irq0.trans (hirq h0)⟩ hm.point
        (fun h0 => absurd h0 h.ne_zero) fun _ => nofun
  | wake p _ _ h => exact inv.congr hq h.currentProc h.irq0 h.point
  | back cur hc _ _ _ _ h =>
    refine inv.setPoint hq ⟨cur, h.currentProc.trans hc, fun h0 => ?_⟩ h.point (fun _ => .inl rfl)
      fun _ => nofun
    rw [h.irq0, if_neg (inv.point cur h0)]
    exact inv.irq0 hc h0
  | reap cur child pid hc _ hp _ _ _ h =>
    refine inv.setPoint hq ⟨cur, h.currentProc.trans hc, fun h0 => ?_⟩ h.point (fun _ => .inl rfl)
      fun _ => nofun
    rw [h.irq0, if_neg hp.1]
    exact inv.irq0 hc h0

theorem unackedInv_of_reach {tty : Fin 64 → U64} {k : Kernel} {m : Machine}
    (hr : MReach SameSched PicOk tty k m) : UnackedInv m := by
  induction hr with
  | refl =>
    refine ⟨⟨0, rfl, fun h => absurd rfl h⟩, (fun ⟨_, h⟩ => by cases h), fun c hc => ?_, .inl rfl⟩
    show (if c = 0 then Point.run else .broken) ≠ .tick
    rw [if_neg hc]
    nofun
  | tail _ hst ih =>
    obtain ⟨e, hok, hst⟩ := hst
    exact unackedInv_step ih hok hst

/-! ## The results -/

/-- **From boot, user code always runs with the timer in service.** The first process is on its
first frame when a tick switches to it, and after that no tick comes. -/
theorem user_unacked {tty : Fin 64 → U64} {k : Kernel} {m : Machine}
    (hr : MReach SameSched PicOk tty k m) (hu : m.InUser) : m.irq0 = true := by
  obtain ⟨c, hc, h0, -⟩ := hu
  exact (unackedInv_of_reach hr).irq0 hc h0

/-- Five ticks after it was spawned the first process is in user mode. -/
theorem first_user : ∃ m, MReach SameSched PicOk (fun _ => 0) bootKernel m ∧ m.InUser := by
  obtain ⟨i, g, f, m₀, m, hs, h, hr⟩ := first_run picOk_allows (fun _ => 0) (k := bootKernel)
    sixteenPages_valid bootKernel_room 0x400000 0 0x100000
  exact ⟨m, hr, i, h.current, hs.claims.ne_zero, by rw [h.point, update_self]⟩

theorem user_unacked_first : ∃ m, MReach SameSched PicOk (fun _ => 0) bootKernel m ∧ m.InUser ∧
    m.irq0 = true := by
  obtain ⟨m, hr, hu⟩ := first_user
  exact ⟨m, hr, hu, user_unacked hr hu⟩

/-- **The first process runs unacknowledged**, so it is not the case that no interrupt is in service
whenever user code runs. -/
theorem first_process_unacked :
    ¬ ∀ m, MReach SameSched PicOk (fun _ => 0) bootKernel m → m.InUser → m.irq0 = false := by
  intro hall
  obtain ⟨m, hr, hu⟩ := first_user
  obtain ⟨c, hc, h0, -⟩ := id hu
  cases (hall m hr hu).symm.trans ((unackedInv_of_reach hr).irq0 hc h0)

end Sinux.Proc

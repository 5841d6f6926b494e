import Sinux.Proc.Effect
import Mathlib.Order.Bounds.Basic

/-!
# Delivering signals (`kernel/ipc/signal.c`)

`signal_deliver` with the handlers it calls. A handler is a function on the machine (`HandlerRun`),
and `p->sig_pending`, `p->sig_blocked` and `p->sig_actions` are read again in every round, as the
source does. The first component of the result is the list of the signals whose handlers were
called.

* `signalDeliverCalls_snd`: with handlers that do nothing the machine is that of `signalDeliver`.
* `signal_deliver_exact`: **which signals are processed.** With handlers that leave the signals
  alone the caught signals below the first fatal one are handled once each in ascending order, and
  exactly the signals up to the fatal one are cleared.

**Out of scope**: what a handler in user memory does; the kernel calls it like one of its functions.
-/

namespace Sinux.Proc

open Function Sinux.Lib Sinux.Mm

/-! ## The functions -/

/-- `SIG_DFL`. -/
def sigDfl : U64 := 0

/-- `SIG_IGN`. -/
def sigIgn : U64 := 1

/-- What the handler at an address does when it is called with a signal. -/
abbrev HandlerRun := U64 → Fin 32 → Machine → Machine

/-- `p->sig_pending &= ~(1ULL << sig)`. -/
def Machine.clearPending (m : Machine) (p : Fin maxProcs) (sig : Fin 32) : Machine :=
  let pending := (m.sig p).pending &&& ~~~(1#64 <<< sig.val)
  { m with sig := update m.sig p { m.sig p with pending := pending } }

/-- The `switch` for `SIG_DFL`: the machine at its `return`, or `none` at its `break`. -/
def defaultSwitch (cur : Fin maxProcs) (sig : Fin 32) (m : Machine) : Option Machine :=
  if sig = 9 ∨ sig = 15 ∨ sig = 2 ∨ sig = 13 then
    some (schedYield cur ((m.withKernel
      (procExit cur (128 + BitVec.ofNat 32 sig.val) m.kernel)).setPoint cur .signal))
  else if sig = 19 then
    some (schedYield cur ((m.withKernel (m.kernel.setState cur .sleeping)).setPoint cur .signal))
  else none

/-- The loop of `signal_deliver` over the signals to come. -/
def deliverLoop (run : HandlerRun) (cur : Fin maxProcs) :
    List (Fin 32) → Machine → List (Fin 32) × Machine
  | [], m => ([], m)
  | sig :: l, m =>
    if (m.sig cur).pending &&& 1#64 <<< sig.val = 0 then deliverLoop run cur l m
    else if (m.sig cur).blocked &&& 1#64 <<< sig.val ≠ 0 then deliverLoop run cur l m
    else
      let m := m.clearPending cur sig
      let handler := (m.sig cur).handler sig
      if handler = sigIgn then deliverLoop run cur l m
      else if handler = sigDfl then
        match defaultSwitch cur sig m with
        | some m => ([], m)
        | none => deliverLoop run cur l m
      else
        let (called, m) := deliverLoop run cur l (run handler sig m)
        (sig :: called, m)

/-- `signal_deliver`: the signals whose handlers it calls, and the machine after it. -/
def signalDeliverCalls (run : HandlerRun) (m : Machine) : List (Fin 32) × Machine :=
  match m.kernel.currentProc with
  | none => ([], m)
  | some cur =>
    if (m.sig cur).pending = 0 then ([], m)
    else deliverLoop run cur (List.finRange 32).tail m

/-! ## One round -/

namespace SigState

variable {s : SigState} {sig j : Fin 32}

/-- Pending and not blocked. -/
def Deliverable (s : SigState) (sig : Fin 32) : Prop :=
  s.pending.getLsbD sig.val = true ∧ s.blocked.getLsbD sig.val = false

/-- Pending, not blocked, and its default action ends or stops the process. -/
def Fatal (s : SigState) (sig : Fin 32) : Prop :=
  s.Deliverable sig ∧ s.handler sig = sigDfl ∧ sigDefault sig = true

/-- A handler is set. -/
def Caught (s : SigState) (sig : Fin 32) : Prop := s.handler sig ≠ sigDfl ∧ s.handler sig ≠ sigIgn

instance : Decidable (s.Deliverable sig) := inferInstanceAs (Decidable (_ ∧ _))

instance : Decidable (s.Caught sig) := inferInstanceAs (Decidable (_ ∧ _))

instance : Decidable (s.Fatal sig) := inferInstanceAs (Decidable (_ ∧ _ ∧ _))

/-- The signal is no longer pending. -/
def clear (s : SigState) (sig : Fin 32) : SigState :=
  { s with pending := s.pending &&& ~~~(1#64 <<< sig.val) }

theorem and_bit_eq_zero {x : U64} {i : Nat} (hi : i < 64) :
    x &&& 1#64 <<< i = 0 ↔ x.getLsbD i = false := by
  have htwo : 1#64 <<< i = BitVec.twoPow 64 i := rfl
  rw [htwo, BitVec.and_twoPow]
  cases x.getLsbD i with
  | false => simp
  | true =>
    have hbit : (BitVec.twoPow 64 i).getLsbD i = true := by simp [hi]
    refine iff_of_false (fun h0 => ?_) (by simp)
    rw [if_pos rfl] at h0
    rw [h0] at hbit
    simp at hbit

theorem getLsbD_clear (b : Nat) : (s.clear sig).pending.getLsbD b =
    (s.pending.getLsbD b && !decide (b = sig.val)) := by
  have htwo : 1#64 <<< sig.val = BitVec.twoPow 64 sig.val := rfl
  rw [clear, htwo, BitVec.getLsbD_and, BitVec.getLsbD_not, BitVec.getLsbD_twoPow]
  by_cases hb : b < 64
  · have h64 : sig.val < 64 := by omega
    simp [hb, h64, eq_comm]
  · simp [BitVec.getLsbD_of_ge _ _ (Nat.le_of_not_lt hb)]

theorem deliverable_clear (h : j ≠ sig) : (s.clear sig).Deliverable j ↔ s.Deliverable j := by
  have hv : ¬ j.val = sig.val := fun hv => h (Fin.ext hv)
  rw [Deliverable, getLsbD_clear, decide_eq_false hv, Bool.not_false, Bool.and_true]
  exact Iff.rfl

theorem fatal_clear (h : j ≠ sig) : (s.clear sig).Fatal j ↔ s.Fatal j := by
  rw [Fatal, deliverable_clear h]
  exact Iff.rfl

end SigState

variable {run : HandlerRun} {cur : Fin maxProcs} {m m' : Machine} {sig : Fin 32}
  {l : List (Fin 32)}

theorem sig_clearPending : (m.clearPending cur sig).sig cur = (m.sig cur).clear sig :=
  update_self ..

theorem schedYield_sig (cur : Fin maxProcs) (m : Machine) : (schedYield cur m).sig = m.sig := by
  simp only [schedYield]
  split
  · split <;> rfl
  · split
    · split <;> rfl
    · rfl

theorem schedYield_state_self (hr : m.state cur ≠ .running) :
    (schedYield cur m).state cur = m.state cur := by
  obtain ⟨-, hcase⟩ := schedYield_spec cur m
  cases hcase with
  | stay _ hst _ _ => exact hst cur
  | switch next hne _ _ hst _ _ => rw [hst, if_neg hne.symm, if_neg fun h => hr h.2]

theorem schedYield_exitCode (cur i : Fin maxProcs) (m : Machine) :
    ((schedYield cur m).kernel.procTable i).exitCode = (m.kernel.procTable i).exitCode :=
  ((schedYield_spec cur m).1.core i).field fun _ _ _ => rfl

/-- What the default action of `sig` makes of its process. -/
structure DefaultAction (cur : Fin maxProcs) (sig : Fin 32) (m : Machine) : Prop where
  killed : sig ≠ 19 → m.state cur = .zombie ∧
    (m.kernel.procTable cur).exitCode = 128 + BitVec.ofNat 32 sig.val
  stopped : sig = 19 → m.state cur = .sleeping

theorem defaultSwitch_spec (cur : Fin maxProcs) (sig : Fin 32) (m : Machine) :
    sigDefault sig = false ∧ defaultSwitch cur sig m = none ∨
    sigDefault sig = true ∧ ∃ m', defaultSwitch cur sig m = some m' ∧ m'.sig = m.sig ∧
      DefaultAction cur sig m' := by
  have hmem : sigDefault sig = true ↔ (sig = 9 ∨ sig = 15 ∨ sig = 2 ∨ sig = 13) ∨ sig = 19 := by
    revert sig
    decide
  unfold defaultSwitch
  by_cases hkill : sig = 9 ∨ sig = 15 ∨ sig = 2 ∨ sig = 13
  · have h19 : sig ≠ 19 := by rcases hkill with rfl | rfl | rfl | rfl <;> decide
    obtain ⟨hb, hcode⟩ := blocked_exit cur m (128 + BitVec.ofNat 32 sig.val) .signal
    rw [if_pos hkill]
    refine Or.inr ⟨hmem.mpr (Or.inl hkill), _, rfl, schedYield_sig _ _, fun _ => ⟨?_, ?_⟩,
      fun h => absurd h h19⟩
    · rw [schedYield_state_self (by rw [hb.state, if_pos rfl]; decide), hb.state, if_pos rfl]
    · rw [schedYield_exitCode]
      exact hcode
  rw [if_neg hkill]
  by_cases hstop : sig = 19
  · have hb := blocked_setState cur m .sleeping .signal
    rw [if_pos hstop]
    refine Or.inr ⟨hmem.mpr (Or.inr hstop), _, rfl, schedYield_sig _ _, fun h => absurd hstop h,
      fun _ => ?_⟩
    rw [schedYield_state_self (by rw [hb.state, if_pos rfl]; decide), hb.state, if_pos rfl]
  · rw [if_neg hstop]
    exact Or.inl ⟨Bool.not_eq_true _ ▸ fun h => (hmem.mp h).elim hkill hstop, rfl⟩

/-! ## All rounds -/

/-- **The law of delivery** for the signals `l`: `s` and `s'` are the process's signals before and
after, `k` is the signal whose default action ended the loop, and the handlers of `called` were
called in that order. -/
structure Delivers (s : SigState) (l : List (Fin 32)) (k : Option (Fin 32))
    (called : List (Fin 32)) (s' : SigState) : Prop where
  /-- The caught signals below `k`. -/
  called_iff : ∀ sig, sig ∈ called ↔ sig ∈ l ∧ s.Deliverable sig ∧ s.Caught sig ∧ ∀ j ∈ k, sig < j
  /-- Once each, in ascending order. -/
  ascending : called.Pairwise (· < ·)
  /-- Cleared are the signals up to `k`. -/
  pending_iff : ∀ b, s'.pending.getLsbD b = true ↔ s.pending.getLsbD b = true ∧
    ¬ ∃ sig ∈ l, sig.val = b ∧ s.Deliverable sig ∧ ∀ j ∈ k, sig ≤ j
  blocked : s'.blocked = s.blocked
  handler : s'.handler = s.handler

namespace Delivers

variable {s s' : SigState} {k : Option (Fin 32)} {called : List (Fin 32)}

theorem nil (s : SigState) : Delivers s [] none [] s :=
  ⟨by simp, .nil, by simp, rfl, rfl⟩

theorem skip (h : Delivers s l k called s') (hs : ¬ s.Deliverable sig) :
    Delivers s (sig :: l) k called s' := by
  refine ⟨fun j => ?_, h.ascending, fun b => ?_, h.blocked, h.handler⟩
  · rw [h.called_iff, List.mem_cons]
    refine and_congr_left fun ⟨hj, _⟩ => (or_iff_right ?_).symm
    rintro rfl
    exact hs hj
  · rw [h.pending_iff]
    simp only [List.mem_cons, exists_eq_or_imp, hs, false_and, and_false, false_or]

theorem fatal (hl : (sig :: l).Pairwise (· < ·)) (hs : s.Deliverable sig) :
    Delivers s (sig :: l) (some sig) [] (s.clear sig) := by
  have hge : ∀ j ∈ sig :: l, sig ≤ j := fun j hj => by
    rcases List.mem_cons.mp hj with rfl | hj
    · exact le_refl j
    · exact (List.rel_of_pairwise_cons hl hj).le
  refine ⟨fun j => ?_, .nil, fun b => ?_, rfl, rfl⟩
  · refine iff_of_false List.not_mem_nil ?_
    rintro ⟨hj, -, -, hlt⟩
    exact absurd (hlt sig rfl) (not_lt.mpr (hge j hj))
  · rw [SigState.getLsbD_clear, Bool.and_eq_true, Bool.not_eq_true', decide_eq_false_iff_not]
    refine and_congr_right fun _ => not_congr ⟨?_, ?_⟩
    · rintro rfl
      exact ⟨sig, List.mem_cons_self, rfl, hs, fun j hj => by rw [Option.mem_some.mp hj]⟩
    · rintro ⟨j, hj, rfl, -, hle⟩
      rw [le_antisymm (hle sig rfl) (hge j hj)]

/-- A signal that is processed and does not end the loop; `add` is what is added to the calls. -/
theorem cons (hl : (sig :: l).Pairwise (· < ·)) (hs : s.Deliverable sig)
    (hk : ∀ j ∈ k, j ∈ l) (h : Delivers (s.clear sig) l k called s') {add : List (Fin 32)}
    (hadd : ∀ j, j ∈ add ↔ j = sig ∧ s.Caught sig) (hnd : add.Pairwise (· < ·)) :
    Delivers s (sig :: l) k (add ++ called) s' := by
  have hlt : ∀ j ∈ l, sig < j := fun j hj => List.rel_of_pairwise_cons hl hj
  have hne : ∀ j ∈ l, j ≠ sig := fun j hj => (hlt j hj).ne'
  refine ⟨fun j => ?_, ?_, fun b => ?_, h.blocked, h.handler⟩
  · rw [List.mem_append, hadd, h.called_iff, List.mem_cons]
    constructor
    · rintro (⟨rfl, hc⟩ | ⟨hj, hd, hc, hb⟩)
      · exact ⟨Or.inl rfl, hs, hc, fun i hi => hlt i (hk i hi)⟩
      · exact ⟨Or.inr hj, (SigState.deliverable_clear (hne j hj)).mp hd, hc, hb⟩
    · rintro ⟨rfl | hj, hd, hc, hb⟩
      · exact Or.inl ⟨rfl, hc⟩
      · exact Or.inr ⟨hj, (SigState.deliverable_clear (hne j hj)).mpr hd, hc, hb⟩
  · refine List.pairwise_append.mpr ⟨hnd, h.ascending, fun i hi j hj => ?_⟩
    rw [((hadd i).mp hi).1]
    exact hlt j ((h.called_iff j).mp hj).1
  · rw [h.pending_iff, SigState.getLsbD_clear, Bool.and_eq_true, Bool.not_eq_true',
      decide_eq_false_iff_not, and_assoc]
    refine and_congr_right fun _ => ⟨?_, ?_⟩
    · rintro ⟨hb, hno⟩ ⟨j, hj, rfl, hd, hle⟩
      rcases List.mem_cons.mp hj with rfl | hj
      · exact hb rfl
      · exact hno ⟨j, hj, rfl, (SigState.deliverable_clear (hne j hj)).mpr hd, hle⟩
    · intro hno
      refine ⟨?_, ?_⟩
      · rintro rfl
        exact hno ⟨sig, List.mem_cons_self, rfl, hs, fun i hi => (hlt i (hk i hi)).le⟩
      · rintro ⟨j, hj, rfl, hd, hle⟩
        exact hno ⟨j, List.mem_cons_of_mem sig hj, rfl,
          (SigState.deliverable_clear (hne j hj)).mp hd, hle⟩

end Delivers

/-- The first signal of `l` whose default action is taken. -/
def SigState.firstFatal (s : SigState) (l : List (Fin 32)) : Option (Fin 32) :=
  l.find? fun sig => s.Fatal sig

theorem SigState.firstFatal_cons_of_not {s : SigState} (h : ¬ s.Fatal sig) :
    s.firstFatal (sig :: l) = s.firstFatal l :=
  List.find?_cons_of_neg (by simpa using h)

theorem SigState.firstFatal_clear {s : SigState} (hl : (sig :: l).Pairwise (· < ·)) :
    (s.clear sig).firstFatal l = s.firstFatal l := by
  have hne : ∀ j ∈ l, j ≠ sig := fun j hj => (List.rel_of_pairwise_cons hl hj).ne'
  rw [firstFatal, firstFatal, ← List.head?_filter, ← List.head?_filter]
  exact congrArg List.head? (List.filter_congr fun j hj =>
    decide_eq_decide.mpr (SigState.fatal_clear (hne j hj)))

/-- What the loop over `l` has done to the machine `m` when it ends. -/
structure LoopDone (run : HandlerRun) (cur : Fin maxProcs) (l : List (Fin 32)) (m : Machine)
    (r : List (Fin 32) × Machine) : Prop where
  law : Delivers (m.sig cur) l ((m.sig cur).firstFatal l) r.1 (r.2.sig cur)
  action : ∀ k ∈ (m.sig cur).firstFatal l, DefaultAction cur k r.2
  state : (m.sig cur).firstFatal l = none →
    (∀ h sig m, (run h sig m).state cur = m.state cur) → r.2.state cur = m.state cur

section

variable {r : List (Fin 32) × Machine}

theorem LoopDone.skip (h : LoopDone run cur l m r) (hs : ¬ (m.sig cur).Deliverable sig) :
    LoopDone run cur (sig :: l) m r := by
  have hk := SigState.firstFatal_cons_of_not (l := l) (fun hf => hs hf.1 : ¬ (m.sig cur).Fatal sig)
  refine ⟨?_, ?_, ?_⟩
  · rw [hk]
    exact h.law.skip hs
  · rw [hk]
    exact h.action
  · rw [hk]
    exact h.state

theorem LoopDone.cons (hl : (sig :: l).Pairwise (· < ·)) (hs : (m.sig cur).Deliverable sig)
    (hf : ¬ (m.sig cur).Fatal sig) (h : LoopDone run cur l m' r)
    (hsig : m'.sig cur = (m.sig cur).clear sig)
    (hst : (∀ h sig m, (run h sig m).state cur = m.state cur) → m'.state cur = m.state cur)
    (add : List (Fin 32)) (hadd : ∀ j, j ∈ add ↔ j = sig ∧ (m.sig cur).Caught sig)
    (hnd : add.Pairwise (· < ·)) : LoopDone run cur (sig :: l) m (add ++ r.1, r.2) := by
  have hk : (m'.sig cur).firstFatal l = (m.sig cur).firstFatal (sig :: l) := by
    rw [SigState.firstFatal_cons_of_not hf, hsig, SigState.firstFatal_clear hl]
  have hlaw := h.law
  rw [hk, hsig] at hlaw
  refine ⟨hlaw.cons hl hs (fun j hj => ?_) hadd hnd, fun k hkm => h.action k (hk ▸ hkm),
    fun hnone hrun => (h.state (hk.trans hnone) hrun).trans (hst hrun)⟩
  rw [SigState.firstFatal_cons_of_not hf] at hj
  exact List.mem_of_find?_eq_some hj

end

theorem deliverLoop_done (hrun : ∀ h sig m, (run h sig m).sig cur = m.sig cur) :
    ∀ (l : List (Fin 32)) (m : Machine), l.Pairwise (· < ·) →
      LoopDone run cur l m (deliverLoop run cur l m)
  | [], m, _ => ⟨Delivers.nil _, nofun, fun _ _ => rfl⟩
  | sig :: l, m, hl => by
    have ih := fun m => deliverLoop_done hrun l m hl.of_cons
    have h64 : sig.val < 64 := by omega
    rw [deliverLoop]
    by_cases hp : (m.sig cur).pending &&& 1#64 <<< sig.val = 0
    · rw [if_pos hp]
      refine (ih m).skip fun hs => ?_
      rw [SigState.Deliverable, (SigState.and_bit_eq_zero h64).mp hp] at hs
      exact absurd hs.1 (by decide)
    rw [if_neg hp]
    by_cases hb : (m.sig cur).blocked &&& 1#64 <<< sig.val ≠ 0
    · rw [if_pos hb]
      refine (ih m).skip fun hs => hb ?_
      exact (SigState.and_bit_eq_zero h64).mpr hs.2
    rw [if_neg hb]
    have hs : (m.sig cur).Deliverable sig :=
      ⟨by simpa using mt (SigState.and_bit_eq_zero h64).mpr hp,
        (SigState.and_bit_eq_zero h64).mp (not_not.mp hb)⟩
    have hhandler : ((m.clearPending cur sig).sig cur).handler sig = (m.sig cur).handler sig := by
      rw [sig_clearPending]
      rfl
    have hgoes (hf : ¬ (m.sig cur).Fatal sig) (hc : ¬ (m.sig cur).Caught sig) :
        LoopDone run cur (sig :: l) m (deliverLoop run cur l (m.clearPending cur sig)) :=
      LoopDone.cons hl hs hf (ih _) sig_clearPending (fun _ => rfl) []
        (fun j => iff_of_false List.not_mem_nil fun h => hc h.2) .nil
    dsimp only
    rw [hhandler]
    by_cases hign : (m.sig cur).handler sig = sigIgn
    · rw [if_pos hign]
      refine hgoes (fun hf => ?_) fun hc => hc.2 hign
      exact absurd (hign.symm.trans hf.2.1) (by decide)
    rw [if_neg hign]
    by_cases hdfl : (m.sig cur).handler sig = sigDfl
    · rw [if_pos hdfl]
      rcases defaultSwitch_spec cur sig (m.clearPending cur sig) with
        ⟨hno, he⟩ | ⟨hyes, m', he, hsig, hact⟩
      · rw [he]
        refine hgoes (fun hf => ?_) fun hc => hc.1 hdfl
        exact absurd (hno.symm.trans hf.2.2) (by decide)
      · rw [he]
        have hf : (m.sig cur).Fatal sig := ⟨hs, hdfl, hyes⟩
        have hk : (m.sig cur).firstFatal (sig :: l) = some sig :=
          List.find?_cons_of_pos (decide_eq_true hf)
        refine ⟨?_, ?_, fun hnone => ?_⟩
        · rw [hk, hsig, sig_clearPending]
          exact Delivers.fatal hl hs
        · rw [hk]
          intro k hk'
          exact Option.some_inj.mp hk' ▸ hact
        · rw [hk] at hnone
          cases hnone
    · rw [if_neg hdfl]
      refine LoopDone.cons hl hs (fun hf => hdfl hf.2.1) (ih _) ?_ (fun hst => ?_) [sig]
        (fun j => ?_) (List.pairwise_singleton ..)
      · rw [hrun, sig_clearPending]
      · rw [hst]
        rfl
      · rw [List.mem_singleton]
        exact (and_iff_left ⟨hdfl, hign⟩).symm

/-! ## `signal_deliver` -/

/-- `1 ≤ sig < NSIG`. -/
def signals : List (Fin 32) := (List.finRange 32).tail

theorem signals_ascending : signals.Pairwise (· < ·) := by decide

theorem deliverLoop_none (hp : (m.sig cur).pending = 0) (l : List (Fin 32)) :
    deliverLoop run cur l m = ([], m) := by
  induction l with
  | nil => rfl
  | cons sig l ih =>
    have h0 : (m.sig cur).pending &&& 1#64 <<< sig.val = 0 := by rw [hp]; exact BitVec.zero_and
    rw [deliverLoop, if_pos h0, ih]

theorem signalDeliverCalls_eq (hc : m.kernel.currentProc = some cur) :
    signalDeliverCalls run m = deliverLoop run cur signals m := by
  rw [signalDeliverCalls, hc]
  dsimp only
  split
  · next hp => exact (deliverLoop_none hp signals).symm
  · rfl

/-- With handlers that do nothing the loop is `signalLoop`, followed by the default action. -/
theorem deliverLoop_snd (cur : Fin maxProcs) (l : List (Fin 32)) : ∀ m : Machine,
    (deliverLoop (fun _ _ m => m) cur l m).2 =
      let r := signalLoop (m.sig cur).blocked (m.sig cur).handler l (m.sig cur).pending
      let m' := { m with sig := update m.sig cur { m.sig cur with pending := r.1 } }
      (r.2.bind fun sig => defaultSwitch cur sig m').getD m' := by
  induction l with
  | nil => exact fun m => congrArg (fun sig => { m with sig }) (update_eq_self cur m.sig).symm
  | cons sig l ih =>
    intro m
    rw [deliverLoop, signalLoop]
    by_cases hp : (m.sig cur).pending &&& 1#64 <<< sig.val = 0
    · rw [if_pos hp, if_pos (Or.inl hp)]
      exact ih m
    by_cases hb : (m.sig cur).blocked &&& 1#64 <<< sig.val ≠ 0
    · rw [if_neg hp, if_pos hb, if_pos (Or.inr hb)]
      exact ih m
    rw [if_neg hp, if_neg hb, if_neg (not_or.mpr ⟨hp, hb⟩)]
    have hgoes := ih (m.clearPending cur sig)
    have hclear : (m.clearPending cur sig).sig = update m.sig cur ((m.sig cur).clear sig) := rfl
    simp only [hclear, update_self, update_idem, SigState.clear] at hgoes
    dsimp only
    rw [hclear, update_self]
    by_cases hdfl : (m.sig cur).handler sig = 0
    · have hign : ((m.sig cur).clear sig).handler sig ≠ sigIgn := by
        show (m.sig cur).handler sig ≠ sigIgn
        rw [hdfl]
        decide
      rw [if_neg hign, if_pos (show ((m.sig cur).clear sig).handler sig = sigDfl from hdfl)]
      rcases defaultSwitch_spec cur sig (m.clearPending cur sig) with
        ⟨hno, he⟩ | ⟨hyes, m', he, -, -⟩
      · rw [he, if_neg (by simp [hno])]
        exact hgoes
      · rw [he, if_pos ⟨hdfl, hyes⟩]
        exact (congrArg (Option.getD · _) he).symm
    · rw [if_neg (fun h : _ = 0 ∧ _ => hdfl h.1),
        if_neg (show ¬ ((m.sig cur).clear sig).handler sig = sigDfl from hdfl)]
      split <;> exact hgoes

theorem sigDefault_of_signalLoop {blocked : U64} {handler : Fin 32 → U64} {k : Fin 32} :
    ∀ {l : List (Fin 32)} {pending : U64}, (signalLoop blocked handler l pending).2 = some k →
      sigDefault k = true
  | [], _, h => nomatch h
  | sig :: l, pending, h => by
    rw [signalLoop] at h
    dsimp only at h
    split_ifs at h with hskip hdfl
    · exact sigDefault_of_signalLoop h
    · obtain rfl := Option.some_inj.mp h
      exact hdfl.2
    · exact sigDefault_of_signalLoop h

theorem signalDeliverCalls_snd (hc : m.kernel.currentProc = some cur) :
    (signalDeliverCalls (fun _ _ m => m) m).2 = signalDeliver cur m := by
  have hdef := @sigDefault_of_signalLoop (m.sig cur).blocked (m.sig cur).handler
  rw [signalDeliverCalls_eq hc, deliverLoop_snd, signals]
  unfold signalDeliver
  dsimp only
  cases hr : signalLoop (m.sig cur).blocked (m.sig cur).handler (List.finRange 32).tail
    (m.sig cur).pending with
  | mk pending act =>
    cases act with
    | none => rfl
    | some sig =>
      have hsig : sig ∈ [2, 9, 13, 15, 19] := of_decide_eq_true (hdef (congrArg Prod.snd hr))
      simp only [List.mem_cons, List.not_mem_nil, or_false] at hsig
      rcases hsig with rfl | rfl | rfl | rfl | rfl <;> rfl

theorem SigState.mem_firstFatal {s : SigState} {k : Fin 32} (hl : l.Pairwise (· < ·)) :
    k ∈ s.firstFatal l ↔ IsLeast {sig | sig ∈ l ∧ s.Fatal sig} k := by
  induction l with
  | nil => exact iff_of_false nofun fun h => absurd h.1.1 List.not_mem_nil
  | cons sig l ih =>
    by_cases hf : s.Fatal sig
    · have hleast : IsLeast {j | j ∈ sig :: l ∧ s.Fatal j} sig := by
        refine ⟨⟨List.mem_cons_self, hf⟩, fun j hj => ?_⟩
        rcases List.mem_cons.mp hj.1 with rfl | hj
        · exact le_refl j
        · exact (List.rel_of_pairwise_cons hl hj).le
      have hfirst : s.firstFatal (sig :: l) = some sig :=
        List.find?_cons_of_pos (decide_eq_true hf)
      rw [hfirst, Option.mem_some]
      exact ⟨fun h => h ▸ hleast, fun h => hleast.unique h⟩
    · have hset : {j | j ∈ sig :: l ∧ s.Fatal j} = {j | j ∈ l ∧ s.Fatal j} := by
        ext j
        refine and_congr_left fun hj => List.mem_cons.trans (or_iff_right ?_)
        rintro rfl
        exact hf hj
      rw [firstFatal_cons_of_not hf, ih hl.of_cons, hset]

/-- **Which signals are processed.** Let `k` be the least pending, unblocked signal with the default
action to end or stop the process, if there is one. If handlers leave the signals of the process
alone, `signal_deliver` calls the handlers of the caught signals below `k` once each in ascending
order and clears exactly the signals up to `k`; the process is a zombie with code 128 + `k`, or
stopped, and without `k` in the state the handlers left it in. -/
theorem signal_deliver_exact (run : HandlerRun) (hc : m.kernel.currentProc = some cur)
    (hrun : ∀ h sig m, (run h sig m).sig cur = m.sig cur) {k : Option (Fin 32)}
    (hk : ∀ j, j ∈ k ↔ IsLeast {sig | sig ∈ signals ∧ (m.sig cur).Fatal sig} j) :
    let r := signalDeliverCalls run m
    Delivers (m.sig cur) signals k r.1 (r.2.sig cur) ∧
    (∀ j ∈ k, DefaultAction cur j r.2) ∧
    (k = none → (∀ h sig m, (run h sig m).state cur = m.state cur) →
      r.2.state cur = m.state cur) := by
  have hfirst : (m.sig cur).firstFatal signals = k :=
    Option.ext fun j => (SigState.mem_firstFatal signals_ascending).trans (hk j).symm
  have hdone : LoopDone run cur signals m (signalDeliverCalls run m) := by
    rw [signalDeliverCalls_eq hc]
    exact deliverLoop_done hrun signals m signals_ascending
  exact hfirst ▸ ⟨hdone.law, hdone.action, hdone.state⟩

/-- Process 1 with `SIGHUP` caught, `SIGINT` ignored, and both pending with `SIGTERM` and
`SIGSTOP`. -/
def signalled : Machine :=
  let k : Kernel := ⟨eightPages, 0, fun _ => Process.zero, some 1, 2, fun _ => 0,
    ⟨fun _ => none, 0, 0, 0⟩⟩
  let handler (sig : Fin 32) : U64 :=
    if sig = 1 then 0x400000 else if sig = 2 then sigIgn else sigDfl
  { Machine.boot (fun _ => 0) k with kernel := k, sig := fun _ => ⟨0x88006, 0, handler⟩ }

/-- `SIGTERM` is the first fatal one. -/
theorem signal_deliver_exact_signalled :
    let r := signalDeliverCalls (fun _ _ m => m) signalled
    1 ∈ r.1 ∧ 2 ∉ r.1 ∧ (r.2.sig 1).pending.getLsbD 19 = true ∧
      r.2.state 1 = .zombie ∧ (r.2.kernel.procTable 1).exitCode = 143 := by
  have hk : (signalled.sig 1).firstFatal signals = some 15 := by decide
  have hc : signalled.kernel.currentProc = some 1 := rfl
  obtain ⟨hlaw, hact, -⟩ := signal_deliver_exact (fun _ _ m => m) hc (fun _ _ _ => rfl)
    (k := some 15) fun j => hk ▸ SigState.mem_firstFatal signals_ascending
  obtain ⟨hst, hcode⟩ := (hact 15 rfl).killed (by decide)
  refine ⟨(hlaw.called_iff 1).mpr (by decide), mt (hlaw.called_iff 2).mp (by decide),
    (hlaw.pending_iff 19).mpr (by decide), hst, hcode⟩

end Sinux.Proc

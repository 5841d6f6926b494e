import Sinux.Arch.Syscall
import Sinux.Ipc.Pipe

/-!
# Waiting in a pipe on one core

The wait loops of `pipe_read` and `pipe_write` spin on `pause` and do not call `sched_yield`, and
`SYSCALL` clears `IF`, so nobody else runs until the loop ends. `Core` is the core with the calls
of the processes that share a pipe.

* `pipe_waits_end`: in every run in which reads start on a pipe that is not empty or has no writer,
  and writes fit, a process in a wait loop gets out of it.
* `read_hangs`: the reader comes first.
-/

namespace Sinux.Ipc

open Function Sinux.Lib

variable {ι : Type} [DecidableEq ι]

/-! ## The core -/

/-- The core: the process it runs, its flags, and the call on the pipe in which each process is,
`none` in user mode. -/
structure Core (ι : Type) where
  pipe : Pipe
  current : ι
  rflags : U64
  calls : ι → Option Call

/-- `IF`. -/
def Core.interruptsEnabled (s : Core ι) : Bool := s.rflags.getLsbD 9

/-- The flags of user code. -/
def userRflags : U64 := 0x202

/-- The call has returned. -/
inductive Call.Done : Call → Prop
  | read (n : U64) (dst : List (BitVec 8)) (ret : U64) : Done (.readDone n dst ret)
  | write (src : List (BitVec 8)) (written : Nat) (ret : U64) : Done (.writeDone src written ret)

/-- The steps of the core. `ok` is the condition under which a call starts. -/
inductive CoreStep (ok : Pipe → Call → Prop) : Core ι → Core ι → Prop
  | call (s : Core ι) (c : Call) (hu : s.calls s.current = none) (hc : c.Starts)
      (hok : ok s.pipe c) :
      CoreStep ok s { s with
        rflags := s.rflags &&& ~~~Arch.fmask
        calls := update s.calls s.current (some c) }
  | round (s : Core ι) (c : Call) (hc : s.calls s.current = some c) :
      CoreStep ok s { s with
        pipe := (callRound s.pipe c).pipe
        calls := update s.calls s.current (some (callRound s.pipe c).call) }
  | ret (s : Core ι) (c : Call) (hc : s.calls s.current = some c) (hd : c.Done) :
      CoreStep ok s { s with
        rflags := userRflags, calls := update s.calls s.current none }
  | close (s : Core ι) (flags : BitVec 32) (p : Pipe) (hu : s.calls s.current = none)
      (hp : pipeClose flags s.pipe = some p) : CoreStep ok s { s with pipe := p }
  /-- A tick, when it is let through, can switch to another process. -/
  | tick (s : Core ι) (next : ι) (hi : s.interruptsEnabled = true) :
      CoreStep ok s { s with current := next, rflags := userRflags }
  /-- Another system call that calls `sched_yield`. -/
  | yield (s : Core ι) (next : ι) (hu : s.calls s.current = none) :
      CoreStep ok s { s with current := next, rflags := userRflags }

/-- A new pipe, and `i` in user mode. -/
def Core.new (i : ι) : Core ι := ⟨pipeAlloc, i, userRflags, fun _ => none⟩

/-- The states of the runs. -/
def CoreReach (ok : Pipe → Call → Prop) (i : ι) : Core ι → Prop :=
  Relation.ReflTransGen (CoreStep ok) (Core.new i)

/-! ## Waiting -/

/-- The current process is in a wait loop, and the loop goes on. -/
inductive Call.Waits (p : Pipe) : Call → Prop
  | read (n : U64) (hc : p.count = 0) : Waits p (.readWait n)
  | write (src : List (BitVec 8)) (written : Nat) (hw : written < src.length)
      (hc : pipeBufSize ≤ p.count) : Waits p (.writeLoop src written)

/-- The other end is closed and the loop returns: 0 from a read, an error from a write. -/
inductive Call.LoopReturns (p : Pipe) : Call → Prop
  | read (n : U64) (hw : p.writeClosed = true)
      (hr : (callRound p (.readWait n)).call = .readDone n [] 0) : LoopReturns p (.readWait n)
  | write (src : List (BitVec 8)) (written : Nat) (ret : U64) (hr : p.readClosed = true)
      (hret : (callRound p (.writeLoop src written)).call = .writeDone src written ret)
      (herr : ret.slt 0 = true) : LoopReturns p (.writeLoop src written)

/-- A process in a wait loop can get out of it: somebody else can be scheduled, or the loop
returns. -/
def NoDeadlock (ok : Pipe → Call → Prop) (s : Core ι) : Prop :=
  ∀ c, s.calls s.current = some c → c.Waits s.pipe →
    (∃ s', CoreStep ok s s' ∧ s'.current ≠ s.current) ∨ c.LoopReturns s.pipe

/-- The call does not have to wait for anybody. -/
def Call.Fits (p : Pipe) : Call → Prop
  | .readWait _ => 0 < p.count ∨ p.writeClosed = true
  | .writeStart src => p.readClosed = true ∨ p.count + src.length ≤ pipeBufSize
  | .writeLoop src written => p.count + (src.length - written) ≤ pipeBufSize
  | _ => True

theorem Call.Fits.loopReturns {p : Pipe} {c : Call} (h : c.Fits p) (hw : c.Waits p) :
    c.LoopReturns p := by
  cases hw with
  | read n hc =>
    have hclosed : p.writeClosed = true := h.resolve_left (by omega)
    exact .read n hclosed (by simp only [callRound, if_pos hc, if_pos hclosed])
  | write src written hw hc =>
    have : p.count + (src.length - written) ≤ pipeBufSize := h
    omega

theorem Call.Fits.round {p : Pipe} {c : Call} (h : c.Fits p) :
    (callRound p c).call.Fits (callRound p c).pipe := by
  cases c with
  | readWait n =>
    simp only [callRound]
    split
    · split
      · trivial
      · exact h
    · trivial
  | readCopy n dst =>
    simp only [callRound]
    split <;> trivial
  | writeStart src =>
    simp only [callRound]
    split
    · trivial
    · next hr => exact (h.resolve_left hr :)
  | writeLoop src written =>
    simp only [callRound]
    have hroom : p.count + (src.length - written) ≤ pipeBufSize := h
    split
    · trivial
    · next b hb =>
      have hlt : written < src.length := (List.getElem?_eq_some_iff.mp hb).1
      split
      · exact h
      · show p.count + 1 + (src.length - (written + 1)) ≤ pipeBufSize
        omega
  | readDone n dst ret => trivial
  | writeDone src written ret => trivial

/-! ## Runs -/

/-- Only the current process can be in a call, and while it is, `IF` is clear. -/
structure Masked (s : Core ι) : Prop where
  others : ∀ i, i ≠ s.current → s.calls i = none
  user : s.interruptsEnabled = true → s.calls s.current = none

theorem Masked.all_user {s : Core ι} (h : Masked s) (hu : s.calls s.current = none) (i : ι) :
    s.calls i = none := by
  by_cases hi : i = s.current
  · exact hi ▸ hu
  · exact h.others i hi

theorem masked_step {ok : Pipe → Call → Prop} {s s' : Core ι} (h : Masked s)
    (hst : CoreStep ok s s') : Masked s' := by
  have hother {v : Option Call} (i : ι) (hi : i ≠ s.current) :
      update s.calls s.current v i = none :=
    (update_of_ne hi ..).trans (h.others i hi)
  have hall := h.all_user
  cases hst with
  | call c hu hc hok =>
    refine ⟨hother, fun hi => ?_⟩
    have hmask : (s.rflags &&& ~~~Arch.fmask).getLsbD 9 = false := by
      simp [Arch.fmask]
    exact absurd (hi.symm.trans hmask) nofun
  | round c hc =>
    exact ⟨hother, fun hi => nomatch hc.symm.trans (h.user hi)⟩
  | ret c hc hd => exact ⟨hother, fun _ => update_self ..⟩
  | close flags p hu hp => exact ⟨h.others, h.user⟩
  | tick next hi => exact ⟨fun i _ => hall (h.user hi) i, fun _ => hall (h.user hi) next⟩
  | yield next hu => exact ⟨fun i _ => hall hu i, fun _ => hall hu next⟩

theorem masked_of_reach {ok : Pipe → Call → Prop} {i : ι} {s : Core ι} (hr : CoreReach ok i s) :
    Masked s := by
  induction hr with
  | refl => exact ⟨fun _ _ => rfl, fun _ => rfl⟩
  | tail _ hst ih => exact masked_step ih hst

theorem fits_step {s s' : Core ι} (hm : Masked s)
    (h : ∀ c, s.calls s.current = some c → c.Fits s.pipe)
    (hst : CoreStep (fun p c => c.Fits p) s s') :
    ∀ c, s'.calls s'.current = some c → c.Fits s'.pipe := by
  have hself {v : Option Call} : update s.calls s.current v s.current = v :=
    update_self ..
  intro c' hc'
  cases hst with
  | call c hu hc hok =>
    obtain rfl : c = c' := Option.some.inj (hself.symm.trans hc')
    exact hok
  | round c hc =>
    obtain rfl : _ = c' := Option.some.inj (hself.symm.trans hc')
    exact (h c hc).round
  | ret c hc hd => exact nomatch hself.symm.trans hc'
  | close flags p hu hp => exact nomatch hu.symm.trans hc'
  | tick next hi => exact nomatch (hm.all_user (hm.user hi) next).symm.trans hc'
  | yield next hu => exact nomatch (hm.all_user hu next).symm.trans hc'

/-- **A process in a wait loop gets out of it when every call fits.** -/
theorem pipe_waits_end {i : ι} {s : Core ι} (hr : CoreReach (fun p c => c.Fits p) i s) :
    NoDeadlock (fun p c => c.Fits p) s := by
  have hfits : ∀ c, s.calls s.current = some c → c.Fits s.pipe := by
    induction hr with
    | refl => exact nofun
    | tail hr hst ih => exact fits_step (masked_of_reach hr) ih hst
  exact fun c hc hw => .inr ((hfits c hc).loopReturns hw)

/-! ## The other calls -/

/-- A wait that the loop itself does not end. -/
def Core.Stuck (s : Core ι) : Prop :=
  ∃ c, s.calls s.current = some c ∧ c.Waits s.pipe ∧ ¬ c.LoopReturns s.pipe

theorem callRound_of_waits {p : Pipe} {c : Call} (hw : c.Waits p) (hl : ¬ c.LoopReturns p) :
    (callRound p c).pipe = p ∧ (callRound p c).call = c := by
  cases hw with
  | read n hc =>
    have hopen : ¬ p.writeClosed = true := fun hclosed =>
      hl (.read n hclosed (by simp only [callRound, if_pos hc, if_pos hclosed]))
    simp only [callRound, if_pos hc, if_neg hopen, and_self]
  | write src written hlt hc =>
    simp only [callRound, List.getElem?_eq_getElem hlt, if_pos hc, and_self]

theorem Core.Stuck.step {ok : Pipe → Call → Prop} {s s' : Core ι} (h : s.Stuck) (hm : Masked s)
    (hst : CoreStep ok s s') : s' = s := by
  obtain ⟨c, hc, hw, hl⟩ := h
  have hno (hu : s.calls s.current = none) : s' = s := nomatch hu.symm.trans hc
  cases hst with
  | call _ hu => exact hno hu
  | round c' hc' =>
    obtain rfl : c = c' := Option.some.inj (hc.symm.trans hc')
    obtain ⟨hp, hcall⟩ := callRound_of_waits hw hl
    rw [hp, hcall, ← hc, update_eq_self]
  | ret c' hc' hd =>
    obtain rfl : c = c' := Option.some.inj (hc.symm.trans hc')
    cases hd <;> cases hw
  | close _ _ hu => exact hno hu
  | tick _ hi => exact hno (hm.user hi)
  | yield _ hu => exact hno hu

theorem noDeadlock_iff {ok : Pipe → Call → Prop} {i : ι} {s : Core ι} (hr : CoreReach ok i s) :
    NoDeadlock ok s ↔ ¬ s.Stuck := by
  refine ⟨fun h hs => ?_, fun h c hc hw => .inr (by_contra fun hl => h ⟨c, hc, hw, hl⟩)⟩
  obtain ⟨c, hc, hw, hl⟩ := id hs
  rcases h c hc hw with ⟨s', hst, hne⟩ | hret
  · exact hne (by rw [hs.step (masked_of_reach hr) hst])
  · exact hl hret

/-- A reader that finds an empty pipe without a writer is in its wait loop and gets out of it. -/
theorem pipe_waits_end_eof : ∃ s : Core Bool, CoreReach (fun p c => c.Fits p) false s ∧
    (∃ c, s.calls s.current = some c ∧ c.Waits s.pipe) ∧ NoDeadlock (fun p c => c.Fits p) s := by
  have hclose : CoreReach (fun p c => c.Fits p) false
      { Core.new false with pipe := { pipeAlloc with writeClosed := true, refcount := 1 } } :=
    Relation.ReflTransGen.single (.close (Core.new false) 1 _ rfl rfl)
  have hread := hclose.tail (.call _ (.readWait 1) rfl (.read 1) (.inr rfl))
  exact ⟨_, hread, ⟨.readWait 1, rfl, .read 1 rfl⟩, pipe_waits_end hread⟩

/-- **A reader that comes first hangs the machine.** One of two processes reads from the new pipe:
it is in its wait loop, nobody else can be scheduled, and the loop does not end. -/
theorem read_hangs : ∃ s : Core Bool, CoreReach (fun _ _ => True) false s ∧
    s.calls s.current = some (.readWait 1) ∧ s.pipe.writeClosed = false ∧
    ¬ NoDeadlock (fun _ _ => True) s ∧ ∀ s', CoreStep (fun _ _ => True) s s' → s' = s := by
  have hr : CoreReach (fun _ _ => True) false _ :=
    Relation.ReflTransGen.single (.call (Core.new false) (.readWait 1) rfl (.read 1) trivial)
  have hstuck : Core.Stuck { Core.new false with
      rflags := (Core.new false).rflags &&& ~~~Arch.fmask
      calls := update (Core.new false).calls false (some (.readWait 1)) } := by
    refine ⟨.readWait 1, rfl, .read 1 rfl, ?_⟩
    rintro (⟨_, hclosed, -⟩ | _)
    cases hclosed
  exact ⟨_, hr, rfl, rfl, fun h => (noDeadlock_iff hr).mp h hstuck,
    fun s' hst => hstuck.step (masked_of_reach hr) hst⟩

end Sinux.Ipc

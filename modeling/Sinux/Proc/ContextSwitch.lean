import Sinux.Arch.Switch
import Sinux.Proc.KernelStack
import Mathlib.Logic.Relation
import Mathlib.Order.CompletePartialOrder

/-!
# Contexts over runs of `arch_switch`

Any number of processes take turns. While one runs, it does what it likes with the registers, its
own stack and the rest of memory; the stacks of the others are left alone. `arch_switch` hands the
processor on, and `sys_fork` and `proc_spawn_init` build a frame for a process that has never run.
A run remembers of each process that waits the context at its last call of `arch_switch`, or what
was recorded when its frame was built.

* `switch_restores_context`: whoever is switched to finds its context, and a new process comes to
  user mode with what was recorded for it.

Stacks are sets of physical addresses, so two processes may have their stacks at the same addresses
of two address spaces.
-/

namespace Sinux.Proc

open Function Sinux.Lib Sinux.Lib.X86 Sinux.Arch Sinux.Mm

/-! ## The first frame -/

/-- The word of memory at a physical address. -/
def wordAt (m : Mem) (a : U64) : U64 := m (pageOf a) ⟨a.toNat % 4096 / 8, wordIdx_lt a⟩

/-- A store to the word at a physical address. -/
def setWord (a w : U64) (s : Phys) : Phys := s.setEntry a ⟨a.toNat % 4096 / 8, wordIdx_lt a⟩ w

theorem wordAt_setWord {s : Phys} {a b : U64} (h : a.toNat / 8 ≠ b.toNat / 8) (w : U64) :
    wordAt (setWord a w s).mem b = wordAt s.mem b := by
  refine Radix.store_ne fun he => h ?_
  have hpage : b.toNat / 4096 = a.toNat / 4096 := he.1
  have hidx : b.toNat % 4096 / 8 = a.toNat % 4096 / 8 := congrArg Fin.val he.2
  omega

theorem pushWords_concat (sp : U64) (ws : List U64) (w : U64) (s : Phys) :
    pushWords sp (ws ++ [w]) s =
      ((pushWords sp ws s).1 - 8, setWord ((pushWords sp ws s).1 - 8) w (pushWords sp ws s).2) :=
  List.foldl_append

theorem pushWords_sp (sp : U64) (ws : List U64) (s : Phys) :
    (pushWords sp ws s).1 = sp - BitVec.ofNat 64 (8 * ws.length) := by
  induction ws using List.reverseRecOn with
  | nil => exact (BitVec.sub_zero sp).symm
  | append_singleton ws w ih =>
    rw [pushWords_concat, ih, List.length_append, List.length_singleton]
    bv_omega

theorem pushWords_holds (sp : U64) (s : Phys) : (ws : List U64) → ws.length < 2 ^ 60 →
    Holds (wordAt (pushWords sp ws s).2.mem) (sp - BitVec.ofNat 64 (8 * ws.length)) ws.reverse := by
  intro ws
  induction ws using List.reverseRecOn with
  | nil => exact fun _ => trivial
  | append_singleton ws w ih =>
    intro hlen
    rw [List.length_append, List.length_singleton] at hlen
    have hsp : sp - BitVec.ofNat 64 (8 * ws.length) - 8 =
        sp - BitVec.ofNat 64 (8 * (ws.length + 1)) := by
      bv_omega
    rw [pushWords_concat, pushWords_sp, List.reverse_append, List.reverse_singleton,
      List.singleton_append, List.length_append, List.length_singleton, ← hsp]
    refine ⟨Radix.store_self .., ?_⟩
    rw [BitVec.sub_add_cancel]
    refine holds_congr (fun k hk => wordAt_setWord ?_ w) (ih (by omega))
    rw [List.length_reverse] at hk
    bv_omega

/-- The kernel `k` in which process `i` has just got its first frame, and what was recorded in it:
the context of the system call in `sys_fork`, the entry point and the first stack pointer in
`proc_spawn_init`. -/
inductive Builds (i : Fin maxProcs) (u : UserCtx) : Kernel → Prop
  | fork (k k₁ : Kernel) (s : Phys) (parent : Fin maxProcs) (pml4 : U64)
      (hclone : vmmClonePml4 k.kernelPml4 (k.procTable parent).pml4 k.phys = (pml4, s))
      (hpml4 : pml4 ≠ 0) (hcreate : procCreate (k.withPhys s) = (some i, k₁)) :
      Builds i u (sysFork u parent k).2
  | spawn (k k' : Kernel) (ld : Loader) (info : ElfInfo) (r : Int)
      (hrsp : u.rsp = (ld.buildUserStack (k.procTable i).pml4 k.phys).1)
      (hrip : u.rip = info.entry) (hrflags : u.rflags = 0x202)
      (he : startInit ld u.stub i info k = some (r, k')) : Builds i u k'

theorem procSpawnInit_builds {ld : Loader} {stub : U64} {k k' : Kernel}
    (hfetch : (ld.fetch k.phys).1 = none) (h : procSpawnInit ld stub k = some (0, k')) :
    ∃ i u, Builds i u k' ∧ u.stub = stub := by
  unfold procSpawnInit at h
  cases hf : ld.fetch k.phys with
  | mk e s =>
    have he : e = none := by rw [← hfetch, hf]
    rw [hf, he] at h
    dsimp only at h
    split at h
    · cases h
    · next i k₁ _ =>
      split at h
      · exact ⟨i, ⟨_, _, _, stub⟩, .spawn _ k' ld _ 0 rfl rfl rfl h, rfl⟩
      · cases h

theorem pushFrame_holds (i : Fin maxProcs) (k : Kernel) {frame : List U64}
    (hlen : frame.length < 2 ^ 60) : Holds (wordAt (pushFrame i frame k).phys.mem)
      ((pushFrame i frame k).procTable i).rsp frame.reverse := by
  have hrsp : ((pushFrame i frame k).procTable i).rsp =
      (pushWords ((k.procTable i).kstack + kstackSize) frame k.phys).1 := by
    unfold pushFrame
    dsimp only
    rw [upd_self]
  rw [hrsp, pushWords_sp]
  exact pushWords_holds _ _ frame hlen

theorem Builds.holds {i : Fin maxProcs} {u : UserCtx} {k : Kernel} (h : Builds i u k) :
    Holds (wordAt k.phys.mem) (k.procTable i).rsp
      (switchFrame u.stub u.rip u.rsp u.rflags).reverse := by
  cases h with
  | fork k k₁ s parent pml4 hclone hpml4 hcreate =>
    simp only [sysFork, hclone, if_neg hpml4, hcreate]
    rw [schedAdd_procTable, schedAdd_phys]
    exact pushFrame_holds i _ (by show 8 < 2 ^ 60; decide)
  | spawn k k' ld info r hrsp hrip hrflags he =>
    unfold startInit at he
    obtain ⟨kp, -, he⟩ := Option.bind_eq_some_iff.mp he
    cases he
    rw [upd_self]
    rw [schedAdd_procTable, schedAdd_phys, hrsp, hrip, hrflags]
    exact pushFrame_holds i _ (by show 8 < 2 ^ 60; decide)

/-! ## Runs -/

/-- What is known of a process: nothing while it runs or before it is there, its context when it
gave up the processor, or what was recorded in its first frame. -/
inductive Record where
  | none
  | switched (x : Context)
  | created (u : UserCtx)

/-- The context on the stack of a process is the one known of it. -/
def Record.Fits : Record → Context → Prop
  | .none, _ => False
  | .switched y, x => x = y
  | .created u, x => x.words = switchFrame u.stub u.rip u.rsp u.rflags

/-- The processor, who has it, and for each process its stack and the tables it runs with. -/
structure World (ι : Type*) where
  core : Core
  cur : ι
  stack : ι → Set U64
  space : ι → U64
  record : ι → Record

section Runs

variable {ι : Type*} [DecidableEq ι] (slot : ι → U64) (entry : U64)

/-- The stacks are disjoint, and `p->rsp`, at `slot p`, lies on none of them. -/
structure Layout (w : World ι) : Prop where
  apart : ∀ p q, p ≠ q → Disjoint (w.stack p) (w.stack q)
  slots : ∀ p q, slot p ∉ w.stack q

/-- Process `p` waits, and nobody touches its stack, the tables that lead there, or `p->rsp`. -/
structure LeftAlone (p : ι) (w w' : World ι) : Prop where
  stack : w'.stack p = w.stack p
  space : w'.space p = w.space p
  record : w'.record p = w.record p
  slot : w'.core.mem (slot p) = w.core.mem (slot p)
  mem : ∀ x ∈ w.stack p, w'.core.mem x = w.core.mem x
  walk : ∀ a, w.core.walk (w.space p) a ∈ w.stack p →
    w'.core.walk (w.space p) a = w.core.walk (w.space p) a

/-- The call `arch_switch(&cur->rsp, next->rsp, cr3)` of `do_switch` for a process that waits.
There is room for the context on the stack of `cur`, and the tables of `next` are loaded or passed. -/
structure Call (w : World ι) (next : ι) : Prop where
  ne : next ≠ w.cur
  waits : w.record next ≠ .none
  rdi : w.core.walk w.core.cr3 (w.core.reg .rdi) = slot w.cur
  rsi : w.core.reg .rsi = w.core.mem (slot next)
  rdx : nextCr3 w.core = w.space next
  room : ∀ j < 8, w.core.pushAddr j ∈ w.stack w.cur
  inj : ∀ j < 8, ∀ k < 8, w.core.pushAddr j = w.core.pushAddr k → j = k
  flags : PlainFlags w.core.rflags

/-- The world after `arch_switch`. -/
def World.switch (w : World ι) (next : ι) : World ι where
  core := archSwitch entry w.core
  cur := next
  stack := w.stack
  space := update w.space w.cur w.core.cr3
  record := update (update w.record w.cur (.switched (contextOf w.core))) next .none

/-- The first frame that `sys_fork` or `proc_spawn_init` has built for slot `i` of `k` is on the
stack of process `p`. -/
structure Framed (p : ι) (i : Fin maxProcs) (u : UserCtx) (k : Kernel) (w : World ι) : Prop where
  record : w.record p = .created u
  slot : w.core.mem (slot p) = (k.procTable i).rsp
  room : ∀ j < 8, w.core.walk (w.space p) ((k.procTable i).rsp + BitVec.ofNat 64 (8 * j)) ∈ w.stack p
  mem : ∀ j < 8, w.core.view (w.space p) ((k.procTable i).rsp + BitVec.ofNat 64 (8 * j)) =
    wordAt k.phys.mem ((k.procTable i).rsp + BitVec.ofNat 64 (8 * j))

/-- A step: the process that has the processor runs, a process is created, or the processor is
handed on. -/
inductive WStep : World ι → World ι → Prop
  | run (w w' : World ι) (hcur : w'.cur = w.cur) (hl : Layout slot w')
      (h : ∀ p, p ≠ w.cur → LeftAlone slot p w w') : WStep w w'
  | create (w w' : World ι) (p : ι) (i : Fin maxProcs) (u : UserCtx) (k : Kernel)
      (hcur : w'.cur = w.cur) (hl : Layout slot w') (hp : p ≠ w.cur) (hb : Builds i u k)
      (hf : Framed slot p i u k w') (h : ∀ q, q ≠ w.cur → q ≠ p → LeftAlone slot q w w') :
      WStep w w'
  | switch (w : World ι) (next : ι) (h : Call slot w next) : WStep w (w.switch entry next)

/-- Only one process is there. -/
structure World.Boot (w : World ι) : Prop extends Layout slot w where
  record : ∀ p, w.record p = .none

/-- The states of the runs from `w₀`. -/
def WReach (w₀ : World ι) : World ι → Prop := Relation.ReflTransGen (WStep slot entry) w₀

/-! ## The invariant -/

/-- The context `x` lies on the stack of the waiting process `p`. -/
structure Waits (p : ι) (x : Context) (w : World ι) : Prop where
  saved : Saved (w.core.view (w.space p)) (w.core.mem (slot p)) x
  inside : ∀ k < 8, w.core.walk (w.space p) (w.core.mem (slot p) + BitVec.ofNat 64 (8 * k)) ∈
    w.stack p
  fits : (w.record p).Fits x

/-- Every process that waits has a context on its stack. -/
structure WorldInv (w : World ι) : Prop extends Layout slot w where
  waits : ∀ p, p ≠ w.cur → w.record p ≠ .none → ∃ x, Waits slot p x w

variable {slot entry} {w w' : World ι}

omit [DecidableEq ι] in
theorem LeftAlone.waits {p : ι} {x : Context} (h : LeftAlone slot p w w') (hw : Waits slot p x w) :
    Waits slot p x w' := by
  have hview (k : Nat) (hk : k < 8) :
      w'.core.walk (w.space p) (w.core.mem (slot p) + BitVec.ofNat 64 (8 * k)) =
        w.core.walk (w.space p) (w.core.mem (slot p) + BitVec.ofNat 64 (8 * k)) :=
    h.walk _ (hw.inside k hk)
  refine ⟨⟨?_, by rw [h.slot]; exact hw.saved.rsp, hw.saved.flags⟩, fun k hk => ?_, ?_⟩
  · rw [h.slot, h.space]
    refine holds_congr (fun k hk => ?_) hw.saved.words
    unfold Core.view
    rw [hview k hk]
    exact h.mem _ (hw.inside k hk)
  · rw [h.slot, h.space, h.stack, hview k hk]
    exact hw.inside k hk
  · rw [h.record]
    exact hw.fits

omit [DecidableEq ι] in
theorem Framed.waits {p : ι} {i : Fin maxProcs} {u : UserCtx} {k : Kernel} (hb : Builds i u k)
    (h : Framed slot p i u k w) : ∃ x, Waits slot p x w := by
  refine ⟨⟨0, 0, u.rip, u.rsp, u.rflags, 0, 0x202, (k.procTable i).rsp + 64, u.stub⟩,
    ⟨?_, by rw [h.slot], by show (0x202 : U64) &&& _ = 2; decide⟩, ?_, ?_⟩
  · rw [h.slot]
    exact holds_congr h.mem hb.holds
  · rw [h.slot]
    exact h.room
  · rw [h.record]
    rfl

omit [DecidableEq ι] in
theorem Call.frame {next : ι} (hc : Call slot w next) {x : U64} (hx : x ≠ slot w.cur)
    (hs : x ∉ w.stack w.cur) :
    (archSwitch entry w.core).mem x = w.core.mem x :=
  archSwitch_frame entry hc.flags hc.rdi hx fun j hj he => hs (he ▸ hc.room j hj)

theorem Call.leftAlone (hslot : Injective slot) {next p : ι} (hc : Call slot w next)
    (hl : Layout slot w) (hp : p ≠ w.cur) (hn : p ≠ next) :
    LeftAlone slot p w (w.switch entry next) := by
  refine ⟨rfl, update_of_ne hp _ _, ?_, ?_, fun x hx => ?_, fun a _ => ?_⟩
  · exact (update_of_ne hn _ _).trans (update_of_ne hp _ _)
  · exact hc.frame (fun he => hp (hslot he)) (hl.slots p w.cur)
  · refine hc.frame (fun he => hl.slots w.cur p (he ▸ hx)) fun hx' => ?_
    exact Set.disjoint_left.mp (hl.apart p w.cur hp) hx hx'
  · rw [World.switch, (archSwitch_mem entry hc.flags).2.1]

theorem Call.waits_cur {next : ι} (hc : Call slot w next) (hl : Layout slot w) :
    Waits slot w.cur (contextOf w.core) (w.switch entry next) := by
  have hne (j : Nat) (hj : j < 8) : w.core.pushAddr j ≠ slot w.cur :=
    fun he => hl.slots w.cur w.cur (he ▸ hc.room j hj)
  obtain ⟨hrsp, hsaved⟩ := archSwitch_saves entry hc.flags hc.rdi hne hc.inj
  have hspace : (w.switch entry next).space w.cur = w.core.cr3 := update_self ..
  have hwalk := (archSwitch_mem entry hc.flags).2.1
  have hmem : (w.switch entry next).core.mem (slot w.cur) = w.core.reg .rsp - 64 := hrsp
  refine ⟨?_, fun k hk => ?_, ?_⟩
  · rw [hmem, hspace]
    unfold Core.view
    rw [World.switch, hwalk]
    exact hsaved
  · have hup := w.core.walk_up hk
    rw [show BitVec.ofNat 64 (8 * 8) = 64 from rfl] at hup
    rw [hmem, hspace, World.switch, hwalk, hup]
    exact hc.room _ (by omega)
  · have hrec : (w.switch entry next).record w.cur = .switched (contextOf w.core) :=
      (update_of_ne hc.ne.symm _ _).trans (update_self ..)
    rw [hrec]
    rfl

theorem worldInv_step (hslot : Injective slot) (hi : WorldInv slot w)
    (hst : WStep slot entry w w') : WorldInv slot w' := by
  cases hst with
  | run _ hcur hl h =>
    refine ⟨hl, fun p hp hr => ?_⟩
    rw [hcur] at hp
    rw [(h p hp).record] at hr
    obtain ⟨x, hx⟩ := hi.waits p hp hr
    exact ⟨x, (h p hp).waits hx⟩
  | create _ p i u k hcur hl hp hb hf h =>
    refine ⟨hl, fun q hq hr => ?_⟩
    rw [hcur] at hq
    by_cases hqp : q = p
    · exact hqp ▸ hf.waits hb
    · rw [(h q hq hqp).record] at hr
      obtain ⟨x, hx⟩ := hi.waits q hq hr
      exact ⟨x, (h q hq hqp).waits hx⟩
  | switch next hc =>
    refine ⟨⟨hi.apart, hi.slots⟩, fun p hp hr => ?_⟩
    by_cases hpc : p = w.cur
    · exact ⟨contextOf w.core, hpc ▸ hc.waits_cur hi.toLayout⟩
    · have hla : LeftAlone slot p w (w.switch entry next) :=
        hc.leftAlone hslot hi.toLayout hpc hp
      rw [hla.record] at hr
      obtain ⟨x, hx⟩ := hi.waits p hpc hr
      exact ⟨x, hla.waits hx⟩

theorem WReach.inv (hslot : Injective slot) {w₀ : World ι} (h0 : w₀.Boot slot)
    (hr : WReach slot entry w₀ w) : WorldInv slot w := by
  induction hr with
  | refl => exact ⟨h0.toLayout, fun p _ hp => absurd (h0.record p) hp⟩
  | tail _ hst ih => exact worldInv_step hslot ih hst

omit [DecidableEq ι] in
theorem Call.resumes {next : ι} (hc : Call slot w next) (hl : Layout slot w) {x : Context}
    (hx : Waits slot next x w) : contextOf (archSwitch entry w.core) = x := by
  refine archSwitch_restores entry hc.flags hc.rdi (by rw [hc.rsi, hc.rdx]; exact hx.saved)
    fun k hk => ?_
  have hin := hx.inside k hk
  rw [hc.rsi, hc.rdx]
  refine ⟨fun he => hl.slots w.cur next (he ▸ hin), fun j hj he => ?_⟩
  exact Set.disjoint_left.mp (hl.apart next w.cur hc.ne) hin (he ▸ hc.room j hj)

/-- **Context switches preserve every context.** In every run, the process that `arch_switch`
switches to has the callee-saved registers, flags, stack pointer and return address of its last call
of `arch_switch`; one that has never run is in `fork_child_stub`, which takes it to user mode with
the context recorded for it. -/
theorem switch_restores_context (hslot : Injective slot) {w₀ : World ι}
    (h0 : w₀.Boot slot) (hr : WReach slot entry w₀ w) {next : ι} (hc : Call slot w next) :
    (∀ x, w.record next = .switched x → contextOf (archSwitch entry w.core) = x) ∧
    ∀ u, w.record next = .created u → (archSwitch entry w.core).rip = u.stub ∧
      InUser (forkChildStub (archSwitch entry w.core)) u.rip u.rsp u.rflags := by
  have hi := hr.inv hslot h0
  obtain ⟨x, hx⟩ := hi.waits next hc.ne hc.waits
  have hctx : contextOf (archSwitch entry w.core) = x := hc.resumes hi.toLayout hx
  have hfits := hx.fits
  refine ⟨fun y hy => ?_, fun u hu => ?_⟩
  · rw [hy] at hfits
    exact hctx.trans hfits
  · rw [hu] at hfits
    have hwords : (contextOf (archSwitch entry w.core)).words =
        switchFrame u.stub u.rip u.rsp u.rflags := by
      rw [hctx]
      exact hfits
    simp only [Context.words, switchFrame, List.cons.injEq] at hwords
    obtain ⟨hrip, -, -, h12, h13, h14, -⟩ := hwords
    have henters := forkChildStub_enters (archSwitch entry w.core)
    exact ⟨hrip, h12 ▸ h13 ▸ h14 ▸ henters⟩

end Runs

/-! ## Two processes -/

section Two

/-- Where the stacks of two processes begin. -/
def twoBases (base : U64) : Bool → U64
  | false => base + 0x1000
  | true => base

/-- The places for their stack pointers. -/
def twoSlots (base : U64) : Bool → U64
  | false => base + 0x2000
  | true => base + 0x3000

/-- Stacks of eight words. -/
def twoStacks (base : U64) (b : Bool) : Set U64 :=
  {x | ∃ j < 8, x = twoBases base b + BitVec.ofNat 64 (8 * j)}

/-- A processor without translation, at a call of `arch_switch` that keeps the tables. -/
def someCore (mem : U64 → U64) (rdi rsi rsp : U64) : Core where
  reg := fun r => if r = .rdi then rdi else if r = .rsi then rsi else if r = .rsp then rsp else 0
  rip := 0x5000
  rflags := 2
  mem := mem
  cr3 := 0
  walk := fun _ a => a
  ds := 0
  es := 0
  user := false

/-- A world of the two processes. -/
def twoWorld (base : U64) (c : Core) (cur : Bool) (record : Bool → Record) : World Bool :=
  ⟨c, cur, twoStacks base, fun _ => 0, record⟩

theorem twoSlots_injective (base : U64) : Injective (twoSlots base) := by
  intro b b' h
  cases b <;> cases b' <;> simp only [twoSlots] at h
  · rfl
  · bv_omega
  · bv_omega
  · rfl

theorem twoWorld_layout (base : U64) (c : Core) (cur : Bool) (record : Bool → Record) :
    Layout (twoSlots base) (twoWorld base c cur record) := by
  refine ⟨fun p q hpq => Set.disjoint_left.mpr ?_, fun p q => ?_⟩
  · rintro x ⟨j, hj, hx⟩ ⟨j', hj', hx'⟩
    cases p <;> cases q <;> simp only [twoBases] at hx hx'
    · exact hpq rfl
    · bv_omega
    · bv_omega
    · exact hpq rfl
  · rintro ⟨j, hj, hx⟩
    cases p <;> cases q <;> simp only [twoSlots, twoBases] at hx <;> bv_omega

theorem twoWorld_call {base : U64} {mem : U64 → U64} (cur : Bool) {record : Bool → Record}
    (hr : record (!cur) ≠ .none) :
    Call (twoSlots base) (twoWorld base (someCore mem (twoSlots base cur)
      (mem (twoSlots base (!cur))) (twoBases base cur + 64)) cur record) (!cur) := by
  refine ⟨Bool.not_ne_self cur, hr, rfl, rfl, rfl, fun j hj => ⟨7 - j, by omega, ?_⟩,
    fun j hj k hk h => ?_, by show (2 : U64) &&& _ = 2; decide⟩
  · show twoBases base cur + 64 - BitVec.ofNat 64 (8 * (j + 1)) =
      twoBases base cur + BitVec.ofNat 64 (8 * (7 - j))
    bv_omega
  · have h : twoBases base cur + 64 - BitVec.ofNat 64 (8 * (j + 1)) =
      twoBases base cur + 64 - BitVec.ofNat 64 (8 * (k + 1)) := h
    bv_omega

theorem builds_first : ∃ k, Builds 1 ⟨0x400000, 0x7000, 0x202, 0x6100⟩ k := by
  let ld : Loader := ⟨fun s => (none, s), id, fun _ s => (⟨0x400000, 0x401000, true⟩, s),
    fun _ s => (0x7000, s)⟩
  have hfind (k : Kernel) (h : (k.procTable 0).pid = 0 ∧ (k.procTable 0).state ≠ .unused) :
      ∃ kp, procFind 0 k = some kp := by
    rw [← Option.isSome_iff_exists, procFind, List.find?_isSome]
    exact ⟨0, List.mem_finRange 0, decide_eq_true h⟩
  obtain ⟨k', he⟩ : ∃ k', startInit ld 0x6100 1 ⟨0x400000, 0x401000, true⟩
      (procInit (fun _ => 0) bootKernel) = some (0, k') := by
    obtain ⟨kp, hkp⟩ := hfind ((procInit (fun _ => 0) bootKernel).upd 1 fun p => { p with
      brkStart := (0x401000 + 4096 - 1) &&& ~~~4095
      brk := (0x401000 + 4096 - 1) &&& ~~~4095
      cwd := "/" }) ⟨rfl, nofun⟩
    unfold startInit
    dsimp only [bind]
    rw [hkp]
    exact ⟨_, rfl⟩
  exact ⟨k', .spawn _ k' ld _ 0 rfl rfl rfl he⟩

/-- The first process creates another one, which runs and switches back. -/
theorem switch_restores_two : ∃ (base : U64) (u : UserCtx) (w w' : World Bool),
    WReach (twoSlots base) 0x6000 (twoWorld base (someCore (fun _ => 0) 0 0 0) false
      fun _ => .none) w ∧ w.record true = .created u ∧
    InUser (forkChildStub (archSwitch 0x6000 w.core)) u.rip u.rsp u.rflags ∧
    WReach (twoSlots base) 0x6000 (w.switch 0x6000 true) w' ∧
    contextOf (archSwitch 0x6000 w'.core) = contextOf w.core := by
  obtain ⟨k, hb⟩ := builds_first
  set base := (k.procTable 1).rsp with hbase
  set u : UserCtx := ⟨0x400000, 0x7000, 0x202, 0x6100⟩
  obtain ⟨mem, hmem, hword⟩ : ∃ mem : U64 → U64, mem (twoSlots base true) = base ∧
      ∀ a, a ≠ twoSlots base true → mem a = wordAt k.phys.mem a :=
    ⟨update (wordAt k.phys.mem) (twoSlots base true) base, update_self ..,
      fun a ha => update_of_ne ha _ _⟩
  obtain ⟨record, hnew, hold⟩ : ∃ record : Bool → Record, record true = .created u ∧
      record false = .none := ⟨fun b => if b then .created u else .none, rfl, rfl⟩
  let w₀ := twoWorld base (someCore (fun _ => 0) 0 0 0) false fun _ => .none
  have h0 : w₀.Boot (twoSlots base) := ⟨twoWorld_layout .., fun _ => rfl⟩
  let w := twoWorld base (someCore mem (twoSlots base false) (mem (twoSlots base true))
    (twoBases base false + 64)) false record
  have hframed : Framed (twoSlots base) true 1 u k w := by
    refine ⟨hnew, hmem, fun j hj => ⟨j, hj, ?_⟩, fun j hj => hword _ fun h => ?_⟩
    · rw [← hbase]
      rfl
    · rw [← hbase] at h
      have h : base + BitVec.ofNat 64 (8 * j) = base + 0x3000 := h
      bv_omega
  have hw : WStep (twoSlots base) 0x6000 w₀ w := by
    have hcur : w.cur = w₀.cur := by
      show false = false
      rfl
    refine .create w₀ w true 1 u k hcur (twoWorld_layout ..) nofun hb hframed fun q hq hq' => ?_
    cases q with
    | false => exact absurd rfl hq
    | true => exact absurd rfl hq'
  have hr : WReach (twoSlots base) 0x6000 w₀ w := .single hw
  have hcall : Call (twoSlots base) w true := by
    refine twoWorld_call false ?_
    rw [Bool.not_false, hnew]
    nofun
  obtain ⟨-, hnewrun⟩ := switch_restores_context (twoSlots_injective base) h0 hr hcall
  -- the new process runs and calls `arch_switch` in turn
  let c := (w.switch 0x6000 true).core
  let w' := twoWorld base (someCore c.mem (twoSlots base true) (c.mem (twoSlots base false))
    (twoBases base true + 64)) true (w.switch 0x6000 true).record
  have hwait : w'.record false = .switched (contextOf w.core) := rfl
  have hrun : WStep (twoSlots base) 0x6000 (w.switch 0x6000 true) w' := by
    refine .run _ w' rfl (twoWorld_layout ..) fun p hp => ?_
    cases p with
    | true => exact absurd rfl hp
    | false =>
      refine ⟨rfl, rfl, rfl, rfl, fun _ _ => rfl, fun a _ => ?_⟩
      rw [World.switch, (archSwitch_mem 0x6000 hcall.flags).2.1]
      rfl
  have hcall' : Call (twoSlots base) w' false := by
    refine twoWorld_call true ?_
    rw [Bool.not_true]
    exact hwait ▸ nofun
  have hr' : WReach (twoSlots base) 0x6000 (w.switch 0x6000 true) w' := .single hrun
  obtain ⟨hback, -⟩ := switch_restores_context (twoSlots_injective base) h0
    ((hr.tail (.switch w true hcall)).tail hrun) hcall'
  exact ⟨base, u, w, w', hr, hnew, (hnewrun u hnew).2, hr', hback _ hwait⟩

end Two

end Sinux.Proc

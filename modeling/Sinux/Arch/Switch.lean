import Sinux.Lib.Paged

/-!
# Switching between stacks (`boot.asm`)

`arch_switch` saves the callee-saved registers and the flags on the stack of the process that gives
up the processor, stores its stack pointer, and takes the same words from the stack of the other.
`fork_child_stub` is where a process goes that has never run.

* `archSwitch_saves`: what the caller leaves on its stack and in `from->rsp`.
* `archSwitch_restores`: what the other process finds.
* `forkChildStub_enters`: the way to user mode.

The code is run without interrupts in between: a handler uses the stack below `rsp` and gives every
register back.
-/

namespace Sinux.Arch

open Function Sinux.Lib Sinux.Lib.X86

/-- The call of `arch_switch` and its first part, on the caller's stack. -/
def saveContext (entry : U64) : List Op :=
  [.call entry, .push .rbx, .push .rbp, .push .r12, .push .r13, .push .r14, .push .r15, .pushfq]

/-- The middle of `arch_switch`, up to `.no_cr3`: the stack pointer of the caller is stored, and the
stack and the tables of the other process are loaded. -/
def switchStacks (c : Core) : Core :=
  let c := c.exec [.store .rdi .rsp, .mov .rsp .rsi, .test .rdx]
  -- `jz .no_cr3`
  if c.rflags &&& zeroFlag = 0 then c.step (.movCr3 .rdx) else c

/-- The end of `arch_switch`, on the stack of the other process. -/
def restoreContext : List Op :=
  [.popfq, .pop .r15, .pop .r14, .pop .r13, .pop .r12, .pop .rbp, .pop .rbx, .ret]

/-- `arch_switch(&from->rsp, to->rsp, cr3)` from its call to its return. -/
def archSwitch (entry : U64) (c : Core) : Core :=
  (switchStacks (c.exec (saveContext entry))).exec restoreContext

/-- `fork_child_stub`. -/
def forkChildStub (c : Core) : Core :=
  c.exec [.movAx 0x23, .movDs, .movEs, .clear .rax, .mov .rcx .r12, .mov .r11 .r14,
    .mov .rsp .r13, .sysret]

/-- What a process expects to find unchanged when `arch_switch` returns. -/
@[ext] structure Context where
  rbx : U64
  rbp : U64
  r12 : U64
  r13 : U64
  r14 : U64
  r15 : U64
  rflags : U64
  rsp : U64
  rip : U64
  deriving DecidableEq, Repr

/-- The context of the code that runs; at a `call`, `rip` is the return address. -/
def contextOf (c : Core) : Context where
  rbx := c.reg .rbx
  rbp := c.reg .rbp
  r12 := c.reg .r12
  r13 := c.reg .r13
  r14 := c.reg .r14
  r15 := c.reg .r15
  rflags := c.rflags
  rsp := c.reg .rsp
  rip := c.rip

/-- The words of a context on the stack, in the order in which they are pushed. -/
def Context.words (x : Context) : List U64 :=
  [x.rip, x.rbx, x.rbp, x.r12, x.r13, x.r14, x.r15, x.rflags]

/-- The context `x` lies on a stack from `sp` up to its own stack pointer. -/
structure Saved (view : U64 → U64) (sp : U64) (x : Context) : Prop where
  words : Holds view sp x.words.reverse
  rsp : x.rsp = sp + 64
  flags : PlainFlags x.rflags

/-- The tables that `arch_switch` leaves loaded. -/
def nextCr3 (c : Core) : U64 := if c.reg .rdx = 0 then c.cr3 else c.reg .rdx

/-! ## The parts of `arch_switch` -/

theorem exec_save (entry : U64) {c : Core} (h : PlainFlags c.rflags) :
    c.exec (saveContext entry) = { c.pushVals (contextOf c).words with rip := entry } := by
  have hf : (contextOf c).words = [c.rip, c.reg .rbx, c.reg .rbp, c.reg .r12, c.reg .r13,
      c.reg .r14, c.reg .r15, c.rflags &&& ~~~0x30000] := by
    rw [h.pushf]
    rfl
  rw [hf]
  rfl

theorem exec_restore {c : Core} {x : Context} (h : Saved (c.view c.cr3) (c.reg .rsp) x)
    (hf : c.rflags &&& ~~~(popfMask ||| 0x10000) = 2) :
    contextOf (c.exec restoreContext) = x := by
  obtain ⟨hfl, h15, h14, h13, h12, hbp, hbx, hip, -⟩ := h.words
  refine Context.ext hbx hbp h12 h13 h14 h15 ?_ ?_ hip
  · show c.view c.cr3 (c.reg .rsp) &&& popfMask ||| c.rflags &&& ~~~(popfMask ||| 0x10000) = _
    rw [hf, hfl]
    exact h.flags.popf
  · show c.reg .rsp + 8 + 8 + 8 + 8 + 8 + 8 + 8 + 8 = _
    rw [h.rsp]
    bv_omega

theorem switchStacks_spec (c : Core) :
    (switchStacks c).reg .rsp = c.reg .rsi ∧ (switchStacks c).cr3 = nextCr3 c ∧
    (switchStacks c).walk = c.walk ∧
    (switchStacks c).mem = update c.mem (c.walk c.cr3 (c.reg .rdi)) (c.reg .rsp) ∧
    (switchStacks c).rflags = logicFlags c.rflags (c.reg .rdx) := by
  have hz := logicFlags_zero c.rflags (c.reg .rdx)
  have hdef : switchStacks c =
      if logicFlags c.rflags (c.reg .rdx) &&& zeroFlag = 0 then
        (c.exec [.store .rdi .rsp, .mov .rsp .rsi, .test .rdx]).step (.movCr3 .rdx)
      else c.exec [.store .rdi .rsp, .mov .rsp .rsi, .test .rdx] := rfl
  rw [hdef]
  unfold nextCr3
  by_cases h : c.reg .rdx = 0
  · rw [if_neg fun h' => hz.mp h' h, if_pos h]
    exact ⟨rfl, rfl, rfl, rfl, rfl⟩
  · rw [if_pos (hz.mpr h), if_neg h]
    exact ⟨rfl, rfl, rfl, rfl, rfl⟩

/-! ## The whole switch -/

section Switch

variable (entry : U64) {c : Core}

/-- `arch_switch` pops from the stack in `rsi`, in memory with the caller's context pushed and
`from->rsp` stored. -/
theorem archSwitch_pops (h : PlainFlags c.rflags) : ∃ c' : Core,
    archSwitch entry c = c'.exec restoreContext ∧
    c'.reg .rsp = c.reg .rsi ∧ c'.cr3 = nextCr3 c ∧ c'.walk = c.walk ∧
    c'.mem = update (c.pushVals (contextOf c).words).mem (c.walk c.cr3 (c.reg .rdi))
      (c.reg .rsp - 64) ∧
    c'.rflags &&& ~~~(popfMask ||| 0x10000) = 2 := by
  obtain ⟨hrsp, hreg, hfl, hcr3, hwalk⟩ := Core.pushVals_rest c (contextOf c).words
  obtain ⟨hrsp', hcr3', hwalk', hmem', hfl'⟩ :=
    switchStacks_spec { c.pushVals (contextOf c).words with rip := entry }
  refine ⟨switchStacks { c.pushVals (contextOf c).words with rip := entry }, ?_,
    hrsp'.trans (hreg .rsi (by decide)), hcr3'.trans ?_, hwalk'.trans hwalk, hmem'.trans ?_, ?_⟩
  · rw [archSwitch, exec_save entry h]
  · unfold nextCr3
    dsimp only
    rw [hreg .rdx (by decide), hcr3]
  · dsimp only
    rw [hwalk, hcr3, hreg .rdi (by decide), hrsp]
    rfl
  · rw [hfl', hfl]
    exact logicFlags_plain h _

theorem archSwitch_mem (h : PlainFlags c.rflags) :
    (archSwitch entry c).mem = update (c.pushVals (contextOf c).words).mem
      (c.walk c.cr3 (c.reg .rdi)) (c.reg .rsp - 64) ∧
    (archSwitch entry c).walk = c.walk ∧ (archSwitch entry c).cr3 = nextCr3 c := by
  obtain ⟨c', he, -, hcr3, hwalk, hmem, -⟩ := archSwitch_pops entry h
  rw [he]
  exact ⟨hmem, hwalk, hcr3⟩

variable {slot : U64}

theorem archSwitch_frame (h : PlainFlags c.rflags) (hslot : c.walk c.cr3 (c.reg .rdi) = slot)
    {x : U64} (hx : x ≠ slot) (hpush : ∀ j < 8, x ≠ c.pushAddr j) :
    (archSwitch entry c).mem x = c.mem x := by
  rw [(archSwitch_mem entry h).1, hslot, update_of_ne hx]
  exact Core.pushVals_frame _ hpush

/-- **The caller's context lies on its stack**, and its stack pointer in `from->rsp`. -/
theorem archSwitch_saves (h : PlainFlags c.rflags) (hslot : c.walk c.cr3 (c.reg .rdi) = slot)
    (hne : ∀ j < 8, c.pushAddr j ≠ slot)
    (hinj : ∀ j < 8, ∀ k < 8, c.pushAddr j = c.pushAddr k → j = k) :
    (archSwitch entry c).mem slot = c.reg .rsp - 64 ∧
    Saved (fun a => (archSwitch entry c).mem (c.walk c.cr3 a)) (c.reg .rsp - 64) (contextOf c) := by
  rw [(archSwitch_mem entry h).1, hslot]
  refine ⟨update_self .., ?_, by show c.reg .rsp = _; bv_omega, h⟩
  refine holds_congr (fun k hk => ?_) (holds_pushes (contextOf c).words hinj)
  refine update_of_ne (fun he => ?_) _ _
  exact hne (8 - 1 - k) (by omega) ((c.walk_up hk).symm.trans he)

/-- **The other process finds the context on its stack**, if the switch did not store there. -/
theorem archSwitch_restores (h : PlainFlags c.rflags) (hslot : c.walk c.cr3 (c.reg .rdi) = slot)
    {x : Context} (hx : Saved (c.view (nextCr3 c)) (c.reg .rsi) x)
    (hne : ∀ k < 8, c.walk (nextCr3 c) (c.reg .rsi + BitVec.ofNat 64 (8 * k)) ≠ slot ∧
      ∀ j < 8, c.walk (nextCr3 c) (c.reg .rsi + BitVec.ofNat 64 (8 * k)) ≠ c.pushAddr j) :
    contextOf (archSwitch entry c) = x := by
  obtain ⟨c', he, hrsp, hcr3, hwalk, hmem, hfl⟩ := archSwitch_pops entry h
  have hmem' : c'.mem = (archSwitch entry c).mem := hmem.trans (archSwitch_mem entry h).1.symm
  rw [he]
  refine exec_restore ⟨?_, by rw [hrsp]; exact hx.rsp, hx.flags⟩ hfl
  rw [hrsp, hcr3]
  refine holds_congr (fun k hk => ?_) hx.words
  obtain ⟨hs, hp⟩ := hne k hk
  unfold Core.view
  rw [hwalk, hmem']
  exact archSwitch_frame entry h hslot hs hp

end Switch

/-! ## The first time -/

/-- In user mode at `rip` with stack `rsp`; `rax` is what `fork` returns, and `SYSRET` has read
`rcx` and `r11`. -/
structure InUser (c : Core) (rip rsp rflags : U64) : Prop where
  user : c.user = true
  rax : c.reg .rax = 0
  rcx : c.reg .rcx = rip
  r11 : c.reg .r11 = rflags
  rsp : c.reg .rsp = rsp
  rip : c.rip = rip
  rflags : c.rflags = rflags &&& 0x3C7FD7 ||| 2
  ds : c.ds = 0x23
  es : c.es = 0x23

theorem selector_setWidth (v : U64) :
    (v &&& ~~~0xFFFF ||| (0x23 : BitVec 16).setWidth 64).setWidth 16 = 0x23 := by
  rw [BitVec.setWidth_or, BitVec.setWidth_and,
    show (~~~0xFFFF : U64).setWidth 16 = (0 : BitVec 16) by decide]
  simp

/-- **`fork_child_stub`** finds the user's context in `r12`, `r13` and `r14`. -/
theorem forkChildStub_enters (c : Core) :
    InUser (forkChildStub c) (c.reg .r12) (c.reg .r13) (c.reg .r14) :=
  ⟨rfl, rfl, rfl, rfl, rfl, rfl, rfl, selector_setWidth _, selector_setWidth _⟩

end Sinux.Arch

import Sinux.Lib.Word64
import Mathlib.Logic.Function.Basic

/-!
# Straight-line x86-64 code

The general registers, a memory of 64-bit words addressed by byte address, and the instructions the
system-call path is written in. `exec` runs a list of instructions. `rip` and `rflags` are touched
by the control transfers only: before `syscall` `rip` is the address of the instruction behind it.

A call to compiled code is a function on machine states; `SysVCallee` says what the System V
convention promises the caller about it.
-/

namespace Sinux.Lib.X86

open Function

/-- The general registers. -/
inductive Reg where
  | rax | rbx | rcx | rdx | rsi | rdi | rbp | rsp
  | r8 | r9 | r10 | r11 | r12 | r13 | r14 | r15
  deriving DecidableEq, Repr

/-- A machine state. -/
structure Cpu where
  reg : Reg → U64
  rip : U64
  rflags : U64
  mem : U64 → U64

/-- The instructions. `movMem a r` is `mov [a], r`. `syscall` takes the model-specific registers
`LSTAR` and `FMASK` as operands. -/
inductive Instr where
  | mov (dst src : Reg)
  | movMem (addr : U64) (src : Reg)
  | push (r : Reg)
  | pop (r : Reg)
  | syscall (lstar fmask : U64)
  | sysret
  deriving DecidableEq, Repr

namespace Cpu

/-- Write one register. -/
def setReg (c : Cpu) (r : Reg) (v : U64) : Cpu := { c with reg := update c.reg r v }

/-- Write one word. -/
def setMem (c : Cpu) (a v : U64) : Cpu := { c with mem := update c.mem a v }

variable (c : Cpu) (r q : Reg) (a b v : U64)

@[simp] theorem setReg_self : (c.setReg r v).reg r = v := update_self ..

@[simp] theorem setReg_ne {q r : Reg} (h : q ≠ r) : (c.setReg r v).reg q = c.reg q :=
  update_of_ne h ..

@[simp] theorem setReg_mem : (c.setReg r v).mem = c.mem := rfl

@[simp] theorem setReg_rip : (c.setReg r v).rip = c.rip := rfl

@[simp] theorem setReg_rflags : (c.setReg r v).rflags = c.rflags := rfl

@[simp] theorem setMem_reg : (c.setMem a v).reg = c.reg := rfl

@[simp] theorem setMem_rip : (c.setMem a v).rip = c.rip := rfl

@[simp] theorem setMem_self : (c.setMem a v).mem a = v := update_self ..

@[simp] theorem setMem_ne {a b : U64} (h : b ≠ a) : (c.setMem a v).mem b = c.mem b :=
  update_of_ne h ..

end Cpu

/-- One instruction. `SYSCALL` saves `RIP` and `RFLAGS` in `rcx` and `r11`, masks `RFLAGS` and
jumps to `LSTAR`; `SYSRET` goes back. Neither touches `rsp`. -/
def step (c : Cpu) : Instr → Cpu
  | .mov dst src => c.setReg dst (c.reg src)
  | .movMem addr src => c.setMem addr (c.reg src)
  | .push r => (c.setMem (c.reg .rsp - 8#64) (c.reg r)).setReg .rsp (c.reg .rsp - 8#64)
  | .pop r => (c.setReg .rsp (c.reg .rsp + 8#64)).setReg r (c.mem (c.reg .rsp))
  | .syscall lstar fmask =>
    { (c.setReg .rcx c.rip).setReg .r11 c.rflags with
      rip := lstar, rflags := c.rflags &&& ~~~fmask }
  | .sysret =>
    { c with rip := c.reg .rcx, rflags := (c.reg .r11 &&& 0x3C7FD7) ||| 2 }

/-- A list of instructions in order. -/
def exec (c : Cpu) (is : List Instr) : Cpu := is.foldl step c

@[simp] theorem exec_nil (c : Cpu) : exec c [] = c := rfl

@[simp] theorem exec_cons (c : Cpu) (i : Instr) (is : List Instr) :
    exec c (i :: is) = exec (step c i) is := rfl

/-! ## The System V convention -/

/-- The first six integer arguments. -/
structure Args where
  rdi : U64
  rsi : U64
  rdx : U64
  rcx : U64
  r8 : U64
  r9 : U64
  deriving DecidableEq, Repr

/-- The arguments a callee finds in the argument registers. -/
def argsOf (c : Cpu) : Args :=
  ⟨c.reg .rdi, c.reg .rsi, c.reg .rdx, c.reg .rcx, c.reg .r8, c.reg .r9⟩

/-- The machine at the entry of a function called with `a`. -/
def passArgs (c : Cpu) (a : Args) : Cpu :=
  (((((c.setReg .rdi a.rdi).setReg .rsi a.rsi).setReg .rdx a.rdx).setReg .rcx a.rcx).setReg
    .r8 a.r8).setReg .r9 a.r9

/-- `f` is a call of conforming code from a frame of `n` words: it returns with the stack pointer
of the call and leaves the words of the caller's frame alone. -/
structure SysVCallee (n : Nat) (f : Cpu → Cpu) : Prop where
  rsp : ∀ c, (f c).reg .rsp = c.reg .rsp
  frame : ∀ c k, k < n → (f c).mem (c.reg .rsp + BitVec.ofNat 64 (8 * k)) =
    c.mem (c.reg .rsp + BitVec.ofNat 64 (8 * k))

end Sinux.Lib.X86

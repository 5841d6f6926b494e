import Sinux.Lib.X86

/-!
# The system-call path (`libc/src/syscall.asm`, `boot.asm`, `syscall.c`)

A system call crosses three separately written pieces: the libc stub `syscall`, the kernel's
`syscall_asm_entry`, and the C function `syscall_entry(nr, a1, …, a6)`. The stub moves the number
into `rax` and the arguments into `rdi, rsi, rdx, r10, r8`. The entry copies `r10` into `rcx` and
calls `syscall_entry`; it never moves `rax`. `kernelArgs_eq` computes what arrives: every argument
one place too early, the number nowhere.

* `syscall_abi_iff`: the convention holds exactly when the number and all five arguments are equal,
  and a libc wrapper reaches its own case exactly when shifting its registers changes nothing.
* `sysret_restores`: the way back is right for every call.
-/

namespace Sinux.Arch

open Sinux.Lib Sinux.Lib.X86

/-- The address of `syscall_asm_entry` and of the three words it saves the user context in. -/
structure Symbols where
  syscallAsmEntry : U64
  userCtxRip : U64
  userCtxRflags : U64
  userCtxRsp : U64

/-- `wrmsr(MSR_FMASK, 0x200)` in `syscall_arch_init`. -/
def fmask : U64 := 0x200

variable (sym : Symbols)

/-- The libc stub `syscall` up to and including `SYSCALL`. -/
def syscallStub : List Instr :=
  [.mov .rax .rdi, .mov .rdi .rsi, .mov .rsi .rdx, .mov .rdx .rcx, .mov .r10 .r8, .mov .r8 .r9,
    .syscall sym.syscallAsmEntry fmask]

/-- `syscall_asm_entry` before `call syscall_entry`. -/
def entryProlog : List Instr :=
  [.movMem sym.userCtxRip .rcx, .movMem sym.userCtxRflags .r11, .movMem sym.userCtxRsp .rsp,
    .push .rcx, .push .r11, .push .rbp, .mov .rcx .r10]

/-- `syscall_asm_entry` after `call syscall_entry`. -/
def entryEpilog : List Instr := [.pop .rbp, .pop .r11, .pop .rcx, .sysret]

/-- The machine on entry to `syscall_asm_entry`, for a user who called the stub in state `u`. -/
def atEntry (u : Cpu) : Cpu := exec u (syscallStub sym)

/-- The machine at `call syscall_entry`. -/
def atCall (u : Cpu) : Cpu := exec (atEntry sym u) (entryProlog sym)

/-- The machine back in user mode. -/
def atReturn (syscallEntry : Cpu → Cpu) (u : Cpu) : Cpu :=
  exec (syscallEntry (atCall sym u)) entryEpilog

/-! ## The switch of `syscall_entry` -/

/-- The cases of `syscall_entry`'s `switch`, each with the arguments it passes on: an `int` is the
low half of its parameter. -/
inductive Handler where
  | sysRead (fd : BitVec 32) (buf n : U64)
  | sysWrite (fd : BitVec 32) (buf n : U64)
  | sysOpen (path : U64) (flags mode : BitVec 32)
  | sysClose (fd : BitVec 32)
  | sysBrk (addr : U64)
  | sysGetpid
  | sysGetppid
  | sysFork
  | sysExit (code : BitVec 32)
  | sysWait4 (pid : BitVec 32) (status : U64) (options : BitVec 32)
  | sysNanosleep (seconds nanoseconds : U64)
  | sysPipe (fds : U64)
  | sysKill (pid sig : BitVec 32)
  | sysSigaction (sig : BitVec 32) (handler : U64)
  | sysExecve (path argv envp : U64)
  | unknown (nr : U64)
  deriving DecidableEq, Repr

/-- `switch (nr)` with the numbers of `kernel/syscall/syscall.h`. -/
def dispatch (a : Args) : Handler :=
  if a.rdi = 0 then .sysRead (a.rsi.setWidth 32) a.rdx a.rcx
  else if a.rdi = 1 then .sysWrite (a.rsi.setWidth 32) a.rdx a.rcx
  else if a.rdi = 2 then .sysOpen a.rsi (a.rdx.setWidth 32) (a.rcx.setWidth 32)
  else if a.rdi = 3 then .sysClose (a.rsi.setWidth 32)
  else if a.rdi = 12 then .sysBrk a.rsi
  else if a.rdi = 39 then .sysGetpid
  else if a.rdi = 110 then .sysGetppid
  else if a.rdi = 57 then .sysFork
  else if a.rdi = 60 then .sysExit (a.rsi.setWidth 32)
  else if a.rdi = 61 then .sysWait4 (a.rsi.setWidth 32) a.rdx (a.rcx.setWidth 32)
  else if a.rdi = 162 then .sysNanosleep a.rsi a.rdx
  else if a.rdi = 22 then .sysPipe a.rsi
  else if a.rdi = 62 then .sysKill (a.rsi.setWidth 32) (a.rdx.setWidth 32)
  else if a.rdi = 13 then .sysSigaction (a.rsi.setWidth 32) a.rdx
  else if a.rdi = 59 then .sysExecve a.rsi a.rdx a.rcx
  else .unknown a.rdi

/-! ## The libc wrappers -/

/-- A call of a wrapper of `libc/src/syscall_wrap.c`. -/
inductive LibcCall where
  | read (fd : BitVec 32) (buf n : U64)
  | write (fd : BitVec 32) (buf n : U64)
  | close (fd : BitVec 32)
  | getpid
  | getppid
  | fork
  | exit (code : BitVec 32)
  | pipe (fds : U64)
  | kill (pid sig : BitVec 32)
  | sleep (s : BitVec 32)
  | execve (path argv envp : U64)
  deriving DecidableEq, Repr

namespace LibcCall

/-- The number a wrapper passes, from `libc/include/syscall.h`. -/
def nr : LibcCall → U64
  | read .. => 0
  | write .. => 1
  | close _ => 3
  | getpid => 39
  | getppid => 110
  | fork => 57
  | exit _ => 60
  | pipe _ => 22
  | kill .. => 62
  | sleep _ => 162
  | execve .. => 59

/-- The arguments a wrapper passes: `(uint64_t)fd` of an `int` is sign extended. -/
def args : LibcCall → List U64
  | read fd buf n => [fd.signExtend 64, buf, n]
  | write fd buf n => [fd.signExtend 64, buf, n]
  | close fd => [fd.signExtend 64]
  | getpid => []
  | getppid => []
  | fork => []
  | exit code => [code.signExtend 64]
  | pipe fds => [fds]
  | kill pid sig => [pid.signExtend 64, sig.signExtend 64]
  | sleep s => [s.setWidth 64, 0]
  | execve path argv envp => [path, argv, envp]

/-- The case of the kernel's `switch` a wrapper is meant for. -/
def handler : LibcCall → Handler
  | read fd buf n => .sysRead fd buf n
  | write fd buf n => .sysWrite fd buf n
  | close fd => .sysClose fd
  | getpid => .sysGetpid
  | getppid => .sysGetppid
  | fork => .sysFork
  | exit code => .sysExit code
  | pipe fds => .sysPipe fds
  | kill pid sig => .sysKill pid sig
  | sleep s => .sysNanosleep (s.setWidth 64) 0
  | execve path argv envp => .sysExecve path argv envp

/-- The argument registers at the stub: the wrapper fills as many as it has arguments, the others
hold what they held. -/
def regs (w : LibcCall) (u : Cpu) : Args :=
  ⟨w.nr, w.args.getD 0 (u.reg .rsi), w.args.getD 1 (u.reg .rdx), w.args.getD 2 (u.reg .rcx),
    u.reg .r8, u.reg .r9⟩

end LibcCall

theorem setWidth_signExtend (x : BitVec 32) : (x.signExtend 64).setWidth 32 = x := by
  apply BitVec.eq_of_getLsbD_eq
  intro i hi
  rw [BitVec.getLsbD_setWidth, BitVec.getLsbD_signExtend]
  simp [hi, Nat.lt_trans hi (by decide : 32 < 64)]

/-- The kernel has a case for every wrapper, and the numbers of the two headers agree: with the
wrapper's number and arguments in the right parameters the switch reaches the wrapper's case. -/
theorem dispatch_libc (w : LibcCall) {k : Args} (hnr : k.rdi = w.nr)
    (hargs : w.args <+: [k.rsi, k.rdx, k.rcx, k.r8, k.r9]) : dispatch k = w.handler := by
  unfold dispatch
  rw [hnr]
  cases w <;>
    simp only [LibcCall.args, List.cons_prefix_cons, List.nil_prefix, and_true] at hargs <;>
    simp [LibcCall.nr, LibcCall.handler] <;>
    grind [setWidth_signExtend]

/-! ## What arrives -/

/-- **Every argument arrives one place too early**, and the sixth is the fifth once more. -/
theorem kernelArgs_eq (u : Cpu) (a : Args) :
    argsOf (atCall sym (passArgs u a)) = ⟨a.rsi, a.rdx, a.rcx, a.r8, a.r9, a.r9⟩ := by
  simp [atCall, atEntry, syscallStub, entryProlog, step, argsOf, passArgs]

theorem entryProlog_frame (e : Cpu) :
    (exec e (entryProlog sym)).reg .rsp = e.reg .rsp - 24#64 ∧
    (exec e (entryProlog sym)).mem (e.reg .rsp - 24#64) = e.reg .rbp ∧
    (exec e (entryProlog sym)).mem (e.reg .rsp - 16#64) = e.reg .r11 ∧
    (exec e (entryProlog sym)).mem (e.reg .rsp - 8#64) = e.reg .rcx := by
  have e1 : e.reg .rsp - 8#64 - 8#64 = e.reg .rsp - 16#64 := by grind
  have e2 : e.reg .rsp - 16#64 - 8#64 = e.reg .rsp - 24#64 := by grind
  have n1 : e.reg .rsp - 16#64 ≠ e.reg .rsp - 24#64 := by grind
  have n2 : e.reg .rsp - 8#64 ≠ e.reg .rsp - 24#64 := by grind
  have n3 : e.reg .rsp - 8#64 ≠ e.reg .rsp - 16#64 := by grind
  simp [entryProlog, step, e1, e2, n1, n2, n3]

theorem sysret_restores {f : Cpu → Cpu} (hf : SysVCallee 3 f) (u : Cpu) :
    (atReturn sym f u).reg .rax = (f (atCall sym u)).reg .rax ∧
      ∀ r ∈ [Reg.rcx, .r11, .rbp, .rsp], (atReturn sym f u).reg r = (atEntry sym u).reg r := by
  obtain ⟨hsp, m0, m1, m2⟩ := entryProlog_frame sym (atEntry sym u)
  change (atCall sym u).reg .rsp = _ at hsp
  change (atCall sym u).mem _ = _ at m0 m1 m2
  have hrsp := hf.rsp (atCall sym u)
  have h0 := hf.frame (atCall sym u) 0 (by decide)
  have h1 := hf.frame (atCall sym u) 1 (by decide)
  have h2 := hf.frame (atCall sym u) 2 (by decide)
  rw [hsp] at hrsp h0 h1 h2
  have a1 : (atEntry sym u).reg .rsp - 24#64 + 8#64 = (atEntry sym u).reg .rsp - 16#64 := by grind
  have a2 : (atEntry sym u).reg .rsp - 16#64 + 8#64 = (atEntry sym u).reg .rsp - 8#64 := by grind
  have a3 : (atEntry sym u).reg .rsp - 8#64 + 8#64 = (atEntry sym u).reg .rsp := by grind
  have a4 : (atEntry sym u).reg .rsp - 24#64 + 16#64 = (atEntry sym u).reg .rsp - 8#64 := by grind
  simp only [Nat.mul_zero, Nat.mul_one, Nat.reduceMul, BitVec.add_zero, a1,
    a4, m0, m1, m2] at h0 h1 h2
  refine ⟨by simp [atReturn, entryEpilog, step], fun r hr => ?_⟩
  simp only [List.mem_cons, List.not_mem_nil, or_false] at hr
  rcases hr with rfl | rfl | rfl | rfl <;>
    simp [atReturn, entryEpilog, step, hrsp, a1, a2, a3, h0, h1, h2]

/-! ## When the convention holds -/

/-- The convention for one call: `syscall_entry` finds the number and the arguments in its first
six parameters, and the user gets its result with `rcx`, `r11`, `rbp` and `rsp` as on entry. -/
def AbiAgrees (f : Cpu → Cpu) (u : Cpu) (a : Args) : Prop :=
  argsOf (atCall sym (passArgs u a)) = a ∧
    (atReturn sym f (passArgs u a)).reg .rax = (f (atCall sym (passArgs u a))).reg .rax ∧
    ∀ r ∈ [Reg.rcx, .r11, .rbp, .rsp],
      (atReturn sym f (passArgs u a)).reg r = (atEntry sym (passArgs u a)).reg r

/-- The parameters of `syscall_entry` when user code calls the wrapper `w` in state `u`. -/
def received (u : Cpu) (w : LibcCall) : Args := argsOf (atCall sym (passArgs u (w.regs u)))

/-- The wrapper `w` reaches its own case with its own arguments. -/
def WrapperAgrees (u : Cpu) (w : LibcCall) : Prop :=
  (received sym u w).rdi = w.nr ∧
    w.args <+: [(received sym u w).rsi, (received sym u w).rdx, (received sym u w).rcx,
      (received sym u w).r8, (received sym u w).r9] ∧
    dispatch (received sym u w) = w.handler

/-- **Exactly when the two sides agree.** The convention holds for a call iff its number and its
five arguments are one and the same word. A wrapper reaches its own case iff its number followed by
its arguments is what the argument registers hold one place further on. -/
theorem syscall_abi_iff {f : Cpu → Cpu} (hf : SysVCallee 3 f) (u : Cpu) :
    (∀ a : Args, AbiAgrees sym f u a ↔
      a.rdi = a.rsi ∧ a.rsi = a.rdx ∧ a.rdx = a.rcx ∧ a.rcx = a.r8 ∧ a.r8 = a.r9) ∧
    ∀ w : LibcCall, WrapperAgrees sym u w ↔
      (w.nr :: w.args) <+: [(w.regs u).rsi, (w.regs u).rdx, (w.regs u).rcx, u.reg .r8,
        u.reg .r9] := by
  constructor
  · rintro ⟨nr, a1, a2, a3, a4, a5⟩
    have hret := sysret_restores sym hf (passArgs u ⟨nr, a1, a2, a3, a4, a5⟩)
    unfold AbiAgrees
    rw [kernelArgs_eq, Args.mk.injEq]
    constructor
    · rintro ⟨⟨h1, h2, h3, h4, h5, -⟩, -⟩
      exact ⟨h1.symm, h2.symm, h3.symm, h4.symm, h5.symm⟩
    · rintro ⟨h1, h2, h3, h4, h5⟩
      exact ⟨⟨h1.symm, h2.symm, h3.symm, h4.symm, h5.symm, rfl⟩, hret⟩
  · intro w
    have hrec : received sym u w =
        ⟨(w.regs u).rsi, (w.regs u).rdx, (w.regs u).rcx, u.reg .r8, u.reg .r9, u.reg .r9⟩ :=
      kernelArgs_eq sym u (w.regs u)
    have hlen : w.args.length ≤ 3 := by cases w <;> simp [LibcCall.args]
    -- the ninth-register copy behind the fifth slot is out of every wrapper's reach
    have hpre : w.args <+: [(w.regs u).rdx, (w.regs u).rcx, u.reg .r8, u.reg .r9, u.reg .r9] ↔
        w.args <+: [(w.regs u).rdx, (w.regs u).rcx, u.reg .r8, u.reg .r9] := by
      rw [List.prefix_iff_eq_take, List.prefix_iff_eq_take]
      match hn : w.args.length, hlen with
      | 0, _ => rfl
      | 1, _ => rfl
      | 2, _ => rfl
      | 3, _ => rfl
    rw [List.cons_prefix_cons, ← hpre]
    constructor
    · rintro ⟨hnr, hargs, -⟩
      rw [hrec] at hnr hargs
      exact ⟨hnr.symm, hargs⟩
    · rintro ⟨hnr, hargs⟩
      have h1 : (received sym u w).rdi = w.nr := by rw [hrec]; exact hnr.symm
      have h2 : w.args <+: [(received sym u w).rsi, (received sym u w).rdx,
          (received sym u w).rcx, (received sym u w).r8, (received sym u w).r9] := by
        rw [hrec]; exact hargs
      exact ⟨h1, h2, dispatch_libc w h1 h2⟩

/-- A machine with all registers, flags and words zero. -/
def zeroCpu : Cpu := ⟨fun _ => 0, 0, 0, fun _ => 0⟩

/-- `exit(7)` runs the `default` case with number 7: the kernel never sees 60. -/
theorem syscall_abi_exit_seven :
    ¬ AbiAgrees ⟨0x100000, 0x200000, 0x200008, 0x200010⟩ id zeroCpu ⟨60, 7, 0, 0, 0, 0⟩ ∧
      ¬ WrapperAgrees ⟨0x100000, 0x200000, 0x200008, 0x200010⟩ zeroCpu (.exit 7) ∧
      dispatch (received ⟨0x100000, 0x200000, 0x200008, 0x200010⟩ zeroCpu (.exit 7)) =
        .unknown 7 := by
  refine ⟨fun h => absurd h.1 (by decide), fun h => absurd h.1 (by decide), by decide⟩

theorem id_sysVCallee : SysVCallee 3 id := ⟨fun _ => rfl, fun _ _ _ => rfl⟩

/-- The convention does hold where number and arguments coincide, and `fork()` does reach its case
when `rsi` happens to hold 57. -/
theorem syscall_abi_iff_zero :
    AbiAgrees ⟨0x100000, 0x200000, 0x200008, 0x200010⟩ id zeroCpu ⟨0, 0, 0, 0, 0, 0⟩ ∧
      WrapperAgrees ⟨0x100000, 0x200000, 0x200008, 0x200010⟩ (zeroCpu.setReg .rsi 57) .fork :=
  ⟨((syscall_abi_iff _ id_sysVCallee zeroCpu).1 _).mpr (by decide),
    ((syscall_abi_iff _ id_sysVCallee (zeroCpu.setReg .rsi 57)).2 .fork).mpr (by decide)⟩

end Sinux.Arch

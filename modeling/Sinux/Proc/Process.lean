import Sinux.Mm.Vmm

/-!
# Processes (`kernel/proc/process.c`, `init.c`, `sys_fork` and `sys_wait4` of `syscall.c`)

The process table is a function of the slot, and a `process_t *` is a slot. Of `process_t` the
fields are kept that these functions read or set. A fallible function returns its result and the
kernel after it, on failure too.

`proc_spawn_init` calls into the file system, the kernel heap and the ELF loader; their results are
a parameter (`Loader`), so what is proved holds whatever they do to memory.

**Out of scope**: exceptions, and more than one processor.
-/

namespace Sinux.Proc

open Function Sinux.Lib Sinux.Mm

/-! ## The process table -/

/-- `MAX_PROCS`. -/
abbrev maxProcs : Nat := 256

instance neZeroProcs : NeZero maxProcs := ⟨by decide⟩

/-- `KSTACK_SIZE`. -/
def kstackSize : U64 := 8192

/-- `proc_state_t`. -/
inductive ProcState
  | unused
  | running
  | ready
  | sleeping
  | zombie
  | waiting
  deriving DecidableEq, Repr

/-- `fd_entry_t`. -/
structure FdEntry where
  file : U64
  flags : BitVec 32
  deriving DecidableEq

/-- `process_t`. -/
structure Process where
  pid : BitVec 32
  ppid : BitVec 32
  state : ProcState
  exitCode : BitVec 32
  rsp : U64
  pml4 : U64
  kstack : U64
  timeslice : BitVec 32
  fds : Fin 64 → FdEntry
  cwd : String
  brk : U64
  brkStart : U64

/-- `kmemset(p, 0, sizeof(process_t))`. -/
def Process.zero : Process := ⟨0, 0, .unused, 0, 0, 0, 0, 0, fun _ => ⟨0, 0⟩, "", 0, 0⟩

/-- `queue`, `q_head`, `q_tail` and `q_count`; an entry is `NULL` or a process. -/
structure RunQueue where
  queue : Fin 256 → Option (Fin maxProcs)
  qHead : Fin 256
  qTail : Fin 256
  qCount : Nat

/-- The kernel's state: memory, the process table and the run queue. -/
structure Kernel where
  phys : Phys
  kernelPml4 : U64
  procTable : Fin maxProcs → Process
  currentProc : Option (Fin maxProcs)
  nextPid : BitVec 32
  /-- `refcount` of the `file_t` at an address. -/
  refcount : U64 → BitVec 32
  runQueue : RunQueue

namespace Kernel

/-- An assignment to fields of slot `i`. -/
def upd (i : Fin maxProcs) (f : Process → Process) (k : Kernel) : Kernel :=
  { k with procTable := update k.procTable i (f (k.procTable i)) }

/-- The memory after a call. -/
def withPhys (s : Phys) (k : Kernel) : Kernel := { k with phys := s }

end Kernel

/-- `proc_init`, with the files `vfs_open` returned for the descriptors 0, 1 and 2. -/
def procInit (tty : Fin 64 → U64) (k : Kernel) : Kernel :=
  let zero : Process := { Process.zero with
    state := .running, timeslice := 5, pml4 := k.kernelPml4, cwd := "/",
    fds := fun j => if j.val < 3 then ⟨tty j, 0⟩ else ⟨0, 0⟩ }
  { k with procTable := update (fun _ => Process.zero) 0 zero, currentProc := some 0 }

/-- `sched_add`. -/
def schedAdd (p : Fin maxProcs) (k : Kernel) : Kernel :=
  let q := k.runQueue
  if 256 ≤ q.qCount then k
  else { k with runQueue :=
    { q with queue := update q.queue q.qTail (some p), qTail := q.qTail + 1,
             qCount := q.qCount + 1 } }

/-- `proc_find`. -/
def procFind (pid : BitVec 32) (k : Kernel) : Option (Fin maxProcs) :=
  (List.finRange maxProcs).find? fun i =>
    decide ((k.procTable i).pid = pid ∧ (k.procTable i).state ≠ .unused)

/-- The slot the loop of `proc_create` stops at. -/
def freeSlot (k : Kernel) : Option (Fin maxProcs) :=
  (List.finRange maxProcs).find? fun i =>
    decide (i ≠ 0 ∧ (k.procTable i).state = .unused)

/-! ## Creating a process -/

/-- The slot is claimed: `pid`, `ppid`, `state` and `timeslice`. -/
def claimSlot (i : Fin maxProcs) (k : Kernel) : Kernel :=
  let k := k.upd i fun _ => { Process.zero with pid := k.nextPid }
  let k := { k with nextPid := k.nextPid + 1 }
  let ppid := match k.currentProc with
    | some c => (k.procTable c).pid
    | none => 0
  k.upd i fun p => { p with ppid := ppid, state := .ready, timeslice := 5 }

/-- The end of `proc_create`, once the kernel stack is there. -/
def attachPml4 (i : Fin maxProcs) (k : Kernel) : Option (Fin maxProcs) × Kernel :=
  let kstack := (k.procTable i).kstack
  let k := k.withPhys (k.phys.kmemsetPage kstack)
  let k := k.upd i fun p => { p with rsp := kstack + kstackSize }
  let (pml4, s) := vmmNewPml4 k.kernelPml4 k.phys
  let k := (k.withPhys s).upd i fun p => { p with pml4 := pml4 }
  if pml4 = 0 then (none, k.withPhys (k.phys.free kstack))
  else
    let cwd := match k.currentProc with
      | some c => (k.procTable c).cwd
      | none => "/"
    (some i, k.upd i fun p => { p with
      cwd := cwd, fds := fun j => if j.val < 3 then { p.fds j with file := 0 } else p.fds j })

/-- `proc_create`; `none` is `NULL`. -/
def procCreate (k : Kernel) : Option (Fin maxProcs) × Kernel :=
  match freeSlot k with
  | none => (none, k)
  | some i =>
    let k := claimSlot i k
    let (kstack, s) := k.phys.alloc
    let k := (k.withPhys s).upd i fun p => { p with kstack := kstack }
    if kstack = 0 then (none, k) else attachPml4 i k

/-! ## The first frame on a kernel stack -/

/-- `*--sp = w` for each word in turn: the stack pointer and the memory after. -/
def pushWords (sp : U64) (ws : List U64) (s : Phys) : U64 × Phys :=
  ws.foldl (fun r w => (r.1 - 8, r.2.setEntry (r.1 - 8)
    ⟨(r.1 - 8).toNat % 4096 / 8, by omega⟩ w)) (sp, s)

/-- The `arch_switch` frame: return address, rbx, rbp, r12, r13, r14, r15 and rflags. -/
def switchFrame (stub r12 r13 r14 : U64) : List U64 := [stub, 0, 0, r12, r13, r14, 0, 0x202]

/-- The frame of process `i` below `kstack + KSTACK_SIZE`, and `p->rsp`. -/
def pushFrame (i : Fin maxProcs) (frame : List U64) (k : Kernel) : Kernel :=
  let (sp, s) := pushWords ((k.procTable i).kstack + kstackSize) frame k.phys
  (k.withPhys s).upd i fun p => { p with rsp := sp }

/-- `p->fds[j] = q->fds[j]` for `j < n`, with the reference counts. -/
def inheritFds (n : Nat) (i q : Fin maxProcs) (k : Kernel) : Kernel :=
  let fds := (k.procTable q).fds
  let k := k.upd i fun p => { p with fds := fun j => if j.val < n then fds j else p.fds j }
  { k with refcount := (List.finRange 64).foldl (fun rc j =>
      if j.val < n ∧ (fds j).file ≠ 0 then update rc (fds j).file (rc (fds j).file + 1)
      else rc) k.refcount }

/-! ## `sys_fork`, `proc_exit` and `sys_wait4` -/

/-- `user_ctx_rip`, `user_ctx_rsp`, `user_ctx_rflags`, and the address of `fork_child_stub`. -/
structure UserCtx where
  rip : U64
  rsp : U64
  rflags : U64
  stub : U64

/-- `sys_fork` by `parent`: the value returned and the kernel after. -/
def sysFork (ctx : UserCtx) (parent : Fin maxProcs) (k : Kernel) : Int × Kernel :=
  let (childPml4, s) := vmmClonePml4 k.kernelPml4 (k.procTable parent).pml4 k.phys
  let k := k.withPhys s
  if childPml4 = 0 then (-12, k) else
  match procCreate k with
  | (none, k) => (-12, k.withPhys (vmmDestroyPml4 childPml4 k.phys))
  | (some child, k) =>
    let par := k.procTable parent
    let k := k.upd child fun p =>
      { p with pml4 := childPml4, ppid := par.pid, brk := par.brk, cwd := par.cwd }
    let k := inheritFds 64 child parent k
    let k := pushFrame child (switchFrame ctx.stub ctx.rip ctx.rsp ctx.rflags) k
    let k := schedAdd child k
    ((k.procTable child).pid.toInt, k)

/-- `proc_exit`. -/
def procExit (i : Fin maxProcs) (code : BitVec 32) (k : Kernel) : Kernel :=
  let k := k.upd i fun p => { p with
    exitCode := code, state := .zombie,
    fds := fun j => if (p.fds j).file ≠ 0 then ⟨0, 0⟩ else p.fds j }
  let pml4 := (k.procTable i).pml4
  if pml4 ≠ 0 ∧ pml4 ≠ k.kernelPml4 then
    (k.withPhys (vmmDestroyPml4 pml4 k.phys)).upd i fun p => { p with pml4 := 0 }
  else k

/-- One round of the loop of `sys_wait4` by `cur`: the value returned and the code that goes to
`*status` if `status` is not `NULL`, or `none` before `sched_yield()`. -/
def wait4Round (cur : Fin maxProcs) (pid : BitVec 32) (k : Kernel) :
    Option (Int × Option (BitVec 32)) × Kernel :=
  match procFind pid k with
  | none => (some (-22, none), k)
  | some child =>
    if (k.procTable child).state = .zombie then
      (some (pid.toInt, some (k.procTable child).exitCode),
        k.upd child fun p => { p with state := .unused })
    else (none, k.upd cur fun p => { p with state := .waiting })

/-! ## `proc_spawn_init` -/

/-- `elf_info_t`. -/
structure ElfInfo where
  entry : U64
  loadEnd : U64
  valid : Bool

/-- The calls `proc_spawn_init` makes into other modules. -/
structure Loader where
  /-- `vfs_open`, `kmalloc` and `vfs_read`: an error to return, or none. -/
  fetch : Phys → Option Int × Phys
  /-- `kfree(buf)`. -/
  release : Phys → Phys
  /-- `elf_load(pml4, buf, sz)`. -/
  elfLoad : U64 → Phys → ElfInfo × Phys
  /-- `build_user_stack` while `pml4` is loaded. -/
  buildUserStack : U64 → Phys → U64 × Phys

/-- The loop of `usermode_map_stack` from `va` on, with `n` pages to go. -/
def mapStackLoop (pml4 : U64) : (n : Nat) → (va : U64) → Phys → Phys
  | 0, _, s => s
  | n + 1, va, s =>
    let (page, s) := s.alloc
    if page = 0 then s
    else mapStackLoop pml4 n (va + 4096) (vmmMap pml4 va page 7 (s.kmemsetPage page))

/-- `usermode_map_stack`: `USER_STACK_SIZE` is 512 pages below `USER_STACK_TOP`. -/
def usermodeMapStack (pml4 : U64) (s : Phys) : Phys :=
  mapStackLoop pml4 512 (0x7FFFFFF00000 - 512 * 4096) s

/-- The second half of `proc_spawn_init`: the image is loaded into process `i`. `none` is the access
through `NULL` when there is no process with pid 0. -/
def startInit (ld : Loader) (stub : U64) (i : Fin maxProcs) (info : ElfInfo) (k : Kernel) :
    Option (Int × Kernel) := do
  let brk := (info.loadEnd + 4096 - 1) &&& ~~~4095
  let k := k.upd i fun p => { p with brkStart := brk, brk := brk, cwd := "/" }
  let kp ← procFind 0 k
  let (userRsp, s) := ld.buildUserStack (k.procTable i).pml4 k.phys
  let k := inheritFds 3 i kp (k.withPhys s)
  let k := pushFrame i (switchFrame stub info.entry userRsp 0x202) k
  some (0, schedAdd i k)

/-- `proc_spawn_init`. -/
def procSpawnInit (ld : Loader) (stub : U64) (k : Kernel) : Option (Int × Kernel) :=
  match ld.fetch k.phys with
  | (some e, s) => some (e, k.withPhys s)
  | (none, s) =>
    match procCreate (k.withPhys s) with
    | (none, k) => some (-12, k.withPhys (ld.release k.phys))
    | (some i, k) =>
      let pml4 := (k.procTable i).pml4
      let k := k.withPhys (usermodeMapStack pml4 k.phys)
      let (info, s) := ld.elfLoad pml4 k.phys
      let k := k.withPhys (ld.release s)
      if info.valid then startInit ld stub i info k
      else some (-1, k.upd i fun p => { p with state := .unused })

/-! ## Fields that a function does not assign -/

section Fields

variable {k : Kernel} {i j : Fin maxProcs}

theorem upd_of_ne {f : Process → Process} (h : j ≠ i) : (k.upd i f).procTable j = k.procTable j :=
  update_of_ne h _ _

theorem upd_self {f : Process → Process} : (k.upd i f).procTable i = f (k.procTable i) :=
  update_self ..

theorem upd_apply (k : Kernel) (i j : Fin maxProcs) (f : Process → Process) :
    (k.upd i f).procTable j = if j = i then f (k.procTable i) else k.procTable j := by
  by_cases h : j = i
  · rw [if_pos h, h, upd_self]
  · rw [if_neg h, upd_of_ne h]

@[simp] theorem withPhys_procTable (s : Phys) : (k.withPhys s).procTable = k.procTable := rfl

theorem schedAdd_procTable : (schedAdd i k).procTable = k.procTable := by
  unfold schedAdd
  dsimp only
  split <;> rfl

theorem schedAdd_phys : (schedAdd i k).phys = k.phys := by
  unfold schedAdd
  dsimp only
  split <;> rfl

variable {β : Type*} {g : Process → β}

theorem upd_field {f : Process → Process} (hg : ∀ p, g (f p) = g p) :
    g ((k.upd i f).procTable j) = g (k.procTable j) := by
  by_cases h : j = i
  · rw [h, upd_self, hg]
  · rw [upd_of_ne h]

theorem inheritFds_field (n : Nat) (q : Fin maxProcs)
    (hg : ∀ (p : Process) fds, g { p with fds := fds } = g p) :
    g ((inheritFds n i q k).procTable j) = g (k.procTable j) := by
  let fds (p : Process) (j : Fin 64) : FdEntry :=
    if j.val < n then (k.procTable q).fds j else p.fds j
  exact upd_field (k := k) (f := fun p => { p with fds := fds p }) fun p => hg p (fds p)

theorem pushFrame_field (frame : List U64)
    (hg : ∀ (p : Process) rsp, g { p with rsp := rsp } = g p) :
    g ((pushFrame i frame k).procTable j) = g (k.procTable j) := by
  let r := pushWords ((k.procTable i).kstack + kstackSize) frame k.phys
  exact upd_field (k := k.withPhys r.2) (f := fun p => { p with rsp := r.1 }) fun p => hg p r.1

end Fields

end Sinux.Proc

import Sinux.Proc.Spawn
import Sinux.Ipc.Pipe

/-!
# Open files (`kernel/fs/vfs.c`, `kernel/ipc/pipe.c`, `sys_open`, `sys_close`)

A `file_t` is known by its address; its reference count is in the kernel. `FileSys` adds which
`file_t` and `pipe_t` are there, and how often the `close` of `fs_ops` was called for the `file_t` at
an address. Path lookup and memory are a parameter of `sysOpen` and `pipeCreate`: the address
`kmalloc` returned, or none.

**Out of scope**: what a file system does in its `close`.
-/

namespace Sinux.Proc

open Function Sinux.Lib Sinux.Mm Sinux.Ipc

/-! ## Files -/

/-- `ops` of a `file_t`: those of a file system, or `pipe_ops` with the `pipe_t` of the inode and the
`flags` of the file. -/
inductive FileOps where
  | fs
  | pipe (p : U64) (flags : BitVec 32)
  deriving DecidableEq

/-- The kernel with its open files. -/
structure FileSys where
  kernel : Kernel
  files : U64 → Option FileOps
  pipes : U64 → Option Pipe
  /-- The calls of `close` since the `file_t` at the address was made; `none` if there was none. -/
  closes : U64 → Option Nat

namespace FileSys

def withKernel (s : FileSys) (k : Kernel) : FileSys := { s with kernel := k }

/-- A new `file_t` with `refcount` 1. -/
def newFile (f : U64) (ops : FileOps) (s : FileSys) : FileSys :=
  { s with
    kernel := { s.kernel with refcount := update s.kernel.refcount f 1 }
    files := update s.files f (some ops)
    closes := update s.closes f (some 0) }

/-- The pipes after `f->ops->close(f)`. -/
def closePipe (s : FileSys) (f : U64) : U64 → Option Pipe :=
  match s.files f with
  | some (.pipe a flags) => update s.pipes a ((s.pipes a).bind (pipeClose flags))
  | _ => s.pipes

end FileSys

/-- `vfs_close` of a file that is there. -/
def vfsClose (f : U64) (s : FileSys) : FileSys :=
  let rc := s.kernel.refcount f - 1
  let s := s.withKernel { s.kernel with refcount := update s.kernel.refcount f rc }
  if (0#32).slt rc then s
  else { s with
    pipes := s.closePipe f
    files := update s.files f none
    closes := update s.closes f ((s.closes f).map (· + 1)) }

/-- The descriptor the loop of `proc_alloc_fd` stops at. -/
def freeFd (p : Process) : Option (Fin 64) :=
  (List.finRange 64).find? fun j => decide ((p.fds j).file = 0)

/-- An assignment to a descriptor. -/
def setFd (p : Process) (j : Fin 64) (e : FdEntry) : Process :=
  { p with fds := update p.fds j e }

/-- `proc_alloc_fd`; `none` is -1. -/
def procAllocFd (i : Fin maxProcs) (f : U64) (k : Kernel) : Option (Fin 64) × Kernel :=
  match freeFd (k.procTable i) with
  | none => (none, k)
  | some j => (some j, k.upd i fun p => setFd p j ⟨f, 0⟩)

/-- `sys_open` by `i`, when `vfs_open` makes a `file_t` at `f`. -/
def sysOpen (i : Fin maxProcs) (f : Option U64) (s : FileSys) : Int × FileSys :=
  match f with
  | none => (-2, s)
  | some f =>
    let s := s.newFile f .fs
    match procAllocFd i f s.kernel with
    | (some j, k) => (j.val, s.withKernel k)
    | (none, k) => (-24, vfsClose f (s.withKernel k))

/-- The blocks that `pipe_create` gets: a `pipe_t` and two `file_t`. -/
structure PipeBlocks where
  pipe : U64
  readEnd : U64
  writeEnd : U64

/-- `pipe_create` by `i`. -/
def pipeCreate (i : Fin maxProcs) (b : Option PipeBlocks) (s : FileSys) : Int × FileSys :=
  match b with
  | none => (-12, s)
  | some b =>
    let s := { s with pipes := update s.pipes b.pipe (some pipeAlloc) }
    let s := (s.newFile b.readEnd (.pipe b.pipe 0)).newFile b.writeEnd (.pipe b.pipe 1)
    let (fd₀, k) := procAllocFd i b.readEnd s.kernel
    let (fd₁, k) := procAllocFd i b.writeEnd k
    (if fd₀ = none ∨ fd₁ = none then -24 else 0, s.withKernel k)

/-- The descriptors of a process that point to `f`. -/
def fdCount (p : Process) (f : U64) : Nat :=
  (Finset.univ.filter fun j => (p.fds j).file = f).card

theorem freeFd_some {p : Process} {j : Fin 64} (h : freeFd p = some j) : (p.fds j).file = 0 :=
  of_decide_eq_true (List.find?_some h :)

end Sinux.Proc

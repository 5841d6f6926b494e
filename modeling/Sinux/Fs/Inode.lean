import Sinux.Fs.CString
import Sinux.Lib.Word64

/-!
# Inodes and open files (`kernel/fs/vfs.h`, `vfs_open` to `vfs_write` in `kernel/fs/vfs.c`)

The part of the VFS behind path lookup. Operation tables are known by name (`FsOps`); what a table
does is given to `vfsRead` and `vfsWrite` as a parameter, so that they serve one file alone as well
as the whole system. The type `ι` stands for the addresses of inodes.
-/

namespace Sinux.Fs

open Sinux.Lib

/-- `file_type_t`. -/
inductive FileType where
  | unknown | reg | dir | chr | blk | fifo | lnk
  deriving DecidableEq

/-- The tables `ramfs_ops`, `procfs_ops`, `tty_dev_ops`, `ext2_ops` and `pipe_ops`. -/
inductive FsOps where
  | ramfs | procfs | tty | ext2 | pipe
  deriving DecidableEq

def oWronly : BitVec 32 := 0x0001
def oCreat : BitVec 32 := 0x0040
def oTrunc : BitVec 32 := 0x0200
def oAppend : BitVec 32 := 0x0400

def enoent : U64 := -2
def ebadf : U64 := -9
def eacces : U64 := -13
def einval : U64 := -22
def enospc : U64 := -28

/-- `inode_t`, the fields that are read. -/
structure Inode where
  type : FileType
  size : Nat
  ops : Option FsOps
  deriving DecidableEq

/-- `file_t`. -/
structure File (ι : Type) where
  inode : ι
  pos : Nat
  flags : BitVec 32
  refcount : BitVec 32
  ops : Option FsOps
  deriving DecidableEq

variable {ι β : Type}

/-- The part of `vfs_open` behind the `kmalloc`: the `file_t`, and the inode afterwards. No table has
an `open`. -/
def openFile (ino : ι) (i : Inode) (flags : BitVec 32) : File ι × Inode :=
  let f : File ι := ⟨ino, 0, flags, 1, i.ops⟩
  let i := if flags &&& oTrunc ≠ 0 then { i with size := 0 } else i
  (if flags &&& oAppend ≠ 0 then { f with pos := i.size } else f, i)

/-- `vfs_close` of a file whose table has no `close`: the file afterwards, `none` if it is freed. -/
def closeFile (f : File ι) : Option (File ι) :=
  let rc := f.refcount - 1
  if (0#32).slt rc then some { f with refcount := rc } else none

/-- `vfs_read`. `read o` is the entry of the table `o`, `none` for `NULL`; `bad` is the result when
the call returns `-EBADF`. -/
def vfsRead (read : FsOps → Option (File ι → Nat → β)) (bad : β) (f : File ι) (n : Nat) : β :=
  match f.ops.bind read with
  | none => bad
  | some r => r f n

/-- `vfs_write`. -/
def vfsWrite (write : FsOps → Option (File ι → List Byte → β)) (bad : β) (f : File ι)
    (buf : List Byte) : β :=
  match f.ops.bind write with
  | none => bad
  | some w => w f buf

theorem openFile_pos (ino : ι) (i : Inode) (flags : BitVec 32) : (openFile ino i flags).1.pos =
    if flags &&& oAppend ≠ 0 then (openFile ino i flags).2.size else 0 := by
  simp only [openFile]
  split <;> rfl

theorem openFile_ops (ino : ι) (i : Inode) (flags : BitVec 32) :
    (openFile ino i flags).1.ops = i.ops := by
  simp only [openFile]
  split <;> rfl

theorem openFile_refcount (ino : ι) (i : Inode) (flags : BitVec 32) :
    (openFile ino i flags).1.refcount = 1 := by
  simp only [openFile]
  split <;> rfl

theorem openFile_of_trunc (ino : ι) (i : Inode) {flags : BitVec 32} (h : flags &&& oTrunc ≠ 0) :
    (openFile ino i flags).2 = { i with size := 0 } :=
  if_pos h

theorem openFile_of_not_trunc (ino : ι) (i : Inode) {flags : BitVec 32} (h : flags &&& oTrunc = 0) :
    (openFile ino i flags).2 = i :=
  if_neg (not_not_intro h)

theorem vfsRead_of {read : FsOps → Option (File ι → Nat → β)} {bad : β} {f : File ι} {o : FsOps}
    {r : File ι → Nat → β} (ho : f.ops = some o) (hr : read o = some r) (n : Nat) :
    vfsRead read bad f n = r f n := by
  simp [vfsRead, ho, hr]

theorem vfsWrite_of {write : FsOps → Option (File ι → List Byte → β)} {bad : β} {f : File ι}
    {o : FsOps} {w : File ι → List Byte → β} (ho : f.ops = some o) (hw : write o = some w)
    (buf : List Byte) : vfsWrite write bad f buf = w f buf := by
  simp [vfsWrite, ho, hw]

end Sinux.Fs

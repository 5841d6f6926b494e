import Sinux.Fs.Ext2Trip
import Sinux.Fs.Ramfs
import Sinux.Proc.Files
import Sinux.Proc.KernelStack

/-!
# Access modes of descriptors (`sys_read`, `sys_write`, `vfs_read`, `vfs_write`)

The whole way of a read or a write: from the descriptor of a process over the operation table of the
file to each of the five file systems. Nothing on it looks at `flags`, and nothing at the type of the
inode.

A call either returns, or it goes on in a loop of `pipe.c`, from where it can only return the number of
its bytes (`Going.returns`). A read that waits for a key and a copy that leaves its block have no
result.

* `descriptor_modes_exact`: which writes to a descriptor that is not for writing are refused, and which
  reads of one that is not for reading.
* `readonly_written`: three descriptors that are used against their mode.
-/

namespace Sinux.Fs

open Function Sinux.Lib Sinux.Lib.Buffer Sinux.Proc Sinux.Ipc

/-! ## `/proc` -/

/-- The `type` of a `proc_priv_t`. -/
inductive ProcType where
  | root | version | meminfo | uptime | pidDir | pidStatus
  deriving DecidableEq

/-- The characters of a text of the kernel. -/
def text (s : String) : List Byte := s.toList.map fun c => BitVec.ofNat 8 c.toNat

/-- The table `states`. -/
def stateName : ProcState → List Byte
  | .unused => text "unused"
  | .running => text "running"
  | .ready => text "ready"
  | .sleeping => text "sleeping"
  | .zombie => text "zombie"
  | .waiting => text "waiting"

/-- The `switch` of `proc_read`: what is in `tmp`, or the value returned at once. -/
def procText (k : Kernel) (pid : BitVec 32) : ProcType → Except U64 (List Byte)
  | .version => .ok (text "Sinux version 2.0 (x86_64)\n")
  | .meminfo => .ok (text "MemTotal: ")
  | .uptime => .ok (text "uptime: ")
  | .pidStatus =>
    match procFind pid k with
    | none => .error enoent
    | some p =>
      .ok (text "Name: sinux\nState: " ++ stateName (k.procTable p).state ++ text "\n")
  | _ => .error 0

/-- `proc_read`. -/
def procRead (k : Kernel) (type : ProcType) (pid : BitVec 32) (f : File U64) (n : Nat) :
    U64 × List Byte × File U64 :=
  match procText k pid type with
  | .error r => (r, [], f)
  | .ok tmp =>
    if tmp.length ≤ f.pos then (0, [], f)
    else
      let n := min n (tmp.length - f.pos)
      (BitVec.ofNat 64 n, (tmp.drop f.pos).take n, { f with pos := f.pos + n })

/-! ## The terminal -/

/-- The loop of `tty_dev_read`, where `kbd_getc` returns `keys` one after the other: the bytes read and
the screen. Without a result it is waiting for a key. -/
def ttyReadLoop (n : Nat) : List Byte → List Byte → List Byte → Option (List Byte × List Byte)
  | [], b, screen => if b.length < n then none else some (b, screen)
  | c :: keys, b, screen =>
    if b.length < n then
      if c = 8 ∨ c = 127 then
        if b = [] then ttyReadLoop n keys b screen
        else ttyReadLoop n keys b.dropLast (screen ++ [8])
      else if c = 10 then some (b ++ [c], screen ++ [c])
      else ttyReadLoop n keys (b ++ [c]) (screen ++ [c])
    else some (b, screen)

theorem length_ttyReadLoop {n : Nat} : ∀ {keys b screen : List Byte} {r : List Byte × List Byte},
    b.length ≤ n → ttyReadLoop n keys b screen = some r → r.1.length ≤ n
  | [], b, screen, r, hb, h => by
    rw [ttyReadLoop] at h
    split at h
    · cases h
    · cases h
      exact hb
  | c :: keys, b, screen, r, hb, h => by
    rw [ttyReadLoop] at h
    split at h
    · next hlt =>
      have hone : (b ++ [c]).length ≤ n := by
        rw [List.length_append, List.length_singleton]
        exact hlt
      split at h
      · split at h
        · exact length_ttyReadLoop hb h
        · refine length_ttyReadLoop ?_ h
          rw [List.length_dropLast]
          exact (Nat.sub_le _ _).trans hb
      · split at h
        · cases h
          exact hone
        · exact length_ttyReadLoop hone h
    · cases h
      exact hb

/-! ## The system -/

/-- An inode with what its `private` leads to. -/
inductive Body where
  /-- In a node of the ramfs; `/dev/tty0` is one with another table. -/
  | ramfs (x : RamNode)
  | procfs (type : ProcType) (pid : BitVec 32) (inode : Inode)
  | ext2 (ino : Nat) (inode : Inode)
  | pipe (p : U64) (inode : Inode)

namespace Body

def inode : Body → Inode
  | .ramfs x => x.inode
  | .procfs _ _ i => i
  | .ext2 _ i => i
  | .pipe _ i => i

def setInode (i : Inode) : Body → Body
  | .ramfs x => .ramfs { x with inode := i }
  | .procfs t pid _ => .procfs t pid i
  | .ext2 ino _ => .ext2 ino i
  | .pipe p _ => .pipe p i

end Body

/-- The processes with their descriptors, the files and inodes by address, the disk and the screen. -/
structure Io where
  sys : FileSys
  file : U64 → File U64
  body : U64 → Body
  fs : Ext2Fs
  disk : Disk
  screen : List Byte

/-- What a call gets from outside: the block that `kmalloc` returns to `ramfs_write`, the pages that
`pmm_alloc` returns to `ext2_write`, and the keys. -/
structure Env where
  fresh : Option (List Byte)
  pages : List Nat
  keys : List Byte

/-- A call has returned, with the bytes it copied to the caller, or goes on in a pipe. -/
inductive Result where
  | ret (r : U64) (out : List Byte)
  | inPipe (p : U64) (c : Call)
  deriving DecidableEq

namespace Io

def setFile (s : Io) (a : U64) (f : File U64) : Io := { s with file := update s.file a f }

def setBody (s : Io) (a : U64) (b : Body) : Io := { s with body := update s.body a b }

/-- The file of a descriptor of process `i`. -/
def fileOf (s : Io) (i : Fin maxProcs) (fd : Int) : Option U64 :=
  if h : 0 ≤ fd ∧ fd < 64 then
    let f := ((s.sys.kernel.procTable i).fds ⟨fd.toNat, by omega⟩).file
    if f = 0 then none else some f
  else none

end Io

/-- The `read` of each table, for the file at `a`. -/
def readOps (e : Env) (a : U64) (s : Io) :
    FsOps → Option (File U64 → Nat → Option (Result × Io))
  | .ramfs => some fun f n =>
    match s.body f.inode with
    | .ramfs x => (ramfsRead x f n).map fun r => (.ret r.1 r.2.1, s.setFile a r.2.2)
    | _ => none
  | .procfs => some fun f n =>
    match s.body f.inode with
    | .procfs type pid _ =>
      let r := procRead s.sys.kernel type pid f n
      some (.ret r.1 r.2.1, s.setFile a r.2.2)
    | _ => none
  | .tty => some fun _ n =>
    (ttyReadLoop n e.keys [] s.screen).map fun r =>
      (.ret (BitVec.ofNat 64 r.1.length) r.1, { s with screen := r.2 })
  | .ext2 => some fun f n =>
    match s.body f.inode with
    | .ext2 ino _ =>
      let out := ext2Read s.fs s.disk ino f.pos n
      some (.ret (BitVec.ofNat 64 out.length) out, s.setFile a { f with pos := f.pos + out.length })
    | _ => none
  | .pipe => some fun f n =>
    match s.body f.inode with
    | .pipe p _ => some (.inPipe p (.readWait (BitVec.ofNat 64 n)), s)
    | _ => none

/-- `ext2_write` on the file `f` at `a`, whose inode is `i`. -/
def Io.ext2Write (s : Io) (e : Env) (a : U64) (f : File U64) (ino : Nat) (i : Inode)
    (buf : List Byte) : Result × Io :=
  let r := Fs.ext2Write s.fs s.disk ino f.pos buf e.pages
  let pos := f.pos + r.1
  let i := if i.size < pos then { i with size := pos } else i
  (.ret (BitVec.ofNat 64 r.1) [],
    ({ s with disk := r.2 }.setFile a { f with pos }).setBody f.inode (.ext2 ino i))

/-- The `write` of each table, for the file at `a`. `procfs_ops` has none. -/
def writeOps (e : Env) (a : U64) (s : Io) :
    FsOps → Option (File U64 → List Byte → Option (Result × Io))
  | .ramfs => some fun f buf =>
    match s.body f.inode with
    | .ramfs x => (ramfsWrite x f buf e.fresh).map fun r =>
      (.ret r.1 [], (s.setFile a r.2.2).setBody f.inode (.ramfs r.2.1))
    | _ => none
  | .procfs => none
  | .tty => some fun _ buf =>
    some (.ret (BitVec.ofNat 64 buf.length) [], { s with screen := s.screen ++ buf })
  | .ext2 => some fun f buf =>
    match s.body f.inode with
    | .ext2 ino i => some (s.ext2Write e a f ino i buf)
    | _ => none
  | .pipe => some fun f buf =>
    match s.body f.inode with
    | .pipe p _ =>
      (s.sys.pipes p).map fun pipe =>
        match (callRound pipe (.writeStart buf)).call with
        | .writeDone _ _ r => (.ret r [], s)
        | c => (.inPipe p c, s)
    | _ => none

/-- `sys_read` by process `i`. -/
def sysRead (i : Fin maxProcs) (fd : Int) (n : Nat) (e : Env) (s : Io) : Option (Result × Io) :=
  match s.fileOf i fd with
  | none => some (.ret ebadf [], s)
  | some a => vfsRead (readOps e a s) (some (.ret ebadf [], s)) (s.file a) n

/-- `sys_write` by process `i`. -/
def sysWrite (i : Fin maxProcs) (fd : Int) (buf : List Byte) (e : Env) (s : Io) :
    Option (Result × Io) :=
  match s.fileOf i fd with
  | none => some (.ret ebadf [], s)
  | some a => vfsWrite (writeOps e a s) (some (.ret ebadf [], s)) (s.file a) buf

/-- `sys_open` by process `i`, when the path leads to the inode at `ino` and the `file_t` is at `a`. -/
def Io.open (i : Fin maxProcs) (ino : U64) (flags : BitVec 32) (a : U64) (s : Io) : Int × Io :=
  let (f, inode) := openFile ino (s.body ino).inode flags
  let (r, sys) := sysOpen i (some a) s.sys
  (r, ({ s with sys }.setFile a f).setBody ino ((s.body ino).setInode inode))

/-- `pipe_create` by process `i`, with the inodes at `ri` and `wi`. -/
def Io.pipe (i : Fin maxProcs) (b : PipeBlocks) (ri wi : U64) (s : Io) : Int × Io :=
  let inode : Inode := ⟨.fifo, 0, some .pipe⟩
  let (r, sys) := pipeCreate i (some b) s.sys
  let s := ({ s with sys }.setBody ri (.pipe b.pipe inode)).setBody wi (.pipe b.pipe inode)
  (r, (s.setFile b.readEnd ⟨ri, 0, 0, 1, some .pipe⟩).setFile b.writeEnd
    ⟨wi, 0, oWronly, 1, some .pipe⟩)

/-! ## Calls that go on in a pipe -/

/-- A call of `n` bytes, behind the checks at its start. -/
def Going (n : Nat) : Call → Prop
  | .readWait m => m.toNat = n
  | .readCopy m dst => m.toNat = n ∧ dst.length ≤ n
  | .readDone _ dst ret => dst.length ≤ n ∧ ret = BitVec.ofNat 64 dst.length
  | .writeStart _ => False
  | .writeLoop src written => src.length = n ∧ written ≤ n
  | .writeDone _ written ret => written ≤ n ∧ ret = BitVec.ofNat 64 written

/-- The value that a call has returned. -/
def returned : Call → Option U64
  | .readDone _ _ ret => some ret
  | .writeDone _ _ ret => some ret
  | _ => none

/-- The rounds of one call, with any changes of the pipe between them. -/
def Rounds : Call → Call → Prop := Relation.ReflTransGen fun c c' => ∃ p, c' = (callRound p c).call

namespace Going

variable {n : Nat} {c : Call}

theorem round (h : Going n c) (p : Pipe) : Going n (callRound p c).call := by
  cases c with
  | readWait m =>
    simp only [callRound]
    split
    · split
      · exact ⟨Nat.zero_le _, rfl⟩
      · exact h
    · exact ⟨h, Nat.zero_le _⟩
  | readCopy m dst =>
    simp only [callRound]
    split
    · next hc =>
      refine ⟨h.1, ?_⟩
      rw [List.length_append, List.length_singleton, ← h.1]
      exact hc.1
    · exact ⟨h.2, rfl⟩
  | writeStart src => exact h.elim
  | writeLoop src written =>
    simp only [callRound]
    split
    · exact ⟨h.2, rfl⟩
    · next b hb =>
      split
      · exact h
      · exact ⟨h.1, h.1 ▸ (List.getElem?_eq_some_iff.mp hb).1⟩
  | readDone m dst ret => exact h
  | writeDone src written ret => exact h

theorem rounds {c' : Call} (h : Going n c) (hr : Rounds c c') : Going n c' := by
  induction hr with
  | refl => exact h
  | tail _ hstep ih =>
    obtain ⟨p, rfl⟩ := hstep
    exact ih.round p

end Going

/-! ## Refused calls -/

/-- The call has returned a negative value, and nothing has changed. -/
def Refused (s : Io) (o : Option (Result × Io)) : Prop := ∃ r, r.msb = true ∧ o = some (.ret r [], s)

namespace Io

/-- A write to the file at `a` fails: its table has no `write`, the ramfs has no memory to extend the
file, or the read end of the pipe is closed. -/
def NoWrite (s : Io) (a : U64) (e : Env) (buf : List Byte) : Prop :=
  match (s.file a).ops with
  | none | some .procfs => True
  | some .ramfs => ∃ x, s.body (s.file a).inode = .ramfs x ∧
      x.capacity < ((s.file a).pos + buf.length) % 2 ^ 64 ∧ e.fresh = none
  | some .pipe => ∃ p i pipe, s.body (s.file a).inode = .pipe p i ∧ s.sys.pipes p = some pipe ∧
      pipe.readClosed = true
  | some .tty | some .ext2 => False

/-- A read of the file at `a` fails: it has no table, or it is the status of a process that is gone. -/
def NoRead (s : Io) (a : U64) : Prop :=
  match (s.file a).ops with
  | none => True
  | some .procfs => ∃ pid i, s.body (s.file a).inode = .procfs .pidStatus pid i ∧
      procFind pid s.sys.kernel = none
  | some _ => False

/-- Opened with `O_RDONLY`, or a directory. -/
def NotForWriting (s : Io) (a : U64) : Prop :=
  (s.file a).flags &&& 3 = 0 ∨ (s.body (s.file a).inode).inode.type = .dir

/-- Opened with `O_WRONLY`. -/
def NotForReading (s : Io) (a : U64) : Prop := (s.file a).flags &&& 3 = oWronly

end Io

section

variable {s : Io} {i : Fin maxProcs} {fd : Int} {a : U64} {e : Env}

theorem setFile_self (s : Io) (a : U64) : s.setFile a (s.file a) = s := by
  rw [Io.setFile, update_eq_self]

theorem setBody_self {b : Body} (h : s.body a = b) : s.setBody a b = s := by
  rw [Io.setBody, ← h, update_eq_self]

theorem msb_ofNat {n : Nat} (h : n < 2 ^ 63) : (BitVec.ofNat 64 n).msb = false := by
  rw [BitVec.msb_eq_false_iff_two_mul_lt, BitVec.toNat_ofNat]
  omega

theorem Going.returns {n : Nat} {c c' : Call} (h : Going n c) (hn : n < 2 ^ 63) (hr : Rounds c c')
    {r : U64} (hret : returned c' = some r) : r.msb = false := by
  have h' := h.rounds hr
  cases c' with
  | readDone m dst ret =>
    cases hret
    rw [h'.2]
    exact msb_ofNat (h'.1.trans_lt hn)
  | writeDone src written ret =>
    cases hret
    rw [h'.2]
    exact msb_ofNat (h'.1.trans_lt hn)
  | _ => cases hret

theorem not_refused_ofNat {n : Nat} (h : n < 2 ^ 63) {out : List Byte} {s' : Io} :
    ¬Refused s (some (.ret (BitVec.ofNat 64 n) out, s')) := by
  rintro ⟨r, hr, heq⟩
  cases heq
  rw [msb_ofNat h] at hr
  cases hr

theorem not_refused_none : ¬Refused s none := by
  rintro ⟨r, -, heq⟩
  cases heq

theorem not_refused_inPipe {p : U64} {c : Call} {s' : Io} : ¬Refused s (some (.inPipe p c, s')) := by
  rintro ⟨r, -, heq⟩
  cases heq

theorem ramfsWrite_fst {x : RamNode} {f : File U64} {buf : List Byte} {fresh : Option (List Byte)}
    {r : U64 × RamNode × File U64} (h : ramfsWrite x f buf fresh = some r)
    (hroom : ¬(x.capacity < (f.pos + buf.length) % 2 ^ 64 ∧ fresh = none)) :
    r.1 = BitVec.ofNat 64 buf.length := by
  unfold ramfsWrite at h
  split at h
  · next hcap =>
    cases fresh with
    | none => exact absurd ⟨hcap, rfl⟩ hroom
    | some block =>
      obtain ⟨x', -, hstore⟩ := Option.bind_eq_some_iff.mp h
      exact (ramfsStore_keeps hstore).1
  · exact (ramfsStore_keeps h).1

theorem ramfsRead_fst {x : RamNode} {f : File U64} {n : Nat} {r : U64 × List Byte × File U64}
    (h : ramfsRead x f n = some r) : ∃ k ≤ n, r.1 = BitVec.ofNat 64 k := by
  unfold ramfsRead at h
  split at h
  · cases h
    exact ⟨0, Nat.zero_le _, rfl⟩
  · obtain ⟨out, -, hr⟩ := Option.map_eq_some_iff.mp h
    subst hr
    refine ⟨_, ?_, rfl⟩
    split
    · exact Nat.le_of_lt ‹_›
    · exact Nat.le_refl n

theorem refused_ramfs_write_iff {x : RamNode} (hbody : s.body (s.file a).inode = .ramfs x)
    {buf : List Byte} (hlen : buf.length < 2 ^ 63) {fresh : Option (List Byte)} :
    Refused s ((ramfsWrite x (s.file a) buf fresh).map fun r =>
      (.ret r.1 [], (s.setFile a r.2.2).setBody (s.file a).inode (.ramfs r.2.1))) ↔
    x.capacity < ((s.file a).pos + buf.length) % 2 ^ 64 ∧ fresh = none := by
  by_cases hfull : x.capacity < ((s.file a).pos + buf.length) % 2 ^ 64 ∧ fresh = none
  · obtain ⟨hcap, rfl⟩ := hfull
    refine iff_of_true ⟨enospc, by decide, ?_⟩ ⟨hcap, rfl⟩
    rw [ramfsWrite, if_pos hcap, Option.map_some, setFile_self, setBody_self hbody]
  · refine iff_of_false ?_ hfull
    cases hw : ramfsWrite x (s.file a) buf fresh with
    | none => exact not_refused_none
    | some r =>
      rw [Option.map_some, ramfsWrite_fst hw hfull]
      exact not_refused_ofNat hlen

theorem refused_pipe_write_iff {p : U64} {buf : List Byte} :
    Refused s ((s.sys.pipes p).map fun pipe =>
      match (callRound pipe (.writeStart buf)).call with
      | .writeDone _ _ r => (.ret r [], s)
      | c => (.inPipe p c, s)) ↔
    ∃ pipe, s.sys.pipes p = some pipe ∧ pipe.readClosed = true := by
  cases hp : s.sys.pipes p with
  | none =>
    refine iff_of_false not_refused_none ?_
    rintro ⟨pipe, hpipe, -⟩
    cases hpipe
  | some pipe =>
    cases hclosed : pipe.readClosed with
    | true =>
      refine iff_of_true ⟨-22, by decide, ?_⟩ ⟨pipe, rfl, hclosed⟩
      simp only [Option.map_some, callRound, hclosed, if_true]
    | false =>
      refine iff_of_false ?_ ?_
      · simp only [Option.map_some, callRound, hclosed, Bool.false_eq_true, if_false]
        exact not_refused_inPipe
      · rintro ⟨pipe', heq, hc⟩
        cases heq
        rw [hclosed] at hc
        cases hc

theorem refused_write_iff (ha : s.fileOf i fd = some a) {buf : List Byte} (hlen : buf.length < 2 ^ 63) :
    Refused s (sysWrite i fd buf e s) ↔ s.NoWrite a e buf := by
  unfold sysWrite Io.NoWrite
  rw [ha]
  dsimp only
  cases hops : (s.file a).ops with
  | none =>
    rw [vfsWrite, hops]
    exact iff_of_true ⟨ebadf, by decide, rfl⟩ trivial
  | some o =>
    cases o with
    | procfs =>
      rw [vfsWrite, hops]
      exact iff_of_true ⟨ebadf, by decide, rfl⟩ trivial
    | tty =>
      rw [vfsWrite_of hops rfl]
      exact iff_of_false (not_refused_ofNat hlen) id
    | ext2 =>
      rw [vfsWrite_of hops rfl]
      refine iff_of_false ?_ id
      split
      · exact not_refused_ofNat ((ext2WriteLoop_le _ _ _ _ _ (Nat.zero_le _)).trans_lt hlen)
      · exact not_refused_none
    | ramfs =>
      rw [vfsWrite_of hops rfl]
      dsimp only
      split
      · next x hbody =>
        rw [refused_ramfs_write_iff hbody hlen]
        refine ⟨fun h => ⟨x, hbody, h⟩, ?_⟩
        rintro ⟨y, hy, h⟩
        cases hbody.symm.trans hy
        exact h
      · next hbody =>
        refine iff_of_false not_refused_none ?_
        rintro ⟨x, hx, -⟩
        exact hbody x hx
    | pipe =>
      rw [vfsWrite_of hops rfl]
      dsimp only
      split
      · next p i hbody =>
        rw [refused_pipe_write_iff]
        constructor
        · rintro ⟨pipe, h⟩
          exact ⟨p, i, pipe, hbody, h⟩
        · rintro ⟨q, j, pipe, hq, h⟩
          cases hbody.symm.trans hq
          exact ⟨pipe, h⟩
      · next hbody =>
        refine iff_of_false not_refused_none ?_
        rintro ⟨p, i, -, hp, -⟩
        exact hbody p i hp

theorem procText_error {k : Kernel} {pid : BitVec 32} {type : ProcType} {r : U64}
    (h : procText k pid type = .error r) :
    r = 0 ∧ type ≠ .pidStatus ∨ r = enoent ∧ type = .pidStatus ∧ procFind pid k = none := by
  cases type with
  | pidStatus =>
    simp only [procText] at h
    split at h
    · next hfind =>
      cases h
      exact Or.inr ⟨rfl, rfl, hfind⟩
    · cases h
  | root | pidDir =>
    cases h
    exact Or.inl ⟨rfl, by simp⟩
  | version | meminfo | uptime => cases h

theorem refused_proc_read_iff {type : ProcType} {pid : BitVec 32} {n : Nat} (hn : n < 2 ^ 63) :
    Refused s (some (.ret (procRead s.sys.kernel type pid (s.file a) n).1
      (procRead s.sys.kernel type pid (s.file a) n).2.1,
      s.setFile a (procRead s.sys.kernel type pid (s.file a) n).2.2)) ↔
    type = .pidStatus ∧ procFind pid s.sys.kernel = none := by
  unfold procRead
  cases htext : procText s.sys.kernel pid type with
  | error r =>
    rcases procText_error htext with ⟨rfl, htype⟩ | ⟨rfl, htype, hfind⟩
    · exact iff_of_false (not_refused_ofNat (n := 0) (by decide)) fun h => htype h.1
    · refine iff_of_true ⟨enoent, by decide, ?_⟩ ⟨htype, hfind⟩
      simp only [setFile_self]
  | ok tmp =>
    refine iff_of_false ?_ ?_
    · dsimp only
      split
      · exact not_refused_ofNat (n := 0) (by decide)
      · exact not_refused_ofNat ((Nat.min_le_left _ _).trans_lt hn)
    · rintro ⟨rfl, hfind⟩
      simp [procText, hfind] at htext

theorem refused_read_iff (ha : s.fileOf i fd = some a) {n : Nat} (hn : n < 2 ^ 63) :
    Refused s (sysRead i fd n e s) ↔ s.NoRead a := by
  unfold sysRead Io.NoRead
  rw [ha]
  dsimp only
  cases hops : (s.file a).ops with
  | none =>
    rw [vfsRead, hops]
    exact iff_of_true ⟨ebadf, by decide, rfl⟩ trivial
  | some o =>
    cases o with
    | procfs =>
      rw [vfsRead_of hops rfl]
      dsimp only
      split
      · next type pid i hbody =>
        rw [refused_proc_read_iff hn]
        constructor
        · rintro ⟨rfl, h⟩
          exact ⟨pid, i, hbody, h⟩
        · rintro ⟨q, j, hq, h⟩
          cases hbody.symm.trans hq
          exact ⟨rfl, h⟩
      · next hbody =>
        refine iff_of_false not_refused_none ?_
        rintro ⟨pid, i, hp, -⟩
        exact hbody _ pid i hp
    | tty =>
      rw [vfsRead_of hops rfl]
      refine iff_of_false ?_ id
      cases hloop : ttyReadLoop n e.keys [] s.screen with
      | none => exact not_refused_none
      | some r =>
        exact not_refused_ofNat ((length_ttyReadLoop (Nat.zero_le _) hloop).trans_lt hn)
    | ext2 =>
      rw [vfsRead_of hops rfl]
      refine iff_of_false ?_ id
      dsimp only
      split
      · exact not_refused_ofNat ((length_ext2Read _ _ _ _ _).trans_lt hn)
      · exact not_refused_none
    | ramfs =>
      rw [vfsRead_of hops rfl]
      refine iff_of_false ?_ id
      split
      · next x _ =>
        cases hr : ramfsRead x (s.file a) n with
        | none => exact not_refused_none
        | some r =>
          obtain ⟨k, hk, hr⟩ := ramfsRead_fst hr
          rw [Option.map_some, hr]
          exact not_refused_ofNat (hk.trans_lt hn)
      · exact not_refused_none
    | pipe =>
      rw [vfsRead_of hops rfl]
      refine iff_of_false ?_ id
      split
      · exact not_refused_inPipe
      · exact not_refused_none

end

section

variable {s s' : Io} {i : Fin maxProcs} {fd : Int} {e : Env} {p : U64} {c : Call}

theorem going_of_write {buf : List Byte} (h : sysWrite i fd buf e s = some (.inPipe p c, s')) :
    Going buf.length c := by
  unfold sysWrite vfsWrite at h
  split at h
  · cases h
  · split at h
    · cases h
    · next w hw =>
      obtain ⟨o, -, hw⟩ := Option.bind_eq_some_iff.mp hw
      cases o with
      | pipe =>
        cases hw
        dsimp only at h
        split at h
        · obtain ⟨pipe, -, hpipe⟩ := Option.map_eq_some_iff.mp h
          cases hclosed : pipe.readClosed with
          | true =>
            simp only [callRound, hclosed, if_true] at hpipe
            cases hpipe
          | false =>
            simp only [callRound, hclosed, Bool.false_eq_true, if_false] at hpipe
            cases hpipe
            exact ⟨rfl, Nat.zero_le _⟩
        · cases h
      | ramfs =>
        cases hw
        dsimp only at h
        split at h
        · obtain ⟨r, -, hr⟩ := Option.map_eq_some_iff.mp h
          cases hr
        · cases h
      | ext2 =>
        cases hw
        dsimp only at h
        split at h <;> cases h
      | tty =>
        cases hw
        cases h
      | procfs => cases hw

theorem going_of_read {n : Nat} (hn : n < 2 ^ 64) (h : sysRead i fd n e s = some (.inPipe p c, s')) :
    Going n c := by
  unfold sysRead vfsRead at h
  split at h
  · cases h
  · split at h
    · cases h
    · next w hw =>
      obtain ⟨o, -, hw⟩ := Option.bind_eq_some_iff.mp hw
      cases o with
      | pipe =>
        cases hw
        dsimp only at h
        split at h
        · cases h
          exact (BitVec.toNat_ofNat ..).trans (Nat.mod_eq_of_lt hn)
        · cases h
      | ramfs =>
        cases hw
        dsimp only at h
        split at h
        · obtain ⟨r, -, hr⟩ := Option.map_eq_some_iff.mp h
          cases hr
        · cases h
      | ext2 | procfs =>
        cases hw
        dsimp only at h
        split at h <;> cases h
      | tty =>
        cases hw
        obtain ⟨r, -, hr⟩ := Option.map_eq_some_iff.mp h
        cases hr

end

/-- **Descriptors and their access mode.** Take any state, any process, any descriptor it has and any
call. A write to a descriptor that was opened for reading, or that is a directory, is refused exactly if
any write to that file would be; the same for a read of one that was opened for writing. A call that goes
on in a pipe is not refused later either, whatever the others do. -/
theorem descriptor_modes_exact {s : Io} {i : Fin maxProcs} {fd : Int} {a : U64}
    (ha : s.fileOf i fd = some a) (e : Env) :
    (∀ buf : List Byte, buf.length < 2 ^ 63 →
      ((s.NotForWriting a → Refused s (sysWrite i fd buf e s)) ↔
        (s.NotForWriting a → s.NoWrite a e buf)) ∧
      ∀ p c s', sysWrite i fd buf e s = some (.inPipe p c, s') →
        ∀ c' r, Rounds c c' → returned c' = some r → r.msb = false) ∧
    ∀ n < 2 ^ 63,
      ((s.NotForReading a → Refused s (sysRead i fd n e s)) ↔ (s.NotForReading a → s.NoRead a)) ∧
      ∀ p c s', sysRead i fd n e s = some (.inPipe p c, s') →
        ∀ c' r, Rounds c c' → returned c' = some r → r.msb = false := by
  refine ⟨fun buf hlen => ⟨?_, fun p c s' hw c' r hr hret => ?_⟩,
    fun n hn => ⟨?_, fun p c s' hw c' r hr hret => ?_⟩⟩
  · rw [refused_write_iff ha hlen]
  · exact (going_of_write hw).returns hlen hr hret
  · rw [refused_read_iff ha hn]
  · exact (going_of_read (by omega) hw).returns hn hr hret

/-- Process 1 runs and has no files. There are a file with the bytes `hi`, a directory, and the status
of a process that is gone. -/
def smallIo : Io where
  sys := ⟨bootKernel.upd 1 fun p => { p with pid := 1, state := .running }, fun _ => none,
    fun _ => none, fun _ => none⟩
  file := fun _ => ⟨0, 0, 0, 0, none⟩
  body := fun a =>
    if a = 0x1000 then .ramfs { ramfsNode (str ['f']) .reg with
      data := some [104, 105], size := 2, capacity := 2, inode := ⟨.reg, 2, some .ramfs⟩ }
    else if a = 0x2000 then .ramfs (ramfsNode (str ['d']) .dir)
    else .procfs .pidStatus 7 ⟨.reg, 0, some .procfs⟩
  fs := floppyFs
  disk := floppy
  screen := []

def smallEnv : Env := ⟨some (List.replicate 4097 0), [], []⟩

/-- A file of `/proc` cannot be written. -/
theorem descriptor_modes_exact_proc :
    let s := (smallIo.open 1 0x3000 0 0x5000).2
    Refused s (sysWrite 1 0 [120] smallEnv s) := by
  intro s
  have ha : s.fileOf 1 0 = some 0x5000 := by decide +kernel
  have hw : s.NotForWriting 0x5000 := Or.inl (by decide +kernel)
  exact ((descriptor_modes_exact ha smallEnv).1 [120] (by decide)).1.mpr (fun _ => trivial) hw

/-- **Nothing keeps a descriptor to its mode.** The file is opened with `O_RDONLY` and written; the
directory is written; the read end of a pipe is written and its write end is read. -/
theorem readonly_written :
    (let r := smallIo.open 1 0x1000 0 0x5000
     (r.1, (sysWrite 1 0 [120] smallEnv r.2).map fun w => (w.1, (match w.2.body 0x1000 with
      | .ramfs x => x.content
      | _ => []))) = (0, some (.ret 1 [], [120, 105]))) ∧
    (let r := smallIo.open 1 0x2000 0 0x5000
     (r.1, (r.2.body 0x2000).inode.type,
      (sysWrite 1 0 [120] smallEnv r.2).map fun w => (w.1, (w.2.body 0x2000).inode.size)) =
        (0, .dir, some (.ret 1 [], 1))) ∧
    (let r := smallIo.pipe 1 ⟨0x7000, 0x8000, 0x9000⟩ 0xA000 0xB000
     (r.1, (sysWrite 1 0 [120] smallEnv r.2).map Prod.fst, (sysRead 1 1 1 smallEnv r.2).map Prod.fst) =
      (0, some (.inPipe 0x7000 (.writeLoop [120] 0)), some (.inPipe 0x7000 (.readWait 1)))) ∧
    (callRound pipeAlloc (.writeLoop [120] 0)).put = [120] ∧
    (callRound (pipeAlloc.put 120) (.readCopy 1 [])).got = [120] := by
  refine ⟨by decide +kernel, by decide +kernel, by decide +kernel, by decide +kernel, by decide +kernel⟩

end Sinux.Fs

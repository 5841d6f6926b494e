import Sinux.Fs.Inode
import Sinux.Lib.Buffer
import Mathlib.Logic.Relation
import Mathlib.Order.Basic

/-!
# Files of the ramfs (`kernel/fs/ramfs.c`)

* `RamNode`: `ramfs_node_t` with the block of its contents; `ramfsRead`, `ramfsWrite` as the source
  has them, growth of the block included.
* `RamFile`, `call`: one regular file and its open handles, under `vfs_open`, `vfs_read`, `vfs_write`
  and `vfs_close` in any order.
* `RefFile`, `RefStep`: what a file is for, a sequence of bytes and a position for each handle.

Results:

* `FileInv`: the sizes fit the block and no position is behind the end, kept by every call.
* `ramfs_byte_sequence`: **every call answers as the sequence of bytes does**, in every run without
  `O_TRUNC`.

**Out of scope**: directories (`RamDir`), and calls that overlap.
-/

namespace Sinux.Fs

open Function Sinux.Lib Sinux.Lib.Buffer

/-! ## Nodes -/

/-- `ramfs_node_t`. `data` is the block of the contents, `none` for `NULL`; `children` holds indices
into `nodes`, as many as `child_count`. -/
structure RamNode where
  name : Str
  type : FileType
  data : Option (List Byte)
  size : Nat
  capacity : Nat
  inode : Inode
  children : List Nat
  deriving DecidableEq

/-- What `alloc_node` writes to the node it takes. -/
def newNode (name : Str) (type : FileType) : RamNode :=
  ⟨name, type, none, 0, 0, ⟨type, 0, none⟩, []⟩

/-- A node as `ramfs_create` leaves it. -/
def ramfsNode (name : Str) (type : FileType) : RamNode :=
  { newNode name type with inode := ⟨type, 0, some .ramfs⟩ }

namespace RamNode

/-- The block of the contents; there is none as long as nothing was written. -/
def block (x : RamNode) : List Byte := x.data.getD []

/-- The bytes a reader can get. -/
def content (x : RamNode) : List Byte := x.block.take x.size

end RamNode

section

variable {ι : Type}

/-- `ramfs_read`: the value returned, the bytes copied to the caller, and the file. Without a result
the copy leaves the block. -/
def ramfsRead (x : RamNode) (f : File ι) (n : Nat) : Option (U64 × List Byte × File ι) :=
  if x.data = none ∨ x.size ≤ f.pos then some (0, [], f)
  else
    let avail := x.size - f.pos
    let n := if avail < n then avail else n
    (fetch x.block f.pos n).map fun out => (BitVec.ofNat 64 n, out, { f with pos := f.pos + n })

/-- The growth of the block in `ramfs_write`, once `kmalloc` returned `block`. -/
def ramfsGrow (x : RamNode) (cap : Nat) (block : List Byte) : Option RamNode :=
  match x.data with
  | none => some { x with data := some block, capacity := cap }
  | some old => do
    let kept ← fetch old 0 x.size
    let block ← blit block 0 kept
    return { x with data := some block, capacity := cap }

/-- The part of `ramfs_write` behind the growth. -/
def ramfsStore (x : RamNode) (f : File ι) (buf : List Byte) :
    Option (U64 × RamNode × File ι) := do
  let block ← blit x.block f.pos buf
  let x := { x with data := x.data.map fun _ => block }
  let pos := (f.pos + buf.length) % 2 ^ 64
  let x := if x.size < pos then { x with size := pos, inode := { x.inode with size := pos } } else x
  return (BitVec.ofNat 64 buf.length, x, { f with pos })

/-- `ramfs_write`. `fresh` is what `kmalloc` returns when it is called. -/
def ramfsWrite (x : RamNode) (f : File ι) (buf : List Byte) (fresh : Option (List Byte)) :
    Option (U64 × RamNode × File ι) :=
  if x.capacity < (f.pos + buf.length) % 2 ^ 64 then
    match fresh with
    | none => some (enospc, x, f)
    | some block => do
      let x ← ramfsGrow x ((f.pos + buf.length + 4096) % 2 ^ 64) block
      ramfsStore x f buf
  else ramfsStore x f buf

theorem ramfsGrow_capacity {x x' : RamNode} {cap : Nat} {block : List Byte}
    (h : ramfsGrow x cap block = some x') : x'.capacity = cap := by
  unfold ramfsGrow at h
  split at h
  · cases h
    rfl
  · obtain ⟨kept, -, h⟩ := Option.bind_eq_some_iff.mp h
    obtain ⟨block, -, h⟩ := Option.bind_eq_some_iff.mp h
    cases h
    rfl

/-- The part behind the growth returns the number of bytes and leaves the block where it is. -/
theorem ramfsStore_keeps {x x' : RamNode} {f f' : File ι} {buf : List Byte} {ret : U64}
    (h : ramfsStore x f buf = some (ret, x', f')) :
    ret = BitVec.ofNat 64 buf.length ∧ f'.pos = (f.pos + buf.length) % 2 ^ 64 ∧
      x'.capacity = x.capacity ∧ (x'.data = none ↔ x.data = none) := by
  obtain ⟨block, -, h⟩ := Option.bind_eq_some_iff.mp h
  cases h
  dsimp only
  split <;> exact ⟨rfl, rfl, rfl, Option.map_eq_none_iff⟩

end

/-! ## One call -/

/-- The sizes of a node agree with its block. -/
structure RamNode.Ok (x : RamNode) : Prop where
  size_le : x.size ≤ x.capacity
  capacity_le : x.capacity ≤ x.block.length

theorem RamNode.Ok.size_le_block {x : RamNode} (h : x.Ok) : x.size ≤ x.block.length :=
  h.size_le.trans h.capacity_le

theorem RamNode.Ok.length_content {x : RamNode} (h : x.Ok) : x.content.length = x.size := by
  rw [RamNode.content, List.length_take, Nat.min_eq_left h.size_le_block]

/-- A write of `buf` at `pos` that stored its bytes. -/
structure Stored (x : RamNode) (pos : Nat) (buf : List Byte) (x' : RamNode) : Prop where
  ok : x'.Ok
  content : x'.content = overwrite x.content pos buf
  size : x'.size = max x.size (pos + buf.length)
  inodeSize : x'.inode.size = if x.size < pos + buf.length then x'.size else x.inode.size
  ops : x'.inode.ops = x.inode.ops

section

variable {ι : Type} {x : RamNode} {f : File ι} {buf : List Byte}

theorem ramfsRead_eq (h : x.Ok) (hpos : f.pos ≤ x.size) (n : Nat) :
    let out := (x.content.drop f.pos).take n
    ramfsRead x f n = some (BitVec.ofNat 64 out.length, out, { f with pos := f.pos + out.length }) := by
  intro out
  have hlen : out.length = min n (x.size - f.pos) := by
    rw [List.length_take, List.length_drop, h.length_content]
  unfold ramfsRead
  split
  · next hend =>
    have hsize : x.size ≤ f.pos := by
      rcases hend with hnull | hle
      · have := h.size_le_block
        rw [RamNode.block, hnull] at this
        exact this.trans (Nat.zero_le _)
      · exact hle
    have hout : out = [] := List.eq_nil_of_length_eq_zero (by omega)
    rw [hout]
    rfl
  · have hn : (if x.size - f.pos < n then x.size - f.pos else n) = out.length := by
      rw [hlen]
      split <;> omega
    have hout : (x.block.drop f.pos).take out.length = out := by
      have hcut : x.content.drop f.pos = (x.block.drop f.pos).take (x.size - f.pos) :=
        List.drop_take ..
      rw [hlen, ← List.take_take, ← hcut]
    have hblock := h.size_le_block
    simp only [hn]
    rw [fetch_of_le (by omega), hout]
    rfl

theorem ramfsStore_spec (f : File ι) (buf : List Byte) (h : x.Ok) (hpos : f.pos ≤ x.size)
    (hcap : f.pos + buf.length ≤ x.capacity) (hlt : f.pos + buf.length < 2 ^ 63) :
    ∃ x', ramfsStore x f buf = some (BitVec.ofNat 64 buf.length, x',
        { f with pos := f.pos + buf.length }) ∧
      Stored x f.pos buf x' ∧ x'.capacity = x.capacity := by
  have hmod : (f.pos + buf.length) % 2 ^ 64 = f.pos + buf.length := Nat.mod_eq_of_lt (by omega)
  have hcopy := blit_of_le (hcap.trans h.capacity_le)
  have hlen := length_overwrite (hpos.trans h.size_le_block) buf
  have hkeep : x.block.length = max x.block.length (f.pos + buf.length) :=
    (Nat.max_eq_left (hcap.trans h.capacity_le)).symm
  -- without a block the copy is empty
  have hblock : (x.data.map fun _ => overwrite x.block f.pos buf).getD [] =
      overwrite x.block f.pos buf := by
    cases hd : x.data with
    | some b => rfl
    | none =>
      have : (overwrite x.block f.pos buf).length = 0 := by
        rw [hlen, ← hkeep, RamNode.block, hd]
        rfl
      exact (List.eq_nil_of_length_eq_zero this).symm
  have hfits : ∀ x' : RamNode, x'.block = overwrite x.block f.pos buf → x'.capacity = x.capacity →
      x'.size = max x.size (f.pos + buf.length) →
      x'.Ok ∧ x'.content = overwrite x.content f.pos buf := by
    intro x' hb hc hs
    have hsize := h.size_le
    refine ⟨⟨by omega, ?_⟩, ?_⟩
    · rw [hb, hlen, ← hkeep, hc]
      exact h.capacity_le
    · rw [RamNode.content, hb, hs]
      exact take_overwrite hpos h.size_le_block
  unfold ramfsStore
  rw [hcopy, hmod]
  simp only [Option.bind_eq_bind, Option.bind_some]
  refine ⟨_, rfl, ?_, by split <;> rfl⟩
  by_cases hgrow : x.size < f.pos + buf.length
  · rw [if_pos hgrow]
    have hmax : f.pos + buf.length = max x.size (f.pos + buf.length) := by omega
    obtain ⟨hok, hcontent⟩ := hfits { x with
      data := x.data.map fun _ => overwrite x.block f.pos buf
      size := f.pos + buf.length
      inode := { x.inode with size := f.pos + buf.length } } hblock rfl hmax
    exact ⟨hok, hcontent, hmax, (if_pos hgrow).symm, rfl⟩
  · rw [if_neg hgrow]
    have hmax : x.size = max x.size (f.pos + buf.length) := by omega
    obtain ⟨hok, hcontent⟩ := hfits { x with
      data := x.data.map fun _ => overwrite x.block f.pos buf } hblock rfl hmax
    exact ⟨hok, hcontent, hmax, (if_neg hgrow).symm, rfl⟩

theorem ramfsGrow_spec (h : x.Ok) (cap : Nat) {block : List Byte} (hsize : x.size ≤ cap)
    (hcap : cap ≤ block.length) :
    ∃ x', ramfsGrow x cap block = some x' ∧ x'.Ok ∧ x'.content = x.content ∧ x'.size = x.size ∧
      x'.capacity = cap ∧ x'.inode = x.inode := by
  have hle := hsize.trans hcap
  unfold ramfsGrow
  cases hd : x.data with
  | none =>
    have hzero : x.size = 0 := by
      have := h.size_le_block
      rw [RamNode.block, hd] at this
      exact Nat.le_zero.mp this
    refine ⟨_, rfl, ⟨hsize, hcap⟩, ?_, rfl, rfl, rfl⟩
    simp [RamNode.content, hzero]
  | some old =>
    have hold : x.block = old := by rw [RamNode.block, hd]; rfl
    have hkept : (old.take x.size).length = x.size := by
      rw [List.length_take, Nat.min_eq_left (hold ▸ h.size_le_block)]
    have hfetch : fetch old 0 x.size = some (old.take x.size) :=
      fetch_of_le (by rw [Nat.zero_add]; exact hold ▸ h.size_le_block)
    have hblit : blit block 0 (old.take x.size) = some (overwrite block 0 (old.take x.size)) :=
      blit_of_le (by rw [hkept, Nat.zero_add]; exact hle)
    simp only [hfetch, hblit, Option.bind_eq_bind, Option.bind_some]
    refine ⟨_, rfl, ⟨hsize, ?_⟩, ?_, rfl, rfl, rfl⟩
    · rw [RamNode.block, Option.getD_some, length_overwrite (Nat.zero_le _)]
      exact hcap.trans (Nat.le_max_left _ _)
    · rw [RamNode.content, RamNode.content, RamNode.block, Option.getD_some, overwrite_zero, hold,
        List.take_left' hkept]

theorem ofNat_ne_enospc {n : Nat} (hn : n < 2 ^ 63) : BitVec.ofNat 64 n ≠ enospc := by
  intro h
  have htoNat : (BitVec.ofNat 64 n).toNat = enospc.toNat := congrArg BitVec.toNat h
  rw [BitVec.toNat_ofNat, Nat.mod_eq_of_lt (by omega)] at htoNat
  have hval : enospc.toNat = 2 ^ 64 - 28 := rfl
  omega

/-- **`ramfs_write` stores all its bytes or changes nothing**, and it fails only for want of
memory. -/
theorem ramfsWrite_spec (h : x.Ok) (hpos : f.pos ≤ x.size) (hlt : f.pos + buf.length < 2 ^ 63)
    {fresh : Option (List Byte)}
    (hfresh : ∀ block ∈ fresh, f.pos + buf.length + 4096 ≤ block.length) :
    (fresh = none ∧ ramfsWrite x f buf fresh = some (enospc, x, f)) ∨
    ∃ x', ramfsWrite x f buf fresh = some (BitVec.ofNat 64 buf.length, x',
        { f with pos := f.pos + buf.length }) ∧ Stored x f.pos buf x' := by
  have hmod : (f.pos + buf.length) % 2 ^ 64 = f.pos + buf.length := Nat.mod_eq_of_lt (by omega)
  have hcap : (f.pos + buf.length + 4096) % 2 ^ 64 = f.pos + buf.length + 4096 :=
    Nat.mod_eq_of_lt (by omega)
  unfold ramfsWrite
  rw [hmod, hcap]
  by_cases hgrow : x.capacity < f.pos + buf.length
  · rw [if_pos hgrow]
    cases fresh with
    | none => exact Or.inl ⟨rfl, rfl⟩
    | some block =>
      have hsize := h.size_le
      obtain ⟨y, hy, hyok, hcontent, hysize, hycap, hyinode⟩ :=
        ramfsGrow_spec h (f.pos + buf.length + 4096) (by omega) (hfresh block rfl)
      obtain ⟨x', hx', hst, -⟩ := ramfsStore_spec f buf hyok (by omega) (by omega) hlt
      refine Or.inr ⟨x', ?_, hst.ok, by rw [hst.content, hcontent], by rw [hst.size, hysize], ?_, ?_⟩
      · simp only [hy, hx', Option.bind_eq_bind, Option.bind_some]
      · rw [hst.inodeSize, hysize, hyinode]
      · rw [hst.ops, hyinode]
  · rw [if_neg hgrow]
    obtain ⟨x', hx', hst, -⟩ := ramfsStore_spec f buf h hpos (by omega) hlt
    exact Or.inr ⟨x', hx', hst⟩

end

/-! ## One file and its handles -/

variable {ι : Type} [DecidableEq ι]

/-- A regular file and the `file_t` open on it, by name. -/
structure RamFile (ι : Type) where
  node : RamNode
  handles : ι → Option (File Unit)

/-- A call with what the world contributes to it: whether `vfs_open` gets its `file_t`, and the block
`kmalloc` has for `ramfs_write`. -/
inductive FileCall (ι : Type) where
  | vfsOpen (h : ι) (flags : BitVec 32) (memory : Bool)
  | vfsRead (h : ι) (n : Nat)
  | vfsWrite (h : ι) (buf : List Byte) (fresh : Option (List Byte))
  | vfsClose (h : ι)

/-- The value a call returns, and the bytes a read copies to its caller. The `file_t` that `vfs_open`
returns is the handle `h`; its value is 0 here. -/
structure Reply where
  ret : U64
  out : List Byte
  deriving DecidableEq

/-- The `read` entries of the tables, for a file with the node `x`. -/
def ramReads (x : RamNode) : FsOps → Option (File Unit → Nat → Option (U64 × List Byte × File Unit))
  | .ramfs => some (ramfsRead x)
  | _ => none

/-- The `write` entries. -/
def ramWrites (x : RamNode) (fresh : Option (List Byte)) :
    FsOps → Option (File Unit → List Byte → Option (U64 × RamNode × File Unit))
  | .ramfs => some fun f buf => ramfsWrite x f buf fresh
  | _ => none

namespace RamFile

def setHandle (s : RamFile ι) (h : ι) (f : Option (File Unit)) : RamFile ι :=
  { s with handles := update s.handles h f }

def setNode (s : RamFile ι) (x : RamNode) : RamFile ι := { s with node := x }

theorem setHandle_self (s : RamFile ι) (h : ι) (f : Option (File Unit)) :
    (s.setHandle h f).handles h = f :=
  update_self ..

theorem setHandle_of_ne (s : RamFile ι) {h j : ι} (hj : j ≠ h) (f : Option (File Unit)) :
    (s.setHandle h f).handles j = s.handles j :=
  update_of_ne hj ..

/-- The state after a `vfs_open` that got its memory. -/
def opened (s : RamFile ι) (h : ι) (flags : BitVec 32) : RamFile ι :=
  let o := openFile () s.node.inode flags
  (s.setNode { s.node with inode := o.2 }).setHandle h (some o.1)

/-- One call. -/
def call (s : RamFile ι) : FileCall ι → Option (Reply × RamFile ι)
  | .vfsOpen h flags memory =>
    some (⟨0, []⟩, if memory then s.opened h flags else s)
  | .vfsRead h n =>
    match s.handles h with
    | none => some (⟨ebadf, []⟩, s)
    | some f => do
      let (ret, out, f) ← vfsRead (ramReads s.node) (some (ebadf, [], f)) f n
      return (⟨ret, out⟩, s.setHandle h (some f))
  | .vfsWrite h buf fresh =>
    match s.handles h with
    | none => some (⟨ebadf, []⟩, s)
    | some f => do
      let (ret, x, f) ← vfsWrite (ramWrites s.node fresh) (some (ebadf, s.node, f)) f buf
      return (⟨ret, []⟩, (s.setNode x).setHandle h (some f))
  | .vfsClose h =>
    match s.handles h with
    | none => some (⟨ebadf, []⟩, s)
    | some f => some (⟨0, []⟩, s.setHandle h (closeFile f))

/-- `vfs_open` makes a new handle, the others are used while they are open, positions stay below
`2 ^ 63`, and `kmalloc` returns blocks of the size asked for. -/
def Valid (s : RamFile ι) : FileCall ι → Prop
  | .vfsOpen h _ _ => s.handles h = none
  | .vfsRead h _ => ∃ f, s.handles h = some f
  | .vfsWrite h buf fresh => ∃ f, s.handles h = some f ∧ f.pos + buf.length < 2 ^ 63 ∧
      ∀ block ∈ fresh, f.pos + buf.length + 4096 ≤ block.length
  | .vfsClose h => ∃ f, s.handles h = some f

/-- The state after `ramfs_create`. -/
def created (name : Str) : RamFile ι := ⟨ramfsNode name .reg, fun _ => none⟩

/-- A run of calls that meet `P`. -/
def Reach (P : FileCall ι → Prop) : RamFile ι → RamFile ι → Prop :=
  Relation.ReflTransGen fun s s' => ∃ c r, P c ∧ s.Valid c ∧ s.call c = some (r, s')

end RamFile

/-- A call that does not open the file with `O_TRUNC`. -/
def FileCall.KeepsSize : FileCall ι → Prop
  | .vfsOpen _ flags _ => flags &&& oTrunc = 0
  | _ => True

/-! ## The reference -/

/-- A file as its users think of it: a sequence of bytes and a position for each handle. -/
structure RefFile (ι : Type) where
  content : List Byte
  pos : ι → Option Nat

def RefFile.setPos (r : RefFile ι) (h : ι) (p : Option Nat) : RefFile ι :=
  { r with pos := update r.pos h p }

/-- What the calls mean. A write may find no memory; it then returns `-ENOSPC`. -/
inductive RefStep (r : RefFile ι) : FileCall ι → Reply → RefFile ι → Prop
  | opened (h : ι) (flags : BitVec 32) :
    RefStep r (.vfsOpen h flags true) ⟨0, []⟩
      (r.setPos h (some (if flags &&& oAppend ≠ 0 then r.content.length else 0)))
  | notOpened (h : ι) (flags : BitVec 32) : RefStep r (.vfsOpen h flags false) ⟨0, []⟩ r
  | read {h : ι} {p : Nat} (hp : r.pos h = some p) (n : Nat) {out : List Byte}
    (hout : out = (r.content.drop p).take n) :
    RefStep r (.vfsRead h n) ⟨BitVec.ofNat 64 out.length, out⟩ (r.setPos h (some (p + out.length)))
  | write {h : ι} {p : Nat} (hp : r.pos h = some p) (buf : List Byte) (fresh : Option (List Byte)) :
    RefStep r (.vfsWrite h buf fresh) ⟨BitVec.ofNat 64 buf.length, []⟩
      ({ r with content := overwrite r.content p buf }.setPos h (some (p + buf.length)))
  | full (h : ι) (buf : List Byte) : RefStep r (.vfsWrite h buf none) ⟨enospc, []⟩ r
  | closed (h : ι) : RefStep r (.vfsClose h) ⟨0, []⟩ (r.setPos h none)

/-- The file that a state of the ramfs stands for. -/
def RamFile.ref (s : RamFile ι) : RefFile ι := ⟨s.node.content, Option.map File.pos ∘ s.handles⟩

theorem RamFile.ref_setHandle (s : RamFile ι) (h : ι) (f : Option (File Unit)) :
    (s.setHandle h f).ref = s.ref.setPos h (f.map File.pos) := by
  simp only [RamFile.ref, RamFile.setHandle, RefFile.setPos, Function.comp_update]

omit [DecidableEq ι] in
theorem RamFile.ref_pos {s : RamFile ι} {h : ι} {f : File Unit} (hf : s.handles h = some f) :
    s.ref.pos h = some f.pos := by
  simp [RamFile.ref, hf]

/-! ## The invariant -/

/-- The sizes of the inode and of the node agree. -/
structure RamFile.Synced (s : RamFile ι) : Prop where
  eq : s.node.inode.size = s.node.size

/-- What holds of the file in every run. The two sizes differ after an open with `O_TRUNC`. -/
structure FileInv (s : RamFile ι) : Prop where
  ok : s.node.Ok
  inodeSize_le : s.node.inode.size ≤ s.node.size
  pos_le : ∀ h f, s.handles h = some f → f.pos ≤ s.node.size
  ops : s.node.inode.ops = some .ramfs
  fileOps : ∀ h f, s.handles h = some f → f.ops = some .ramfs
  refcount : ∀ h f, s.handles h = some f → f.refcount = 1

omit [DecidableEq ι] in
theorem FileInv.created (name : Str) : FileInv (RamFile.created name : RamFile ι) where
  ok := ⟨Nat.le_refl 0, Nat.le_refl 0⟩
  inodeSize_le := Nat.le_refl 0
  pos_le _ _ h := nomatch h
  ops := rfl
  fileOps _ _ h := nomatch h
  refcount _ _ h := nomatch h

namespace FileInv

variable {s : RamFile ι} {i : ι} {f : File Unit}

theorem setHandle (h : FileInv s) (i : ι) {f : Option (File Unit)}
    (hf : ∀ g ∈ f, g.pos ≤ s.node.size ∧ g.ops = some .ramfs ∧ g.refcount = 1) :
    FileInv (s.setHandle i f) := by
  have hall : ∀ j g, (s.setHandle i f).handles j = some g →
      g.pos ≤ s.node.size ∧ g.ops = some .ramfs ∧ g.refcount = 1 := by
    intro j g hg
    by_cases hj : j = i
    · subst hj
      rw [RamFile.setHandle_self] at hg
      exact hf g hg
    · rw [RamFile.setHandle_of_ne s hj] at hg
      exact ⟨h.pos_le j g hg, h.fileOps j g hg, h.refcount j g hg⟩
  exact ⟨h.ok, h.inodeSize_le, fun j g hg => (hall j g hg).1, h.ops,
    fun j g hg => (hall j g hg).2.1, fun j g hg => (hall j g hg).2.2⟩

omit [DecidableEq ι] in
theorem stored (h : FileInv s) {pos : Nat} {buf : List Byte} {x : RamNode}
    (hx : Stored s.node pos buf x) : FileInv (s.setNode x) where
  ok := hx.ok
  inodeSize_le := by
    have hsize := hx.size
    have hinode := hx.inodeSize
    have := h.inodeSize_le
    show x.inode.size ≤ x.size
    split at hinode <;> omega
  pos_le j g hg := by
    have hsize := hx.size
    have := h.pos_le j g hg
    show g.pos ≤ x.size
    omega
  ops := hx.ops.trans h.ops
  fileOps := h.fileOps
  refcount := h.refcount

theorem opened (h : FileInv s) (i : ι) (flags : BitVec 32) : FileInv (s.opened i flags) := by
  have hsize : (openFile () s.node.inode flags).2.size ≤ s.node.size := by
    by_cases ht : flags &&& oTrunc = 0
    · rw [openFile_of_not_trunc _ _ ht]
      exact h.inodeSize_le
    · rw [openFile_of_trunc _ _ ht]
      exact Nat.zero_le _
  have hops : (openFile () s.node.inode flags).2.ops = some .ramfs := by
    by_cases ht : flags &&& oTrunc = 0
    · rw [openFile_of_not_trunc _ _ ht, h.ops]
    · rw [openFile_of_trunc _ _ ht, h.ops]
  have hnode : FileInv (s.setNode { s.node with inode := (openFile () s.node.inode flags).2 }) :=
    ⟨⟨h.ok.size_le, h.ok.capacity_le⟩, hsize, h.pos_le, hops, h.fileOps, h.refcount⟩
  refine hnode.setHandle i ?_
  rintro g ⟨⟩
  refine ⟨?_, (openFile_ops ..).trans h.ops, openFile_refcount ..⟩
  rw [openFile_pos]
  split
  · exact hsize
  · exact Nat.zero_le _

/-! What each call does in a state that meets the invariant. -/

theorem read (h : FileInv s) (hf : s.handles i = some f) (n : Nat) :
    let out := (s.node.content.drop f.pos).take n
    s.call (.vfsRead i n) = some (⟨BitVec.ofNat 64 out.length, out⟩,
      s.setHandle i (some { f with pos := f.pos + out.length })) := by
  intro out
  simp only [RamFile.call, hf]
  rw [vfsRead_of (r := ramfsRead s.node) (h.fileOps i f hf) rfl,
    ramfsRead_eq h.ok (h.pos_le i f hf) n]
  rfl

theorem write (h : FileInv s) (hf : s.handles i = some f) (buf : List Byte)
    (fresh : Option (List Byte)) (hlt : f.pos + buf.length < 2 ^ 63)
    (hfresh : ∀ block ∈ fresh, f.pos + buf.length + 4096 ≤ block.length) :
    (fresh = none ∧ s.call (.vfsWrite i buf fresh) = some (⟨enospc, []⟩, s)) ∨
    ∃ x, s.call (.vfsWrite i buf fresh) = some (⟨BitVec.ofNat 64 buf.length, []⟩,
        (s.setNode x).setHandle i (some { f with pos := f.pos + buf.length })) ∧
      Stored s.node f.pos buf x := by
  simp only [RamFile.call, hf]
  rw [vfsWrite_of (w := fun f buf => ramfsWrite s.node f buf fresh) (h.fileOps i f hf) rfl]
  rcases ramfsWrite_spec h.ok (h.pos_le i f hf) hlt hfresh with ⟨hnone, hw⟩ | ⟨x, hw, hst⟩
  · refine Or.inl ⟨hnone, ?_⟩
    have hsame : (s.setNode s.node).setHandle i (some f) = s := by
      simp only [RamFile.setNode, RamFile.setHandle, ← hf, update_eq_self]
    rw [hw]
    exact congrArg (fun s => some (Reply.mk enospc [], s)) hsame
  · refine Or.inr ⟨x, ?_, hst⟩
    rw [hw]
    rfl

theorem close (h : FileInv s) (hf : s.handles i = some f) :
    s.call (.vfsClose i) = some (⟨0, []⟩, s.setHandle i none) := by
  have hfree : closeFile f = none := by
    simp only [closeFile, h.refcount i f hf]
    rfl
  simp only [RamFile.call, hf, hfree]

/-- The step: every call returns, keeps the invariant, and as long as nobody truncates it does what
the reference does. -/
theorem call (h : FileInv s) {c : FileCall ι} (hv : s.Valid c) :
    ∃ r s', s.call c = some (r, s') ∧ FileInv s' ∧
      (c.KeepsSize → s.Synced → s'.Synced ∧ RefStep s.ref c r s'.ref) ∧
      (∀ i buf fresh, c = .vfsWrite i buf fresh → r.ret = enospc → s' = s) := by
  cases c with
  | vfsOpen i flags memory =>
    cases memory with
    | false =>
      refine ⟨_, s, rfl, h, fun _ hs => ⟨hs, .notOpened i flags⟩, ?_⟩
      rintro _ _ _ ⟨⟩
    | true =>
      refine ⟨_, s.opened i flags, rfl, h.opened i flags, fun hk hs => ?_, ?_⟩
      · have hpos := openFile_pos () s.node.inode flags
        rw [openFile_of_not_trunc _ _ hk, hs.eq, ← h.ok.length_content] at hpos
        rw [RamFile.opened, openFile_of_not_trunc _ _ hk, RamFile.ref_setHandle, Option.map_some, hpos]
        exact ⟨⟨hs.eq⟩, .opened i flags⟩
      · rintro _ _ _ ⟨⟩
  | vfsRead i n =>
    obtain ⟨f, hf⟩ := hv
    refine ⟨_, _, h.read hf n, h.setHandle i ?_, fun _ hs => ⟨⟨hs.eq⟩, ?_⟩, ?_⟩
    · rintro g ⟨⟩
      refine ⟨?_, h.fileOps i f hf, h.refcount i f hf⟩
      have := h.pos_le i f hf
      show f.pos + _ ≤ s.node.size
      rw [List.length_take, List.length_drop, h.ok.length_content]
      omega
    · rw [RamFile.ref_setHandle]
      exact .read (RamFile.ref_pos hf) n rfl
    · rintro _ _ _ ⟨⟩
  | vfsWrite i buf fresh =>
    obtain ⟨f, hf, hlt, hfresh⟩ := hv
    rcases h.write hf buf fresh hlt hfresh with ⟨rfl, hw⟩ | ⟨x, hw, hst⟩
    · exact ⟨_, s, hw, h, fun _ hs => ⟨hs, .full i buf⟩, fun _ _ _ _ _ => rfl⟩
    · have hsize := hst.size
      have hpos := h.pos_le i f hf
      refine ⟨_, _, hw, (h.stored hst).setHandle i ?_, fun _ hs => ⟨⟨?_⟩, ?_⟩, ?_⟩
      · rintro g ⟨⟩
        refine ⟨?_, h.fileOps i f hf, h.refcount i f hf⟩
        show f.pos + buf.length ≤ x.size
        omega
      · have hinode := hst.inodeSize
        have := hs.eq
        show x.inode.size = x.size
        split at hinode <;> omega
      · have hcontent : (s.setNode x).ref =
            { s.ref with content := overwrite s.ref.content f.pos buf } := by
          simp only [RamFile.ref, RamFile.setNode, hst.content]
        rw [RamFile.ref_setHandle, hcontent]
        exact .write (RamFile.ref_pos hf) buf fresh
      · -- the count is below `2 ^ 63`, so it is not an error
        intro _ _ _ _ hret
        exact absurd hret (ofNat_ne_enospc (by omega))
  | vfsClose i =>
    obtain ⟨f, hf⟩ := hv
    refine ⟨_, _, h.close hf, h.setHandle i (nofun), fun _ hs => ⟨⟨hs.eq⟩, ?_⟩, ?_⟩
    · rw [RamFile.ref_setHandle]
      exact .closed i
    · rintro _ _ _ ⟨⟩

theorem preserved (h : FileInv s) {c : FileCall ι} {r : Reply} {s' : RamFile ι} (hv : s.Valid c)
    (hc : s.call c = some (r, s')) : FileInv s' := by
  obtain ⟨r', t, hc', ht, -⟩ := h.call hv
  obtain ⟨-, rfl⟩ := Prod.mk.inj (Option.some_inj.mp (hc.symm.trans hc'))
  exact ht

theorem reach {P : FileCall ι → Prop} {s₀ s : RamFile ι} (h : FileInv s₀)
    (hr : RamFile.Reach P s₀ s) : FileInv s := by
  induction hr with
  | refl => exact h
  | tail _ hstep ih =>
    obtain ⟨c, r, -, hv, hc⟩ := hstep
    exact ih.preserved hv hc

theorem reach_synced {s₀ s : RamFile ι} (h : FileInv s₀) (hs : s₀.Synced)
    (hr : RamFile.Reach FileCall.KeepsSize s₀ s) : s.Synced := by
  induction hr with
  | refl => exact hs
  | tail hr hstep ih =>
    obtain ⟨c, r, hk, hv, hc⟩ := hstep
    obtain ⟨r', s', hc', -, hs', -⟩ := (h.reach hr).call hv
    obtain ⟨-, rfl⟩ := Prod.mk.inj (Option.some_inj.mp (hc.symm.trans hc'))
    exact (hs' hk ih).1

end FileInv

/-- **Files of the ramfs are byte sequences**: in every run without `O_TRUNC` the two sizes agree,
they are within the capacity and the capacity within the block, no handle is behind the end, and every
further call returns and does what the reference does. A write that fails changes nothing. -/
theorem ramfs_byte_sequence (name : Str) {s : RamFile ι}
    (hr : RamFile.Reach FileCall.KeepsSize (RamFile.created name) s) :
    (s.node.size = s.node.inode.size ∧ s.node.size ≤ s.node.capacity ∧
      s.node.capacity ≤ s.node.block.length ∧
      ∀ h f, s.handles h = some f → f.pos ≤ s.node.size) ∧
    ∀ c : FileCall ι, c.KeepsSize → s.Valid c →
      ∃ r s', s.call c = some (r, s') ∧ RefStep s.ref c r s'.ref ∧
        ∀ h buf fresh, c = .vfsWrite h buf fresh → r.ret = enospc → s' = s := by
  have hinv := (FileInv.created name).reach hr
  have hsync := (FileInv.created name).reach_synced ⟨rfl⟩ hr
  refine ⟨⟨hsync.eq.symm, hinv.ok.size_le, hinv.ok.capacity_le, hinv.pos_le⟩, ?_⟩
  intro c hk hv
  obtain ⟨r, s', hc, -, hstep, hfull⟩ := hinv.call hv
  exact ⟨r, s', hc, (hstep hk hsync).2, hfull⟩

/-- Such a run: `/etc/hostname` as `ramfs_mount` writes it. -/
theorem ramfs_byte_sequence_hostname : ∃ s : RamFile Unit,
    RamFile.Reach FileCall.KeepsSize (RamFile.created (str ['h', 'o', 's', 't'])) s ∧
    s.node.content = [115, 105, 110, 117, 120, 10] ∧ s.node.size = s.node.inode.size := by
  have hnew : FileInv (RamFile.created (str ['h', 'o', 's', 't']) : RamFile Unit) := .created _
  have hlong : ∀ block ∈ some (List.replicate 4102 (0 : Byte)), 0 + 6 + 4096 ≤ block.length := by
    rintro block ⟨⟩
    exact List.length_replicate.ge
  rcases (hnew.opened () 0).write (i := ()) rfl [115, 105, 110, 117, 120, 10]
    (some (List.replicate 4102 0)) (by decide) hlong with ⟨⟨⟩, -⟩ | ⟨x, hw, hst⟩
  have hopen : RamFile.Reach FileCall.KeepsSize (RamFile.created (str ['h', 'o', 's', 't']))
      ((RamFile.created (str ['h', 'o', 's', 't'])).opened () 0) :=
    .single ⟨.vfsOpen () 0 true, _, rfl, rfl, rfl⟩
  have hreach := hopen.tail ⟨.vfsWrite () _ _, _, trivial, ⟨_, rfl, by decide, hlong⟩, hw⟩
  exact ⟨_, hreach, hst.content, (ramfs_byte_sequence _ hreach).1.1⟩

end Sinux.Fs

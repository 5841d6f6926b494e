import Sinux.Fs.Ext2Mount

/-!
# Reading an ext2 file to its end

`ext2_read` reads the file of the inode that `ext2_read_inode` finds, which takes inodes for 128 bytes
long.

* `contents`: the bytes of the file of an inode, its blocks one after the other up to `i_size`.
* `ext2ReadFile`: one call of `ext2_read`, with the position of the file that is read.
* `Reads`: calls one after the other.
* `ReadsFile`: a call returns the bytes at the position, and the calls together the whole file.
* `ext2Read_contents_iff`: that is so for the file of an inode of a valid image exactly when what lies at
  128 times its index in the inode table is an inode of the same bytes.

**Out of scope**: failing reads of the drive, indirect blocks and holes.
-/

namespace Sinux.Fs

open Sinux.Lib.Buffer

/-! ## The file -/

/-- The blocks that hold `i_size` bytes. -/
def Ext2Fs.fileBlocks (fs : Ext2Fs) (inode : Ext2Inode) : Nat :=
  (inode.size + fs.blockSize - 1) / fs.blockSize

/-- The bytes of a block of the image. -/
def Ext2Fs.blockBytes (fs : Ext2Fs) (disk : Disk) (block : Nat) : List Byte :=
  (List.range fs.blockSize).map fun i => disk (fs.lbaStart * 512 + block * fs.blockSize + i)

/-- The bytes of a file. -/
def contents (fs : Ext2Fs) (disk : Disk) (inode : Ext2Inode) : List Byte :=
  ((List.range (fs.fileBlocks inode)).flatMap fun b => fs.blockBytes disk (inode.block b)).take
    inode.size

/-- The file has direct blocks only, all of them allocated, and they are on the drive, which has at most
`2 ^ 28` sectors. -/
structure Direct (fs : Ext2Fs) (inode : Ext2Inode) : Prop where
  le : fs.fileBlocks inode ≤ 12
  allocated : ∀ b < fs.fileBlocks inode, inode.block b ≠ 0
  onDrive : ∀ b < fs.fileBlocks inode, fs.lbaStart + (inode.block b + 1) * fs.sectors ≤ 2 ^ 28

/-- `ext2_read` of an open file: the bytes copied, whose number is returned, and `f->pos`. -/
def ext2ReadFile (fs : Ext2Fs) (disk : Disk) (ino pos n : Nat) : List Byte × Nat :=
  let dst := ext2Read fs disk ino pos n
  (dst, (pos + dst.length) % 2 ^ 64)

/-- Calls of any sizes from position 0 on: the bytes they copied and `f->pos`. -/
inductive Reads (fs : Ext2Fs) (disk : Disk) (ino : Nat) : List Byte → Nat → Prop
  | start : Reads fs disk ino [] 0
  | read {dst : List Byte} {pos n : Nat} : Reads fs disk ino dst pos → pos + n < 2 ^ 64 →
      Reads fs disk ino (dst ++ (ext2ReadFile fs disk ino pos n).1) (ext2ReadFile fs disk ino pos n).2

/-- The calls return these bytes: one call those at the position, and calls of any sizes, up to the
first that asks for something and gets nothing, all of them. -/
structure ReadsFile (fs : Ext2Fs) (disk : Disk) (ino : Nat) (c : List Byte) : Prop where
  read : ∀ pos n, pos + n < 2 ^ 64 →
    ext2ReadFile fs disk ino pos n = ((c.drop pos).take n, pos + min n (c.length - pos))
  whole : ∀ dst pos, Reads fs disk ino dst pos → ∀ n, 0 < n → pos + n < 2 ^ 64 →
    (ext2ReadFile fs disk ino pos n).1 = [] → dst = c

/-! ## What a read returns -/

section

variable {fs : Ext2Fs} {disk : Disk} {inode : Ext2Inode}

theorem le_fileBlocks (hv : fs.SizeOk) (inode : Ext2Inode) :
    inode.size ≤ fs.fileBlocks inode * fs.blockSize := by
  have hpos := hv.pos
  have hmod := Nat.mod_lt (inode.size + fs.blockSize - 1) hpos
  have hdiv := Nat.div_add_mod (inode.size + fs.blockSize - 1) fs.blockSize
  rw [Ext2Fs.fileBlocks, Nat.mul_comm]
  omega

theorem contents_eq (hv : fs.SizeOk) (disk : Disk) (inode : Ext2Inode) :
    contents fs disk inode = (List.range inode.size).map fun p =>
      disk (fs.lbaStart * 512 + inode.block (p / fs.blockSize) * fs.blockSize + p % fs.blockSize) := by
  unfold contents Ext2Fs.blockBytes
  rw [flatMap_range_map hv.pos _ fun b i => disk (fs.lbaStart * 512 + inode.block b * fs.blockSize + i),
    ← List.map_take, List.take_range, Nat.min_eq_left (le_fileBlocks hv inode)]

theorem length_contents (hv : fs.SizeOk) (disk : Disk) (inode : Ext2Inode) :
    (contents fs disk inode).length = inode.size := by
  rw [contents_eq hv, List.length_map, List.length_range]

theorem Direct.base_eq (hv : fs.SizeOk) (hf : Direct fs inode) {b : Nat} (hb : b < fs.fileBlocks inode) :
    fs.base (inode.block b) = fs.lbaStart * 512 + inode.block b * fs.blockSize := by
  have hon := hf.onDrive b hb
  rw [Nat.succ_mul] at hon
  rw [Ext2Fs.base, Ext2Fs.blockLba, Nat.mod_eq_of_lt (by omega), Nat.add_mul, Nat.mul_assoc,
    hv.sectors.2]

theorem Direct.fileByte (hv : fs.SizeOk) (hf : Direct fs inode) (p : Nat) :
    fileByte fs disk inode p = (contents fs disk inode)[p]? := by
  rw [contents_eq hv]
  by_cases hp : p < inode.size
  · have hb : p / fs.blockSize < fs.fileBlocks inode :=
      Nat.div_lt_of_lt_mul (Nat.mul_comm _ _ ▸ lt_of_lt_of_le hp (le_fileBlocks hv inode))
    have hthere : p < inode.size ∧ p / fs.blockSize < 12 ∧ inode.block (p / fs.blockSize) ≠ 0 :=
      ⟨hp, lt_of_lt_of_le hb hf.le, hf.allocated _ hb⟩
    rw [Fs.fileByte, if_pos hthere, hf.base_eq hv hb]
    simp [hp]
  · rw [Fs.fileByte, if_neg fun h => hp h.1]
    simp [Nat.not_lt.mp hp]

variable {ino : Nat} {l : List Byte}

theorem ext2ReadFile_eq (hv : fs.SizeOk)
    (h : ∀ p, fileByte fs disk (ext2ReadInode fs disk ino) p = l[p]?) {pos n : Nat}
    (hlt : pos + n < 2 ^ 64) :
    ext2ReadFile fs disk ino pos n = ((l.drop pos).take n, pos + min n (l.length - pos)) := by
  rw [ext2ReadFile, ext2Read_eq hv hlt, collect_getElem? h, List.length_take, List.length_drop,
    Nat.mod_eq_of_lt (by omega)]

theorem Reads.eq_take (hv : fs.SizeOk)
    (h : ∀ p, fileByte fs disk (ext2ReadInode fs disk ino) p = l[p]?) {dst : List Byte} {pos : Nat}
    (hr : Reads fs disk ino dst pos) : dst = l.take pos ∧ pos ≤ l.length := by
  induction hr with
  | start => exact ⟨rfl, Nat.zero_le _⟩
  | @read dst pos n _ hlt ih =>
    obtain ⟨rfl, hle⟩ := ih
    rw [ext2ReadFile_eq hv h hlt]
    refine ⟨?_, by dsimp only; omega⟩
    rw [List.take_add, ← List.length_drop, ← List.take_eq_take_min]

/-- The calls return the bytes that are in the blocks of the inode they find. -/
theorem readsFile_iff (hv : fs.SizeOk) (hc : l.length < 2 ^ 32) :
    ReadsFile fs disk ino l ↔ ∀ p, fileByte fs disk (ext2ReadInode fs disk ino) p = l[p]? := by
  constructor
  · intro h p
    by_cases hp : p < 2 ^ 32
    · have hone := congrArg (·.1.head?) (h.read p 1 (by omega))
      rw [ext2ReadFile, ext2Read_eq hv (by omega)] at hone
      dsimp only at hone
      rw [head?_collect_one, List.head?_take, if_neg Nat.one_ne_zero, List.head?_drop] at hone
      exact hone
    · have hsize := ext2ReadInode_size_lt fs disk ino
      rw [Fs.fileByte, if_neg (by omega), List.getElem?_eq_none (by omega)]
  · intro h
    refine ⟨fun pos n hlt => ext2ReadFile_eq hv h hlt, fun dst pos hr n hn hlt hnil => ?_⟩
    obtain ⟨rfl, -⟩ := hr.eq_take hv h
    rw [ext2ReadFile_eq hv h hlt, List.take_eq_nil_iff, List.drop_eq_nil_iff] at hnil
    exact List.take_of_length_le (hnil.resolve_left (Nat.ne_of_gt hn))

end

/-- The inode that the format has for the number. -/
def Geometry.inode (g : Geometry) (disk : Disk) (lbaStart ino : Nat) : Ext2Inode :=
  inodeAt disk (g.inodeAddr disk lbaStart ino)

/-- What lies at 128 times the index of the inode in its table, as an inode. -/
def Geometry.narrowInode (g : Geometry) (disk : Disk) (lbaStart ino : Nat) : Ext2Inode :=
  { g with inodeSize := 128 }.inode disk lbaStart ino

/-- **`ext2_read` returns the file's bytes**, for a file of at most twelve blocks, all of them allocated,
in a valid image, exactly when what lies at 128 times the index of its inode is an inode of the same
bytes. It is that inode if inodes have 128 bytes or it is the first of its group. -/
theorem ext2Read_contents_iff {disk : Disk} {lbaStart : Nat} {g : Geometry}
    (h : ValidImage disk lbaStart g) {fs : Ext2Fs} (hfs : ext2Mount disk lbaStart = some fs) {ino : Nat}
    (h1 : 1 ≤ ino) (hle : ino ≤ g.inodesCount) (hf : Direct fs (g.inode disk lbaStart ino)) :
    (ReadsFile fs disk ino (contents fs disk (g.inode disk lbaStart ino)) ↔
      ∀ p, fileByte fs disk (g.narrowInode disk lbaStart ino) p =
        fileByte fs disk (g.inode disk lbaStart ino) p) ∧
    (g.inodeSize = 128 ∨ (ino - 1) % g.inodesPerGroup = 0 →
      g.narrowInode disk lbaStart ino = g.inode disk lbaStart ino) := by
  have hv : fs.SizeOk := by
    obtain rfl := Option.some.inj (h.mount.symm.trans hfs)
    exact h.sizeOk
  have hread : ext2ReadInode fs disk ino = g.narrowInode disk lbaStart ino := by
    rw [ext2ReadInode_eq, h.inodePos_eq hfs h1 hle]
    rfl
  constructor
  · rw [readsFile_iff hv (by rw [length_contents hv]; exact u32_lt _ _), hread]
    exact forall_congr' fun p => by rw [hf.fileByte hv]
  · intro hcase
    unfold Geometry.narrowInode Geometry.inode Geometry.inodeAddr
    rcases hcase with hsize | hfirst
    · rw [hsize]
      rfl
    · simp only [Geometry.descAddr, hfirst, Nat.zero_mul]

/-- The file `a` of the image of revision 0. -/
theorem ext2Read_contents_card : ∃ fs, ext2Mount (card 0) 0 = some fs ∧
    ReadsFile fs (card 0) 2 [0x61] := by
  have hv := card_valid (Or.inl rfl : (0 : Byte) = 0 ∨ (0 : Byte) = 1)
  refine ⟨_, hv.mount, ?_⟩
  obtain ⟨hiff, hsame⟩ := ext2Read_contents_iff hv hv.mount (by decide : 1 ≤ 2) (by decide +kernel)
    ⟨by decide +kernel, by decide +kernel, by decide +kernel⟩
  have hall := hiff.mpr fun p => by rw [hsame (Or.inl (by decide +kernel))]
  rwa [show contents _ _ _ = [0x61] by decide +kernel] at hall

/-- **The wrong file**: with inodes of 256 bytes inode 2 is the file `bc`, and `ext2_read` returns `a`. -/
theorem ext2Read_wrong_file : ValidImage (card 1) 0 (geometry (card 1) 0) ∧
    ∃ fs, ext2Mount (card 1) 0 = some fs ∧
      Direct fs ((geometry (card 1) 0).inode (card 1) 0 2) ∧
      contents fs (card 1) ((geometry (card 1) 0).inode (card 1) 0 2) = [0x62, 0x63] ∧
      ext2ReadFile fs (card 1) 2 0 2 = ([0x61], 1) := by
  have hv := card_valid (Or.inr rfl : (1 : Byte) = 0 ∨ (1 : Byte) = 1)
  exact ⟨hv, _, hv.mount, ⟨by decide +kernel, by decide +kernel, by decide +kernel⟩, by decide +kernel,
    by decide +kernel⟩

end Sinux.Fs

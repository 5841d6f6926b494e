import Sinux.Fs.Ext2
import Mathlib.Algebra.Order.Ring.Nat

/-!
# The geometry of an ext2 image (`ext2_mount`, `ext2_read_inode`)

`ext2_mount` takes three fields from the superblock and assumes inodes of 128 bytes.

* `ext2Mount`, `ext2InodeBytes`: the superblock and the 128 bytes of an inode, as the code reads them.
* `Geometry`, `ValidImage`: the superblock and the place of an inode, as the format has them.
* `ext2_inode_addr_iff`: the two places are one for inodes of 128 bytes, and for the first of a group.
-/

namespace Sinux.Fs

/-! ## The code -/

/-- The numbers that `ext2_mount` puts into `fs`, whatever they are. -/
def ext2FsOf (disk : Disk) (lbaStart : Nat) : Ext2Fs :=
  let sb := ataRead disk ((lbaStart + 2) % 2 ^ 32) 2
  ⟨lbaStart, 1024 * 2 ^ u32 sb 24 % 2 ^ 32, u32 sb 40, u32 sb 20⟩

/-- `ext2_mount`, when there is memory; `none` for the value -1. -/
def ext2Mount (disk : Disk) (lbaStart : Nat) : Option Ext2Fs :=
  if u16 (ataRead disk ((lbaStart + 2) % 2 ^ 32) 2) 56 = 0xEF53 then some (ext2FsOf disk lbaStart)
  else none

/-- The offset of an inode in its sector. -/
def Ext2Fs.inodeOff (fs : Ext2Fs) (ino : Nat) : Nat :=
  (ino - 1) % fs.inodesPerGroup * 128 % 2 ^ 32 % 512

/-- The bytes that `ext2_read_inode` copies to its caller. -/
def ext2InodeBytes (fs : Ext2Fs) (disk : Disk) (ino : Nat) : List Byte :=
  (List.range 128).map fun i => ataRead disk (fs.inodeLba disk ino) 1 (fs.inodeOff ino + i)

/-- Where they are on the disk. -/
def Ext2Fs.inodePos (fs : Ext2Fs) (disk : Disk) (ino : Nat) : Nat :=
  fs.inodeLba disk ino * 512 + fs.inodeOff ino

theorem ext2InodeBytes_eq (fs : Ext2Fs) (disk : Disk) (ino : Nat) : ext2InodeBytes fs disk ino =
    (List.range 128).map fun i => disk (fs.inodePos disk ino + i) := by
  refine List.map_congr_left fun i hi => ?_
  have hi := List.mem_range.mp hi
  have hoff : fs.inodeOff ino + 128 ≤ 512 := by
    unfold Ext2Fs.inodeOff
    omega
  rw [ataRead, if_pos (by omega), Ext2Fs.inodePos, Nat.add_assoc]

/-! ## The format -/

/-- The superblock. `inodeSize` is 128 in revision 0. -/
structure Geometry where
  inodesCount : Nat
  blocksCount : Nat
  firstDataBlock : Nat
  blockSize : Nat
  inodesPerGroup : Nat
  inodeSize : Nat

/-- The superblock of the image that starts at sector `lbaStart`, 1024 bytes behind its start. -/
def geometry (disk : Disk) (lbaStart : Nat) : Geometry :=
  let sb := lbaStart * 512 + 1024
  { inodesCount := u32 disk sb
    blocksCount := u32 disk (sb + 4)
    firstDataBlock := u32 disk (sb + 20)
    blockSize := 1024 * 2 ^ u32 disk (sb + 24)
    inodesPerGroup := u32 disk (sb + 40)
    inodeSize := if u32 disk (sb + 76) = 0 then 128 else u16 disk (sb + 88) }

namespace Geometry

variable (g : Geometry)

/-- The descriptor of the group of an inode. -/
def descAddr (lbaStart ino : Nat) : Nat :=
  lbaStart * 512 + (g.firstDataBlock + 1) * g.blockSize + (ino - 1) / g.inodesPerGroup * 32

/-- The inode: its entry in the inode table of its group. -/
def inodeAddr (disk : Disk) (lbaStart ino : Nat) : Nat :=
  lbaStart * 512 + u32 disk (g.descAddr lbaStart ino + 8) * g.blockSize +
    (ino - 1) % g.inodesPerGroup * g.inodeSize

end Geometry

/-- The inode at an address. -/
def inodeAt (disk : Disk) (a : Nat) : Ext2Inode :=
  ⟨u16 disk a, u32 disk (a + 4), fun b => if b < 15 then u32 disk (a + 40 + 4 * b) else 0⟩

/-- A valid image of revision 0 or 1, with blocks of 1024 to 4096 bytes. -/
structure ValidImage (disk : Disk) (lbaStart : Nat) (g : Geometry) : Prop where
  superblock : g = geometry disk lbaStart
  magic : u16 disk (lbaStart * 512 + 1024 + 56) = 0xEF53
  revision : u32 disk (lbaStart * 512 + 1024 + 76) ≤ 1
  blockSize : g.blockSize ≤ 4096
  firstDataBlock : g.firstDataBlock = if g.blockSize = 1024 then 1 else 0
  /-- The bitmap of the inodes of a group is one block. -/
  perGroup : 0 < g.inodesPerGroup ∧ g.inodesPerGroup ≤ 8 * g.blockSize
  inodeSize : (∃ k, g.inodeSize = 2 ^ k) ∧ 128 ≤ g.inodeSize ∧ g.inodeSize ≤ g.blockSize
  /-- The image is on the drive, which has at most `2 ^ 28` sectors. -/
  onDrive : lbaStart * 512 + g.blocksCount * g.blockSize ≤ 2 ^ 28 * 512
  /-- The descriptors and the inode tables are in the image. -/
  desc : ∀ ino, 1 ≤ ino → ino ≤ g.inodesCount →
    g.descAddr lbaStart ino + 32 ≤ lbaStart * 512 + g.blocksCount * g.blockSize
  table : ∀ ino, 1 ≤ ino → ino ≤ g.inodesCount →
    g.inodeAddr disk lbaStart ino + g.inodeSize ≤ lbaStart * 512 + g.blocksCount * g.blockSize

/-! ## The two places -/

section

variable {disk : Disk} {lbaStart : Nat} {g : Geometry}

theorem u16_ataRead {lba count a : Nat} (h : a + 2 ≤ count * 512) :
    u16 (ataRead disk lba count) a = u16 disk (lba * 512 + a) := by
  unfold u16 ataRead
  rw [if_pos (by omega), if_pos (by omega), Nat.add_assoc]

theorem u32_ataRead {lba count a : Nat} (h : a + 4 ≤ count * 512) :
    u32 (ataRead disk lba count) a = u32 disk (lba * 512 + a) := by
  rw [u32, u32, u16_ataRead (by omega), u16_ataRead (by omega), Nat.add_assoc]

theorem ext2ReadInode_eq (fs : Ext2Fs) (disk : Disk) (ino : Nat) :
    ext2ReadInode fs disk ino = inodeAt disk (fs.inodePos disk ino) := by
  have hoff : fs.inodeOff ino + 128 ≤ 512 := by
    unfold Ext2Fs.inodeOff
    omega
  unfold ext2ReadInode inodeAt Ext2Fs.inodePos
  dsimp only
  rw [← Ext2Fs.inodeOff, u16_ataRead (by omega), u32_ataRead (by omega), Nat.add_assoc]
  refine congrArg (Ext2Inode.mk _ _) (funext fun b => ?_)
  split
  · rw [u32_ataRead (by omega), Nat.add_assoc, Nat.add_assoc, Nat.add_assoc]
  · rfl

theorem sector_split (lba a : Nat) : (lba + a / 512) * 512 + a % 512 = lba * 512 + a := by
  omega

namespace ValidImage

theorem fs_eq (h : ValidImage disk lbaStart g) : ext2FsOf disk lbaStart =
    ⟨lbaStart, g.blockSize, g.inodesPerGroup, g.firstDataBlock⟩ := by
  obtain ⟨rfl, -, -, hsize, -, -, -, hdrive, -, -⟩ := h
  have hlba : (lbaStart + 2) % 2 ^ 32 * 512 = lbaStart * 512 + 1024 := by omega
  simp only [geometry] at hsize
  have hsb (a : Nat) (ha : a + 4 ≤ 1024) :
      u32 (ataRead disk ((lbaStart + 2) % 2 ^ 32) 2) a = u32 disk (lbaStart * 512 + 1024 + a) := by
    rw [u32_ataRead ha, hlba]
  simp only [ext2FsOf, hsb 24 (by decide), hsb 40 (by decide), hsb 20 (by decide), geometry]
  rw [Nat.mod_eq_of_lt (by omega)]

theorem mount (h : ValidImage disk lbaStart g) : ext2Mount disk lbaStart =
    some ⟨lbaStart, g.blockSize, g.inodesPerGroup, g.firstDataBlock⟩ := by
  have hdrive := h.onDrive
  have hlba : (lbaStart + 2) % 2 ^ 32 * 512 + 56 = lbaStart * 512 + 1024 + 56 := by omega
  rw [ext2Mount, u16_ataRead (by decide), hlba, if_pos h.magic, h.fs_eq]

theorem sizeOk (h : ValidImage disk lbaStart g) :
    g.blockSize = 1024 ∨ g.blockSize = 2048 ∨ g.blockSize = 4096 := by
  obtain ⟨rfl, -, -, hsize, -⟩ := h
  simp only [geometry] at hsize ⊢
  have hk : u32 disk (lbaStart * 512 + 1024 + 24) < 3 := by
    refine (Nat.pow_lt_pow_iff_right (by decide : 1 < 2)).mp ?_
    omega
  generalize u32 disk (lbaStart * 512 + 1024 + 24) = k at hk
  revert k
  decide

theorem sectors (h : ValidImage disk lbaStart g) : g.blockSize / 512 * 512 = g.blockSize := by
  obtain ⟨rfl, -, -, hsize, -, -, -, -, -, -⟩ := h
  simp only [geometry]
  omega

variable {fs : Ext2Fs}

theorem inodeTable_eq (h : ValidImage disk lbaStart g) (hfs : ext2Mount disk lbaStart = some fs)
    {ino : Nat} (h1 : 1 ≤ ino) (hle : ino ≤ g.inodesCount) :
    fs.inodeTable disk ino = u32 disk (g.descAddr lbaStart ino + 8) := by
  obtain rfl := Option.some.inj (h.mount.symm.trans hfs)
  have hsec := h.sectors
  have hdrive := h.onDrive
  have hin := h.desc ino h1 hle
  unfold Geometry.descAddr at hin ⊢
  generalize hd : (ino - 1) / g.inodesPerGroup * 32 = d at *
  have hd32 : d % 32 = 0 := hd ▸ Nat.mul_mod_left _ _
  have hmul : (g.firstDataBlock + 1) * (g.blockSize / 512) * 512 =
      (g.firstDataBlock + 1) * g.blockSize := by rw [Nat.mul_assoc, hsec]
  unfold Ext2Fs.inodeTable Ext2Fs.bgdLba Ext2Fs.sectors
  dsimp only
  rw [hd, u32_ataRead (by omega), Nat.mod_eq_of_lt (by omega), ← Nat.add_assoc, sector_split,
    Nat.add_mul, hmul]

theorem inodePos_eq (h : ValidImage disk lbaStart g) (hfs : ext2Mount disk lbaStart = some fs)
    {ino : Nat} (h1 : 1 ≤ ino) (hle : ino ≤ g.inodesCount) :
    fs.inodePos disk ino = lbaStart * 512 + u32 disk (g.descAddr lbaStart ino + 8) * g.blockSize +
      (ino - 1) % g.inodesPerGroup * 128 := by
  have htable := h.inodeTable_eq hfs h1 hle
  obtain rfl := Option.some.inj (h.mount.symm.trans hfs)
  have hsec := h.sectors
  have hdrive := h.onDrive
  have hin := h.table ino h1 hle
  unfold Geometry.inodeAddr at hin
  unfold Ext2Fs.inodePos Ext2Fs.inodeLba Ext2Fs.inodeOff Ext2Fs.sectors
  rw [htable]
  dsimp only
  generalize u32 disk (g.descAddr lbaStart ino + 8) = t at *
  have hidx : (ino - 1) % g.inodesPerGroup * 128 ≤ (ino - 1) % g.inodesPerGroup * g.inodeSize :=
    Nat.mul_le_mul_left _ h.inodeSize.2.1
  have hper : (ino - 1) % g.inodesPerGroup < 8 * 4096 :=
    lt_of_lt_of_le (Nat.mod_lt _ h.perGroup.1)
      (h.perGroup.2.trans (Nat.mul_le_mul_left 8 h.blockSize))
  generalize (ino - 1) % g.inodesPerGroup = k at *
  have hmul : t * (g.blockSize / 512) * 512 = t * g.blockSize := by rw [Nat.mul_assoc, hsec]
  rw [Nat.mod_eq_of_lt (a := k * 128) (by omega), Nat.mod_eq_of_lt (by omega), sector_split, Nat.add_mul,
    hmul]

end ValidImage

end

/-- **`ext2_read_inode` finds an inode** where the format places it if inodes have 128 bytes or it is the
first of its group, and reads at another place otherwise. -/
theorem ext2_inode_addr_iff {disk : Disk} {lbaStart : Nat} {g : Geometry}
    (h : ValidImage disk lbaStart g) {fs : Ext2Fs} (hfs : ext2Mount disk lbaStart = some fs) {ino : Nat}
    (h1 : 1 ≤ ino) (hle : ino ≤ g.inodesCount) :
    (g.inodeSize = 128 ∨ (ino - 1) % g.inodesPerGroup = 0 ↔
      fs.inodePos disk ino = g.inodeAddr disk lbaStart ino) ∧
    (g.inodeSize = 128 ∨ (ino - 1) % g.inodesPerGroup = 0 → ext2InodeBytes fs disk ino =
      (List.range 128).map fun i => disk (g.inodeAddr disk lbaStart ino + i)) := by
  have hiff : g.inodeSize = 128 ∨ (ino - 1) % g.inodesPerGroup = 0 ↔
      fs.inodePos disk ino = g.inodeAddr disk lbaStart ino := by
    rw [h.inodePos_eq hfs h1 hle, Geometry.inodeAddr, Nat.add_left_cancel_iff, mul_eq_mul_left_iff]
    exact or_congr_left eq_comm
  refine ⟨hiff, fun hw => ?_⟩
  rw [ext2InodeBytes_eq, hiff.mp hw]

/-! ## An image -/

/-- An image of 64 blocks and one group, of the given revision; the superblock has inodes of 256 bytes,
which revision 0 does not look at. The inode table is block 5. As an inode of 128 bytes inode 2 is the
file `a`, as one of 256 bytes the file `bc`. -/
def card (rev : Byte) : Disk := fun a =>
  ([(1024, 8), (1028, 64), (1044, 1), (1064, 8), (1080, 0x53), (1081, 0xEF), (1100, rev), (1113, 1),
    (2056, 5), (5248, 0xA4), (5249, 0x81), (5252, 1), (5288, 20), (5376, 0xED), (5377, 0x41), (5380, 2),
    (5416, 21), (20480, 0x61), (21504, 0x62), (21505, 0x63)].lookup a).getD 0

theorem card_valid {rev : Byte} (h : rev = 0 ∨ rev = 1) :
    ValidImage (card rev) 0 (geometry (card rev) 0) := by
  have hsize : ∃ k, (geometry (card rev) 0).inodeSize = 2 ^ k := by
    rcases h with rfl | rfl
    · exact ⟨7, by decide +kernel⟩
    · exact ⟨8, by decide +kernel⟩
  have hin : ∀ ino < 9, (geometry (card rev) 0).descAddr 0 ino + 32 ≤ 65536 ∧
      (geometry (card rev) 0).inodeAddr (card rev) 0 ino + (geometry (card rev) 0).inodeSize ≤ 65536 := by
    rcases h with rfl | rfl <;> decide +kernel
  have hcount : (geometry (card rev) 0).inodesCount = 8 ∧
      0 * 512 + (geometry (card rev) 0).blocksCount * (geometry (card rev) 0).blockSize = 65536 := by
    rcases h with rfl | rfl <;> decide +kernel
  refine ⟨rfl, ?_, ?_, ?_, ?_, ?_, ⟨hsize, ?_⟩, ?_, fun ino _ hle => ?_, fun ino _ hle => ?_⟩
  iterate 7 rcases h with rfl | rfl <;> decide +kernel
  · rw [hcount.2]
    exact (hin ino (by omega)).1
  · rw [hcount.2]
    exact (hin ino (by omega)).2

/-- The root of an image of revision 0. -/
theorem ext2_inode_addr_card : ∃ fs, ext2Mount (card 0) 0 = some fs ∧
    ext2InodeBytes fs (card 0) 2 = (List.range 128).map fun i => card 0 (5248 + i) := by
  have hv := card_valid (Or.inl rfl : (0 : Byte) = 0 ∨ (0 : Byte) = 1)
  have haddr : (geometry (card 0) 0).inodeAddr (card 0) 0 2 = 5248 := by decide +kernel
  refine ⟨_, hv.mount, ?_⟩
  rw [(ext2_inode_addr_iff hv hv.mount (by decide : 1 ≤ 2) (by decide +kernel)).2
    (Or.inl (by decide +kernel)), haddr]

/-- Inodes of 256 bytes: the root is at 5376, and the code reads the second half of inode 1. -/
theorem ext2_inode_size_256 : ValidImage (card 1) 0 (geometry (card 1) 0) ∧
    ∃ fs, ext2Mount (card 1) 0 = some fs ∧ (geometry (card 1) 0).inodeAddr (card 1) 0 2 = 5376 ∧
      fs.inodePos (card 1) 2 = 5248 ∧
      ext2InodeBytes fs (card 1) 2 ≠ (List.range 128).map fun i => card 1 (5376 + i) := by
  have hv := card_valid (Or.inr rfl : (1 : Byte) = 0 ∨ (1 : Byte) = 1)
  exact ⟨hv, _, hv.mount, by decide +kernel, by decide +kernel, by decide +kernel⟩

end Sinux.Fs

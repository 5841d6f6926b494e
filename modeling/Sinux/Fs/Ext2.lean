import Sinux.Fs.Inode
import Sinux.Lib.Buffer
import Mathlib.Logic.Function.Basic
import Mathlib.Order.Basic

/-!
# The ext2 file system (`kernel/fs/ext2.c`)

The disk is an array of bytes, `ata_read` and `ata_write` copy whole sectors of it and succeed. Numbers
that the code keeps in 32 or 64 bits are cut where they can grow beyond.

`ext2_read` and `ext2_write` begin with the inode on the disk. `ext2_write` puts the blocks it takes for
holes, and the new size, into its own copy and into the inode in memory; it does not write the inode
back. Its blocks for holes are numbers of pages of memory.

The loops of both run with fuel. Each round goes to the next block and block 12 ends the loop, so 13
rounds are enough (`ext2Read_eq`, `ext2WriteLoop_fuel`).
-/

namespace Sinux.Fs

open Sinux.Lib Sinux.Lib.Buffer

/-! ## The disk -/

/-- The bytes of the disk. -/
abbrev Disk := Nat → Byte

/-- A buffer: the bytes behind its address. -/
abbrev Buf := Nat → Byte

/-- `ata_read`: the bytes of `count` sectors. -/
def ataRead (disk : Disk) (lba count : Nat) : Buf :=
  fun i => if i < count * 512 then disk (lba * 512 + i) else 0

/-- `ata_write`. -/
def ataWrite (disk : Disk) (lba count : Nat) (buf : Buf) : Disk :=
  fun a => if lba * 512 ≤ a ∧ a < (lba + count) * 512 then buf (a - lba * 512) else disk a

/-- A `uint16_t` in a buffer. -/
def u16 (buf : Buf) (a : Nat) : Nat := (buf a).toNat + (buf (a + 1)).toNat * 2 ^ 8

/-- A `uint32_t` in a buffer. -/
def u32 (buf : Buf) (a : Nat) : Nat := u16 buf a + u16 buf (a + 2) * 2 ^ 16

/-! ## Blocks and inodes -/

/-- `ext2_fs_t`. `inode_size` is 128. -/
structure Ext2Fs where
  lbaStart : Nat
  blockSize : Nat
  inodesPerGroup : Nat
  firstDataBlock : Nat

/-- `ext2_inode_t`, the fields that are read. -/
structure Ext2Inode where
  mode : Nat
  size : Nat
  block : Nat → Nat

namespace Ext2Fs

/-- `sectors_per_block`. -/
def sectors (fs : Ext2Fs) : Nat := fs.blockSize / 512

/-- The `lba` of a block. -/
def blockLba (fs : Ext2Fs) (block : Nat) : Nat := (fs.lbaStart + block * fs.sectors) % 2 ^ 32

/-- `bgd_lba`. -/
def bgdLba (fs : Ext2Fs) (ino : Nat) : Nat :=
  (fs.lbaStart + (fs.firstDataBlock + 1) * fs.sectors + (ino - 1) / fs.inodesPerGroup * 32 / 512) %
    2 ^ 32

/-- `bgd.bg_inode_table`. -/
def inodeTable (fs : Ext2Fs) (disk : Disk) (ino : Nat) : Nat :=
  u32 (ataRead disk (fs.bgdLba ino) 1) ((ino - 1) / fs.inodesPerGroup * 32 % 512 + 8)

/-- `inode_lba`. -/
def inodeLba (fs : Ext2Fs) (disk : Disk) (ino : Nat) : Nat :=
  (fs.lbaStart + fs.inodeTable disk ino * fs.sectors +
    (ino - 1) % fs.inodesPerGroup * 128 % 2 ^ 32 / 512) % 2 ^ 32

end Ext2Fs

/-- `ext2_read_block`, into `block_buf`. -/
def ext2ReadBlock (fs : Ext2Fs) (disk : Disk) (block : Nat) : Buf :=
  ataRead disk (fs.blockLba block) (fs.sectors % 2 ^ 8)

/-- `ext2_read_inode`. -/
def ext2ReadInode (fs : Ext2Fs) (disk : Disk) (ino : Nat) : Ext2Inode :=
  let ibuf := ataRead disk (fs.inodeLba disk ino) 1
  let off := (ino - 1) % fs.inodesPerGroup * 128 % 2 ^ 32 % 512
  ⟨u16 ibuf off, u32 ibuf (off + 4), fun b => if b < 15 then u32 ibuf (off + 40 + 4 * b) else 0⟩

/-! ## Reading -/

/-- The loop of `ext2_read`; `dst` holds the `read` bytes copied so far. -/
def ext2ReadLoop (fs : Ext2Fs) (disk : Disk) (ino : Ext2Inode) (pos n : Nat) :
    Nat → List Byte → List Byte
  | 0, dst => dst
  | fuel + 1, dst =>
    if dst.length < n then
      let p := (pos + dst.length) % 2 ^ 64
      let blockIdx := p / fs.blockSize % 2 ^ 32
      let blockOff := p % fs.blockSize
      if 12 ≤ blockIdx ∨ ino.block blockIdx = 0 then dst
      else
        let buf := ext2ReadBlock fs disk (ino.block blockIdx)
        let chunk := min (fs.blockSize - blockOff) (n - dst.length)
        ext2ReadLoop fs disk ino pos n fuel
          (dst ++ (List.range chunk).map fun i => buf (blockOff + i))
    else dst

/-- `ext2_read` of `n` bytes at `pos` in the file `ino`: the bytes it copies to its caller. -/
def ext2Read (fs : Ext2Fs) (disk : Disk) (ino pos n : Nat) : List Byte :=
  let inode := ext2ReadInode fs disk ino
  if inode.size ≤ pos then []
  else
    let n := if inode.size < (pos + n) % 2 ^ 64 then inode.size - pos else n
    ext2ReadLoop fs disk inode pos n 13 []

/-! ## Writing -/

/-- The body of the loop of `ext2_write` behind the block: read it, change it, write it back. -/
def ext2PutBlock (fs : Ext2Fs) (disk : Disk) (block off : Nat) (src : List Byte) : Disk :=
  let buf := ext2ReadBlock fs disk block
  let buf := fun i => if off ≤ i ∧ i < off + src.length then src.getD (i - off) 0 else buf i
  ataWrite disk (fs.blockLba block) (fs.sectors % 2 ^ 8) buf

/-- The block for index `b`: the one of the inode, or a page for a hole. `pages` are the addresses that
`pmm_alloc` returns, then `NULL`. -/
def ext2TakeBlock (fs : Ext2Fs) (block : Nat → Nat) (pages : List Nat) (b : Nat) :
    Option (Nat × (Nat → Nat) × List Nat) :=
  if block b ≠ 0 then some (block b, block, pages)
  else
    match pages with
    | [] => none
    | page :: pages =>
      let blk := page / fs.blockSize % 2 ^ 32
      some (blk, Function.update block b blk, pages)

/-- The loop of `ext2_write`: `written` at its end, and the disk. -/
def ext2WriteLoop (fs : Ext2Fs) (pos : Nat) (src : List Byte) :
    Nat → Nat → (Nat → Nat) → List Nat → Disk → Nat × Disk
  | 0, written, _, _, disk => (written, disk)
  | fuel + 1, written, block, pages, disk =>
    if written < src.length then
      let p := (pos + written) % 2 ^ 64
      let blockIdx := p / fs.blockSize % 2 ^ 32
      let blockOff := p % fs.blockSize
      if 12 ≤ blockIdx then (written, disk)
      else
        match ext2TakeBlock fs block pages blockIdx with
        | none => (written, disk)
        | some (blk, block, pages) =>
          let chunk := min (fs.blockSize - blockOff) (src.length - written)
          ext2WriteLoop fs pos src fuel (written + chunk) block pages
            (ext2PutBlock fs disk blk blockOff ((src.drop written).take chunk))
    else (written, disk)

/-- `ext2_write` of `src` at `pos`: the value returned, and the disk. The caller's inode in memory gets
the new end of the file as its size; nothing here reads that one. -/
def ext2Write (fs : Ext2Fs) (disk : Disk) (ino pos : Nat) (src : List Byte) (pages : List Nat) :
    Nat × Disk :=
  ext2WriteLoop fs pos src 13 0 (ext2ReadInode fs disk ino).block pages disk

/-! ## Lookup -/

/-- The loop over the entries of a directory block: the inode of the entry, or that there is none. An
entry of length 0 keeps the loop where it is; it then has no result. -/
def ext2FindEntry (fs : Ext2Fs) (buf : Buf) (name : Str) : Nat → Nat → Option (Option Nat)
  | 0, _ => none
  | fuel + 1, off =>
    if off < fs.blockSize then
      let ino := u32 buf off
      let recLen := u16 buf (off + 4)
      let nameLen := (buf (off + 6)).toNat
      if ino ≠ 0 ∧ nameLen = name.length ∧
          (List.range nameLen).map (fun i => buf (off + 8 + i)) = name.map Subtype.val then
        some (some ino)
      else ext2FindEntry fs buf name fuel (off + recLen)
    else some none

/-- The loop over the blocks of a directory. -/
def ext2FindBlock (fs : Ext2Fs) (disk : Disk) (dir : Ext2Inode) (name : Str) :
    List Nat → Option (Option Nat)
  | [] => some none
  | b :: bs =>
    if dir.block b = 0 then some none
    else
      match ext2FindEntry fs (ext2ReadBlock fs disk (dir.block b)) name (fs.blockSize + 1) 0 with
      | some none => ext2FindBlock fs disk dir name bs
      | r => r

/-- The search of `ext2_lookup`: the number of the inode. -/
def ext2Find (fs : Ext2Fs) (disk : Disk) (dir : Nat) (name : Str) : Option Nat :=
  (ext2FindBlock fs disk (ext2ReadInode fs disk dir) name (List.range 12)).join

/-- The inode that `ext2_lookup` builds, when `kmalloc` has room for it. -/
def ext2Inode (fs : Ext2Fs) (disk : Disk) (ino : Nat) : Inode :=
  let child := ext2ReadInode fs disk ino
  let type :=
    if child.mode &&& 0xF000 = 0x4000 then .dir
    else if child.mode &&& 0xF000 = 0x8000 then .reg
    else .unknown
  ⟨type, child.size, some .ext2⟩

/-- `ext2_lookup`: `ino_num` and the inode. -/
def ext2Lookup (fs : Ext2Fs) (disk : Disk) (dir : Nat) (name : Str) : Option (Nat × Inode) :=
  (ext2Find fs disk dir name).map fun ino => (ino, ext2Inode fs disk ino)

/-- The lookups of `vfs_open` below the root of the file system, inode 2. -/
def ext2Open (fs : Ext2Fs) (disk : Disk) (path : List Str) : Option (Nat × Inode) :=
  path.foldlM (fun dir name => ext2Lookup fs disk dir.1 name)
    (2, ⟨.dir, (ext2ReadInode fs disk 2).size, some .ext2⟩)

/-! ## Addresses -/

namespace Ext2Fs

/-- The block sizes that `block_buf` holds. -/
def SizeOk (fs : Ext2Fs) : Prop := fs.blockSize = 1024 ∨ fs.blockSize = 2048 ∨ fs.blockSize = 4096

/-- The address of a block. -/
def base (fs : Ext2Fs) (block : Nat) : Nat := fs.blockLba block * 512

/-- The bytes of a block. -/
def InBlock (fs : Ext2Fs) (block a : Nat) : Prop := fs.base block ≤ a ∧ a < fs.base block + fs.blockSize

theorem SizeOk.pos {fs : Ext2Fs} (h : fs.SizeOk) : 0 < fs.blockSize := by
  rcases h with h | h | h <;> omega

theorem SizeOk.le {fs : Ext2Fs} (h : fs.SizeOk) : fs.blockSize ≤ 4096 := by
  rcases h with h | h | h <;> omega

theorem SizeOk.sectors {fs : Ext2Fs} (h : fs.SizeOk) :
    fs.sectors % 2 ^ 8 = fs.sectors ∧ fs.sectors * 512 = fs.blockSize := by
  unfold Ext2Fs.sectors
  rcases h with h | h | h <;> rw [h] <;> decide

end Ext2Fs

section

variable {fs : Ext2Fs} {disk disk' : Disk}

/-- The bytes of a sector. -/
def InSector (lba a : Nat) : Prop := lba * 512 ≤ a ∧ a < (lba + 1) * 512

theorem ataRead_congr {lba count : Nat}
    (h : ∀ a, lba * 512 ≤ a → a < (lba + count) * 512 → disk' a = disk a) :
    ataRead disk' lba count = ataRead disk lba count := by
  funext i
  unfold ataRead
  split
  · exact h _ (by omega) (by rw [Nat.add_mul]; omega)
  · rfl

theorem ataRead_sector_congr {lba : Nat} (h : ∀ a, InSector lba a → disk' a = disk a) :
    ataRead disk' lba 1 = ataRead disk lba 1 :=
  ataRead_congr fun a h1 h2 => h a ⟨h1, h2⟩

theorem ext2ReadInode_congr {ino : Nat}
    (h : ∀ a, InSector (fs.bgdLba ino) a ∨ InSector (fs.inodeLba disk ino) a → disk' a = disk a) :
    ext2ReadInode fs disk' ino = ext2ReadInode fs disk ino := by
  have hbgd : ataRead disk' (fs.bgdLba ino) 1 = ataRead disk (fs.bgdLba ino) 1 :=
    ataRead_sector_congr fun a ha => h a (Or.inl ha)
  have hlba : fs.inodeLba disk' ino = fs.inodeLba disk ino := by
    simp only [Ext2Fs.inodeLba, Ext2Fs.inodeTable, hbgd]
  have hbuf : ataRead disk' (fs.inodeLba disk ino) 1 = ataRead disk (fs.inodeLba disk ino) 1 :=
    ataRead_sector_congr fun a ha => h a (Or.inr ha)
  simp only [ext2ReadInode, hlba, hbuf]

theorem ext2ReadBlock_apply (hv : fs.SizeOk) {block i : Nat} (hi : i < fs.blockSize) :
    ext2ReadBlock fs disk block i = disk (fs.base block + i) := by
  unfold ext2ReadBlock ataRead
  rw [hv.sectors.1, hv.sectors.2, if_pos hi]
  rfl

theorem ext2ReadBlock_congr (hv : fs.SizeOk) {block : Nat}
    (h : ∀ a, fs.InBlock block a → disk' a = disk a) :
    ext2ReadBlock fs disk' block = ext2ReadBlock fs disk block := by
  unfold ext2ReadBlock
  refine ataRead_congr fun a h1 h2 => h a ⟨h1, ?_⟩
  rwa [hv.sectors.1, Nat.add_mul, hv.sectors.2] at h2

/-- The block that is written back differs from the one read in the bytes of `src`. -/
theorem ext2PutBlock_apply (hv : fs.SizeOk) (disk : Disk) (block : Nat) {off : Nat} {src : List Byte}
    (hle : off + src.length ≤ fs.blockSize) (a : Nat) :
    ext2PutBlock fs disk block off src a =
      if fs.base block + off ≤ a ∧ a < fs.base block + off + src.length then
        src.getD (a - (fs.base block + off)) 0
      else disk a := by
  unfold ext2PutBlock ataWrite
  rw [hv.sectors.1, Nat.add_mul, hv.sectors.2]
  have hbase : fs.blockLba block * 512 = fs.base block := rfl
  simp only [hbase]
  by_cases hin : fs.base block ≤ a ∧ a < fs.base block + fs.blockSize
  · rw [if_pos hin]
    by_cases hsrc : fs.base block + off ≤ a ∧ a < fs.base block + off + src.length
    · rw [if_pos hsrc, if_pos (by omega), Nat.sub_sub]
    · rw [if_neg hsrc, if_neg (by omega), ext2ReadBlock_apply hv (by omega),
        Nat.add_sub_cancel' hin.1]
  · rw [if_neg hin, if_neg (by omega)]

theorem u16_lt (buf : Buf) (a : Nat) : u16 buf a < 2 ^ 16 := by
  have h0 := (buf a).isLt
  have h1 := (buf (a + 1)).isLt
  unfold u16
  omega

theorem u32_lt (buf : Buf) (a : Nat) : u32 buf a < 2 ^ 32 := by
  have h0 := u16_lt buf a
  have h1 := u16_lt buf (a + 2)
  unfold u32
  omega

theorem u32_congr {b b' : Buf} {a n : Nat} (h : ∀ i < n, b i = b' i) (ha : a + 4 ≤ n) :
    u32 b a = u32 b' a := by
  simp only [u32, u16]
  rw [h _ (by omega), h _ (by omega), h _ (by omega), h _ (by omega)]

theorem ext2ReadInode_size_lt (fs : Ext2Fs) (disk : Disk) (ino : Nat) :
    (ext2ReadInode fs disk ino).size < 2 ^ 32 :=
  u32_lt _ _

end

/-! ## What a read returns -/

/-- The byte at `p` of the file, if it is there: before the end, in one of the twelve blocks, and not in
a hole. -/
def fileByte (fs : Ext2Fs) (disk : Disk) (inode : Ext2Inode) (p : Nat) : Option Byte :=
  if p < inode.size ∧ p / fs.blockSize < 12 ∧ inode.block (p / fs.blockSize) ≠ 0 then
    some (disk (fs.base (inode.block (p / fs.blockSize)) + p % fs.blockSize))
  else none

section

variable {fs : Ext2Fs} {disk : Disk}

theorem block_div {q r i : Nat} (hq : 0 < q) (h : r % q + i < q) :
    (r + i) / q = r / q ∧ (r + i) % q = r % q + i := by
  have hr := Nat.div_add_mod r q
  have hsum : r + i = r % q + i + q * (r / q) := by omega
  rw [hsum, Nat.add_mul_div_left _ _ hq, Nat.add_mul_mod_self_left, Nat.div_eq_of_lt h,
    Nat.mod_eq_of_lt h]
  exact ⟨Nat.zero_add _, rfl⟩

theorem block_next {q r : Nat} (hq : 0 < q) : (r + (q - r % q)) / q = r / q + 1 := by
  have hr := Nat.div_add_mod r q
  have hlt := Nat.mod_lt r hq
  have hsum : r + (q - r % q) = q * (r / q + 1) := by
    rw [Nat.mul_succ]
    omega
  rw [hsum, Nat.mul_div_cancel_left _ hq]

theorem length_append_range {α : Type*} (dst : List α) (c : Nat) (f : Nat → α) :
    (dst ++ (List.range c).map f).length = dst.length + c := by
  rw [List.length_append, List.length_map, List.length_range]

theorem ext2ReadLoop_eq (hv : fs.SizeOk) {inode : Ext2Inode} {pos n : Nat}
    (hend : pos + n ≤ inode.size) (hsize : inode.size < 2 ^ 32) : ∀ (fuel : Nat) (dst : List Byte),
    dst.length ≤ n → (dst.length = n ∨ 12 < fuel + (pos + dst.length) / fs.blockSize) →
    ext2ReadLoop fs disk inode pos n fuel dst =
      dst ++ collect (fileByte fs disk inode) (pos + dst.length) (n - dst.length)
  | 0, dst, hle, hfuel => by
    rw [ext2ReadLoop]
    rcases hfuel with hn | hidx
    · simp [hn]
    · have hnone : fileByte fs disk inode (pos + dst.length) = none := if_neg (by omega)
      rw [collect_of_none hnone, List.append_nil]
  | fuel + 1, dst, hle, hfuel => by
    rw [ext2ReadLoop]
    by_cases hlt : dst.length < n
    · have hpos := hv.pos
      have hp : (pos + dst.length) % 2 ^ 64 = pos + dst.length := Nat.mod_eq_of_lt (by omega)
      have hidx : (pos + dst.length) / fs.blockSize % 2 ^ 32 = (pos + dst.length) / fs.blockSize :=
        Nat.mod_eq_of_lt ((Nat.div_le_self _ _).trans_lt (by omega))
      have hoff := Nat.mod_lt (pos + dst.length) hpos
      rw [if_pos hlt]
      simp only [hp, hidx]
      by_cases hstop : 12 ≤ (pos + dst.length) / fs.blockSize ∨
          inode.block ((pos + dst.length) / fs.blockSize) = 0
      · have hnone : fileByte fs disk inode (pos + dst.length) = none := if_neg (by omega)
        rw [if_pos hstop, collect_of_none hnone, List.append_nil]
      · rw [if_neg hstop]
        generalize hr : pos + dst.length = r at *
        generalize hc : min (fs.blockSize - r % fs.blockSize) (n - dst.length) = c
        have hlen := length_append_range dst c fun i =>
          ext2ReadBlock fs disk (inode.block (r / fs.blockSize)) (r % fs.blockSize + i)
        have hbytes : ∀ i < c, fileByte fs disk inode (r + i) =
            some (ext2ReadBlock fs disk (inode.block (r / fs.blockSize)) (r % fs.blockSize + i)) := by
          intro i hi
          obtain ⟨hdiv, hmod⟩ := block_div (r := r) (i := i) hpos (by omega)
          rw [fileByte, hdiv, hmod, ext2ReadBlock_apply hv (by omega), if_pos (by omega),
            ← Nat.add_assoc]
        have hsplit : n - dst.length = c + (n - (dst.length + c)) := by omega
        rw [ext2ReadLoop_eq hv hend hsize fuel _ (by omega), hlen, List.append_assoc, hsplit,
          collect_append hbytes, ← Nat.add_assoc pos, hr]
        rw [hlen]
        by_cases hlast : c = n - dst.length
        · exact Or.inl (by omega)
        · right
          have hc' : c = fs.blockSize - r % fs.blockSize := by omega
          have := block_next (r := r) hpos
          rw [← Nat.add_assoc pos, hr, hc', this]
          omega
    · rw [if_neg hlt]
      simp [Nat.sub_eq_zero_of_le (Nat.not_lt.mp hlt)]

theorem length_ext2ReadLoop {fs : Ext2Fs} {disk : Disk} {inode : Ext2Inode} {pos n : Nat} :
    ∀ (fuel : Nat) (dst : List Byte), dst.length ≤ n →
      (ext2ReadLoop fs disk inode pos n fuel dst).length ≤ n
  | 0, dst, h => h
  | fuel + 1, dst, h => by
    rw [ext2ReadLoop]
    split
    · dsimp only
      split
      · exact h
      · refine length_ext2ReadLoop fuel _ ?_
        rw [length_append_range]
        omega
    · exact h

theorem length_ext2Read (fs : Ext2Fs) (disk : Disk) (ino pos n : Nat) :
    (ext2Read fs disk ino pos n).length ≤ n := by
  unfold ext2Read
  dsimp only
  split
  · exact Nat.zero_le n
  · refine (length_ext2ReadLoop 13 [] (Nat.zero_le _)).trans ?_
    have := Nat.mod_le (pos + n) (2 ^ 64)
    split <;> omega

/-- **`ext2_read` returns the bytes of the file from `pos` on**, up to the first that is not there. -/
theorem ext2Read_eq (hv : fs.SizeOk) {pos n : Nat} (hlt : pos + n < 2 ^ 64) (ino : Nat) :
    ext2Read fs disk ino pos n = collect (fileByte fs disk (ext2ReadInode fs disk ino)) pos n := by
  have hsize := ext2ReadInode_size_lt fs disk ino
  unfold ext2Read
  generalize ext2ReadInode fs disk ino = inode at *
  have hbehind : ∀ p, inode.size ≤ p → fileByte fs disk inode p = none := fun p hp => if_neg (by omega)
  by_cases hend : inode.size ≤ pos
  · simp only [if_pos hend]
    rw [collect_of_none (hbehind pos hend)]
  · simp only [if_neg hend, Nat.mod_eq_of_lt hlt]
    by_cases hcut : inode.size < pos + n
    · rw [if_pos hcut, ext2ReadLoop_eq hv (by omega) hsize 13 [] (Nat.zero_le _)
        (Or.inr (Nat.lt_add_right _ (by decide)))]
      have hsplit : n = inode.size - pos + (n - (inode.size - pos)) := by omega
      have hnone := hbehind (pos + (inode.size - pos)) (by omega)
      rw [hsplit, collect_stop hnone, List.nil_append, List.length_nil, Nat.add_zero, Nat.sub_zero]
    · rw [if_neg hcut, ext2ReadLoop_eq hv (by omega) hsize 13 [] (Nat.zero_le _)
        (Or.inr (Nat.lt_add_right _ (by decide))), List.nil_append, List.length_nil, Nat.add_zero,
        Nat.sub_zero]

end

end Sinux.Fs

import Sinux.Fs.Ext2Mount
import Sinux.Fs.Ext2Dir
import Sinux.Fs.Positions

/-!
# The geometries that `ext2_mount` admits

`ext2_mount` looks at the magic number only. The other numbers of the superblock are divisors, a shift,
a count of sectors and bounds of indices into `block_buf` in every later call.

* `Event`, `Does`: what a call does that can go wrong.
* `lt_length_ext2Read_iff`, `lt_ext2Write_iff`: the bytes of `Does` are those that `ext2Read` copies and
  `ext2Write` stores.
* `ext2_mount_safe_iff`: the superblocks under which nothing does, whatever else is on the disk, are those
  with blocks of 1024 or 2048 bytes.

**Out of scope**: accesses to the caller's buffer, and commands that fail.
-/

namespace Sinux.Fs

/-- A division, a shift, the transfer of a block and an access to `block_buf`. -/
inductive Event where
  | divide (divisor : Nat)
  | shift (amount : Nat)
  | transfer (count : Nat)
  | index (i : Nat)

/-- It is defined, transfers the block into the 4096 bytes of `block_buf`, and is an index of them. -/
def Event.Ok (fs : Ext2Fs) : Event → Prop
  | divide d => d ≠ 0
  | shift k => k < 32
  | transfer count => count * 512 = fs.blockSize ∧ fs.blockSize ≤ 4096
  | index i => i < 4096

inductive Ext2Call where
  | lookup (dir : Nat) (name : Str)
  | read (ino pos n : Nat)
  | write (ino pos n : Nat)
  | readdir (ino pos : Nat)

section

variable (fs : Ext2Fs) (disk : Disk)

/-- The loop of `ext2_lookup` comes to block `b`. -/
def Looks (dir : Nat) (name : Str) (b : Nat) : Prop :=
  b < 12 ∧ (∀ c ≤ b, (ext2ReadInode fs disk dir).block c ≠ 0) ∧
  ∀ c < b, ext2FindEntry fs (ext2ReadBlock fs disk ((ext2ReadInode fs disk dir).block c)) name
    (fs.blockSize + 1) 0 = some none

/-- The loop of `ext2_read` comes to the byte `k` behind `pos`. -/
def Copies (ino pos n k : Nat) : Prop :=
  let inode := ext2ReadInode fs disk ino
  pos < inode.size ∧ k < (if inode.size < (pos + n) % 2 ^ 64 then inode.size - pos else n) ∧
  ∀ j < k, fs.blockIdx pos j < 12 ∧ inode.block (fs.blockIdx pos j) ≠ 0

end

/-- What a call does, after the shift of `ext2_mount`. The scans look at the seven bytes of a header that
they use, and at the name of an entry; the copies use the byte of the block that is at the position. In a
write there is a page for every hole. -/
inductive Does (fs : Ext2Fs) (disk : Disk) : Ext2Call → Event → Prop
  | mount (c : Ext2Call) :
      Does fs disk c (.shift (u32 (ataRead disk ((fs.lbaStart + 2) % 2 ^ 32) 2) 24))
  | group (c : Ext2Call) : Does fs disk c (.divide fs.inodesPerGroup)
  | lookupBlock {dir : Nat} {name : Str} {b : Nat} : Looks fs disk dir name b →
      Does fs disk (.lookup dir name) (.transfer (fs.sectors % 2 ^ 8))
  | lookupEntry {dir : Nat} {name : Str} {b off i : Nat} {buf : Buf} : Looks fs disk dir name b →
      buf = ext2ReadBlock fs disk ((ext2ReadInode fs disk dir).block b) →
      Visits buf fs.blockSize (·.Named name) 0 off →
      i < 7 ∨ (∃ j < (dirEntry buf off).name.length, i = 8 + j ∧ (dirEntry buf off).ino ≠ 0 ∧
        (dirEntry buf off).name.length = name.length) →
      Does fs disk (.lookup dir name) (.index (off + i))
  | readdirPos {ino pos : Nat} : Does fs disk (.readdir ino pos) (.divide fs.blockSize)
  | readdirBlock {ino pos : Nat} : pos % 2 ^ 32 / fs.blockSize < 12 →
      (ext2ReadInode fs disk ino).block (pos % 2 ^ 32 / fs.blockSize) ≠ 0 →
      Does fs disk (.readdir ino pos) (.transfer (fs.sectors % 2 ^ 8))
  | readdirEntry {ino pos off i : Nat} {buf : Buf} : pos % 2 ^ 32 / fs.blockSize < 12 →
      (ext2ReadInode fs disk ino).block (pos % 2 ^ 32 / fs.blockSize) ≠ 0 →
      buf = ext2ReadBlock fs disk ((ext2ReadInode fs disk ino).block (pos % 2 ^ 32 / fs.blockSize)) →
      Visits buf fs.blockSize (fun e => e.recLen = 0 ∨ e.ino ≠ 0) (pos % 2 ^ 32 % fs.blockSize) off →
      i < 7 ∨ (∃ j < (dirEntry buf off).name.length, i = 8 + j ∧ (dirEntry buf off).ino ≠ 0) →
      Does fs disk (.readdir ino pos) (.index (off + i))
  | readPos {ino pos n k : Nat} : Copies fs disk ino pos n k →
      Does fs disk (.read ino pos n) (.divide fs.blockSize)
  | readBlock {ino pos n k : Nat} : Copies fs disk ino pos n k → fs.blockIdx pos k < 12 →
      (ext2ReadInode fs disk ino).block (fs.blockIdx pos k) ≠ 0 →
      Does fs disk (.read ino pos n) (.transfer (fs.sectors % 2 ^ 8))
  | readByte {ino pos n k : Nat} : Copies fs disk ino pos n k → fs.blockIdx pos k < 12 →
      (ext2ReadInode fs disk ino).block (fs.blockIdx pos k) ≠ 0 →
      Does fs disk (.read ino pos n) (.index ((pos + k) % 2 ^ 64 % fs.blockSize))
  | writePos {ino pos n k : Nat} : k < n → (∀ j < k, fs.blockIdx pos j < 12) →
      Does fs disk (.write ino pos n) (.divide fs.blockSize)
  | writeBlock {ino pos n k : Nat} : k < n → (∀ j ≤ k, fs.blockIdx pos j < 12) →
      Does fs disk (.write ino pos n) (.transfer (fs.sectors % 2 ^ 8))
  | writeByte {ino pos n k : Nat} : k < n → (∀ j ≤ k, fs.blockIdx pos j < 12) →
      Does fs disk (.write ino pos n) (.index ((pos + k) % 2 ^ 64 % fs.blockSize))

section

variable {fs : Ext2Fs} (hv : fs.SizeOk) (disk : Disk) (ino : Nat) {pos n k : Nat}

include hv

/-- The bytes that a read comes to and finds a block for are the ones that it copies. -/
theorem lt_length_ext2Read_iff : k < (ext2Read fs disk ino pos n).length ↔
    Copies fs disk ino pos n k ∧ fs.blockIdx pos k < 12 ∧
      (ext2ReadInode fs disk ino).block (fs.blockIdx pos k) ≠ 0 := by
  have hsize := ext2ReadInode_size_lt fs disk ino
  unfold ext2Read Copies
  dsimp only
  generalize ext2ReadInode fs disk ino = inode at *
  by_cases hpos : inode.size ≤ pos
  · rw [if_pos hpos]
    exact iff_of_false (Nat.not_lt_zero k) fun h => Nat.not_lt.mpr hpos h.1.1
  rw [if_neg hpos]
  generalize (if inode.size < (pos + n) % 2 ^ 64 then inode.size - pos else n) = n'
  obtain ⟨hend, -, hdone⟩ := ext2ReadLoop_end hv disk inode pos n' 13 []
    (Nat.lt_add_right _ (by decide)) (by rw [List.length_nil]; omega)
  have hlen := @length_ext2ReadLoop fs disk inode pos n' 13 [] (Nat.zero_le _)
  generalize (ext2ReadLoop fs disk inode pos n' 13 []).length = len at *
  rw [List.length_nil, Nat.add_zero] at hend
  have hle := hv.le
  have hlt32 : pos + len < 2 ^ 32 := by
    have h12 := hend (max 12 (pos / fs.blockSize)) (Nat.le_max_right ..) (Or.inl (Nat.le_max_left ..))
    rcases Nat.le_total (pos / fs.blockSize) 12 with h | h
    · rw [Nat.max_eq_left h] at h12
      omega
    · rw [Nat.max_eq_right h] at h12
      have := Nat.div_mul_le_self pos fs.blockSize
      omega
  -- a block at which the loop stops is not before its end
  have hgoes {j : Nat} (hj : j < len) : ¬ Stops inode (fs.blockIdx pos j) := fun hs => by
    rw [blockIdx_of_lt (by omega)] at hs
    have hq := hend _ (Nat.div_le_div_right (Nat.le_add_right pos j)) hs
    have := Nat.div_mul_le_self (pos + j) fs.blockSize
    omega
  constructor
  · intro hk
    have hall {j : Nat} (hj : j < len) := not_or.mp (hgoes hj)
    exact ⟨⟨Nat.lt_of_not_le hpos, hk.trans_le hlen, fun j hj =>
        ⟨Nat.lt_of_not_le (hall (hj.trans hk)).1, (hall (hj.trans hk)).2⟩⟩,
      Nat.lt_of_not_le (hall hk).1, (hall hk).2⟩
  · rintro ⟨⟨-, hk, hbefore⟩, hidx⟩
    by_contra hlen'
    have hstop := hdone.resolve_left (by omega)
    rw [← blockIdx_of_lt hlt32] at hstop
    have hno : fs.blockIdx pos len < 12 ∧ inode.block (fs.blockIdx pos len) ≠ 0 := by
      rcases Nat.lt_or_eq_of_le (Nat.le_of_not_lt hlen') with hlt | rfl
      · exact hbefore len hlt
      · exact hidx
    exact hstop.elim (Nat.not_le.mpr hno.1) hno.2

/-- With a page for every hole a write ends with its bytes or with the twelfth block. -/
theorem ext2WriteLoop_paged {src : List Byte} : ∀ (fuel w : Nat) (block : Nat → Nat) (pages : List Nat)
    (disk : Disk), w ≤ src.length → fuel ≤ pages.length →
    (w = src.length ∨ 12 < fuel + fs.blockIdx pos w) →
    let r := (ext2WriteLoop fs pos src fuel w block pages disk).1
    r = src.length ∨ 12 ≤ fs.blockIdx pos r := by
  intro fuel
  induction fuel with
  | zero =>
    intro w block pages disk _ _ hfuel
    exact hfuel.imp_right fun h => show 12 ≤ fs.blockIdx pos w by omega
  | succ fuel ih =>
    intro w block pages disk hw hpages hfuel
    generalize hc : min (fs.blockSize - (pos + w) % 2 ^ 64 % fs.blockSize) (src.length - w) = c
    rcases ext2WriteLoop_round fs pos src fuel w block pages disk rfl rfl hc.symm with
      ⟨hstop, heq⟩ | ⟨blk, block', pages', -, hb, ht, heq⟩
    · rw [heq]
      rcases hstop with hsrc | h12 | hnone
      · exact Or.inl (Nat.le_antisymm hw hsrc)
      · exact Or.inr h12
      · rw [(ext2TakeBlock_eq_none.mp hnone).2] at hpages
        exact absurd hpages (Nat.not_succ_le_zero fuel)
    · rw [heq]
      refine ih (w + c) block' pages' _ (by omega) ?_ ?_
      · rcases ext2TakeBlock_some ht with ⟨-, -, -, rfl⟩ | ⟨page, -, rfl, -⟩
        · omega
        · rw [List.length_cons] at hpages
          omega
      · by_cases hlast : w + c = src.length
        · exact Or.inl hlast
        · right
          have hnext := blockIdx_next hv hb
          rw [show fs.blockSize - (pos + w) % 2 ^ 64 % fs.blockSize = c by omega, Nat.mod_add_mod,
            Nat.add_assoc] at hnext
          unfold Ext2Fs.blockIdx at hfuel ⊢
          omega

/-- The bytes that a write comes to in the first twelve blocks are the ones that it stores. -/
theorem lt_ext2Write_iff {src : List Byte} {pages : List Nat} (hpages : 13 ≤ pages.length) :
    k < (ext2Write fs disk ino pos src pages).1 ↔
      k < src.length ∧ ∀ j ≤ k, fs.blockIdx pos j < 12 := by
  constructor
  · intro hk
    exact ⟨hk.trans_le (ext2WriteLoop_le 13 0 _ pages disk (Nat.zero_le _)), fun j hj =>
      (ext2WriteLoop_upto hv 13 0 _ pages disk j (Nat.zero_le j) (hj.trans_lt hk)).1⟩
  · rintro ⟨hk, hidx⟩
    by_contra hle
    rcases ext2WriteLoop_paged hv 13 0 (ext2ReadInode fs disk ino).block pages disk (Nat.zero_le _) hpages
      (Or.inr (Nat.lt_add_right _ (by decide))) with hall | h12
    · exact hle (hall.symm ▸ hk)
    · exact Nat.not_lt.mpr h12 (hidx _ (Nat.le_of_not_lt hle))

end

section

variable {disk : Disk} {lbaStart : Nat} {sb : Buf}

theorem Visits.lt {buf : Buf} {n start off : Nat} {stops : DirEntry → Prop}
    (h : Visits buf n stops start off) : off < n := by
  cases h <;> assumption

theorem dirEntry_name_lt (buf : Buf) (off : Nat) : (dirEntry buf off).name.length < 256 := by
  rw [dirEntry, List.length_map, List.length_range]
  exact (buf (off + 6)).isLt

/-- An index into a block of at most 2048 bytes, a header and a name behind it. -/
theorem scan_index_lt {n off i : Nat} {buf : Buf} {p : Nat → Prop} (hn : n ≤ 2048) (hoff : off < n)
    (hi : i < 7 ∨ ∃ j < (dirEntry buf off).name.length, i = 8 + j ∧ p j) : off + i < 4096 := by
  have hlen := dirEntry_name_lt buf off
  rcases hi with hi | ⟨j, hj, rfl, -⟩ <;> omega

theorem Does.ok (hsb : ∀ i < 1024, ataRead disk ((lbaStart + 2) % 2 ^ 32) 2 i = sb i)
    (hper : u32 sb 40 ≠ 0) (hlog : u32 sb 24 ≤ 1) {c : Ext2Call} {e : Event}
    (h : Does (ext2FsOf disk lbaStart) disk c e) : e.Ok (ext2FsOf disk lbaStart) := by
  have h24 := u32_congr (a := 24) hsb (by decide)
  have hipg : (ext2FsOf disk lbaStart).inodesPerGroup ≠ 0 := by
    have h40 := u32_congr (a := 40) hsb (by decide)
    exact fun h0 => hper (h40.symm.trans h0)
  have hsize : (ext2FsOf disk lbaStart).blockSize = 1024 ∨
      (ext2FsOf disk lbaStart).blockSize = 2048 := by
    unfold ext2FsOf
    dsimp only
    rw [h24]
    obtain h0 | h1 : u32 sb 24 = 0 ∨ u32 sb 24 = 1 := by omega
    · exact Or.inl (by rw [h0]; rfl)
    · exact Or.inr (by rw [h1]; rfl)
  have hlba : (ext2FsOf disk lbaStart).lbaStart = lbaStart := rfl
  generalize ext2FsOf disk lbaStart = fs at *
  have hok : fs.SizeOk := by
    rcases hsize with h | h
    · exact Or.inl h
    · exact Or.inr (Or.inl h)
  have hle : fs.blockSize ≤ 2048 := by omega
  have htransfer : Event.Ok fs (.transfer (fs.sectors % 2 ^ 8)) :=
    ⟨by rw [hok.sectors.1, hok.sectors.2], hok.le⟩
  have hbyte : ∀ p, Event.Ok fs (.index (p % fs.blockSize)) := fun p =>
    lt_of_lt_of_le (Nat.mod_lt p hok.pos) hok.le
  cases h with
  | mount => exact lt_of_le_of_lt (by rw [hlba, h24]; exact hlog) (by decide : 1 < 32)
  | group => exact hipg
  | readdirPos | readPos | writePos => exact hok.pos.ne'
  | lookupBlock | readdirBlock | readBlock | writeBlock => exact htransfer
  | lookupEntry _ _ hv hi => exact scan_index_lt hle hv.lt hi
  | readdirEntry _ _ _ hv hi => exact scan_index_lt hle hv.lt hi
  | readByte | writeByte => exact hbyte _

/-! ## Larger blocks -/

/-- A disk with this superblock. Every eighth sector is such that its quarters are inodes whose block is
1, and entries of 4095 bytes without an inode. -/
def corrupt (lbaStart : Nat) (sb : Buf) : Disk := fun a =>
  if a / 512 % 8 = lbaStart % 8 then
    if a % 128 = 4 then 0xFF else if a % 128 = 5 then 0x0F else if a % 128 = 40 then 1 else 0
  else sb (a - (lbaStart + 2) % 2 ^ 32 * 512)

theorem corrupt_superblock (lbaStart : Nat) (sb : Buf) {i : Nat} (hi : i < 1024) :
    ataRead (corrupt lbaStart sb) ((lbaStart + 2) % 2 ^ 32) 2 i = sb i := by
  rw [ataRead, if_pos hi, corrupt, if_neg (by omega), Nat.add_sub_cancel_left]

theorem corrupt_byte (sb : Buf) {lba i : Nat} (hlba : lba % 8 = lbaStart % 8) (hi : i < 128) :
    corrupt lbaStart sb (lba * 512 + i) =
      if i = 4 then 0xFF else if i = 5 then 0x0F else if i = 40 then 1 else 0 := by
  have hmod : (lba * 512 + i) % 128 = i := by omega
  rw [corrupt, if_pos (by omega), hmod]

theorem corrupt_mount (hmagic : u16 sb 56 = 0xEF53) : ext2Mount (corrupt lbaStart sb) lbaStart =
    some (ext2FsOf (corrupt lbaStart sb) lbaStart) := by
  refine if_pos ?_
  rw [u16, corrupt_superblock lbaStart sb (by decide), corrupt_superblock lbaStart sb (by decide)]
  exact hmagic

variable {fs : Ext2Fs}

theorem corrupt_inode (sb : Buf) (hlba : fs.lbaStart = lbaStart) (hsec : fs.sectors % 8 = 0) :
    (ext2ReadInode fs (corrupt lbaStart sb) 1).block 0 = 1 := by
  have hinode : fs.inodeLba (corrupt lbaStart sb) 1 % 8 = lbaStart % 8 := by
    have hmul : fs.inodeTable (corrupt lbaStart sb) 1 * fs.sectors % 8 = 0 := by
      rw [Nat.mul_mod, hsec, Nat.mul_zero, Nat.zero_mod]
    simp only [Ext2Fs.inodeLba, Nat.sub_self, Nat.zero_mod, Nat.zero_mul, Nat.zero_div, hlba]
    omega
  simp only [ext2ReadInode, Nat.sub_self, Nat.zero_mod, Nat.zero_mul, Nat.zero_add, Nat.mul_zero,
    Nat.add_zero]
  rw [if_pos (by decide), u32_ataRead (by decide)]
  simp [u32, u16, Nat.add_assoc, corrupt_byte sb hinode]

theorem corrupt_entry (sb : Buf) (hlba : fs.lbaStart = lbaStart) (hsec : fs.sectors % 8 = 0)
    (hcount : 0 < fs.sectors % 2 ^ 8) :
    (dirEntry (ext2ReadBlock fs (corrupt lbaStart sb) 1) 0).ino = 0 ∧
    (dirEntry (ext2ReadBlock fs (corrupt lbaStart sb) 1) 0).recLen = 4095 := by
  have hblock : fs.blockLba 1 % 8 = lbaStart % 8 := by
    rw [Ext2Fs.blockLba, hlba]
    omega
  have h0 := corrupt_byte sb hblock (by decide : 0 < 128)
  rw [Nat.add_zero] at h0
  simp only [dirEntry, ext2ReadBlock]
  rw [u32_ataRead (by omega), u16_ataRead (by omega)]
  constructor <;> simp [u32, u16, Nat.add_assoc, corrupt_byte sb hblock, h0]

theorem corrupt_faults (lbaStart : Nat) (hlog : 2 ≤ u32 sb 24) : ∃ c e,
    Does (ext2FsOf (corrupt lbaStart sb) lbaStart) (corrupt lbaStart sb) c e ∧
      ¬e.Ok (ext2FsOf (corrupt lbaStart sb) lbaStart) := by
  have h24 := u32_congr (a := 24) (fun i hi => corrupt_superblock lbaStart sb hi)
    (by decide)
  by_cases hshift : 32 ≤ u32 sb 24
  · refine ⟨_, _, .mount (.readdir 1 0), ?_⟩
    have hlba : (ext2FsOf (corrupt lbaStart sb) lbaStart).lbaStart = lbaStart := rfl
    rw [hlba, h24]
    exact Nat.not_lt.mpr hshift
  have hsize : (ext2FsOf (corrupt lbaStart sb) lbaStart).blockSize = 1024 * 2 ^ u32 sb 24 % 2 ^ 32 := by
    rw [← h24]
    rfl
  have hlba : (ext2FsOf (corrupt lbaStart sb) lbaStart).lbaStart = lbaStart := rfl
  generalize ext2FsOf (corrupt lbaStart sb) lbaStart = fs at *
  obtain ⟨k, hk⟩ : ∃ k, u32 sb 24 = k + 2 := ⟨_, (Nat.sub_add_cancel hlog).symm⟩
  have h4096 : fs.blockSize % 4096 = 0 := by
    rw [hsize, Nat.mod_mod_of_dvd _ (by decide), hk, Nat.pow_add]
    omega
  have hsec : fs.sectors % 8 = 0 := by
    unfold Ext2Fs.sectors
    omega
  have hread := corrupt_inode sb hlba hsec
  rcases Nat.eq_zero_or_pos fs.blockSize with h0 | hpos
  · exact ⟨.readdir 1 0, _, .readdirPos, fun h => h h0⟩
  have hidx : 0 % 2 ^ 32 / fs.blockSize = 0 := Nat.zero_div _
  have hne : (ext2ReadInode fs (corrupt lbaStart sb) 1).block (0 % 2 ^ 32 / fs.blockSize) ≠ 0 := by
    rw [hidx, hread]
    decide
  by_cases hbig : 4096 < fs.blockSize
  · exact ⟨.readdir 1 0, _, .readdirBlock (by rw [hidx]; decide) hne,
      fun h => Nat.not_lt.mpr h.2 hbig⟩
  · have hbs : fs.blockSize = 4096 := by omega
    obtain ⟨hino, hrec⟩ := corrupt_entry sb hlba hsec (by rw [Ext2Fs.sectors, hbs]; decide)
    have hv : Visits (ext2ReadBlock fs (corrupt lbaStart sb) 1) fs.blockSize
        (fun e => e.recLen = 0 ∨ e.ino ≠ 0) (0 % 2 ^ 32 % fs.blockSize) 4095 := by
      have h : Visits (ext2ReadBlock fs (corrupt lbaStart sb) 1) fs.blockSize
          (fun e => e.recLen = 0 ∨ e.ino ≠ 0) 0 _ :=
        .next (.start (by omega : 0 < fs.blockSize)) (by rw [hino, hrec]; decide)
          (by rw [hrec, hbs]; decide)
      rwa [hrec] at h
    refine ⟨.readdir 1 0, _, .readdirEntry (i := 1) (by rw [hidx]; decide) hne rfl
      (by rw [hidx, hread]; exact hv) (Or.inl (by decide)), fun h => ?_⟩
    exact absurd h (by decide : ¬4095 + 1 < 4096)

end

/-- **Nothing goes wrong on a mounted file system**, whatever is on the disk behind the superblock, exactly
if its blocks have 1024 or 2048 bytes. `ext2_mount` itself divides by `inodes_per_group`, so it does not
return if that is 0. -/
theorem ext2_mount_safe_iff (lbaStart : Nat) (sb : Buf) (hmagic : u16 sb 56 = 0xEF53)
    (hper : u32 sb 40 ≠ 0) :
    (∀ (disk : Disk) (fs : Ext2Fs), (∀ i < 1024, ataRead disk ((lbaStart + 2) % 2 ^ 32) 2 i = sb i) →
      ext2Mount disk lbaStart = some fs → ∀ c e, Does fs disk c e → e.Ok fs) ↔ u32 sb 24 ≤ 1 := by
  constructor
  · intro hsafe
    by_contra hlog
    obtain ⟨c, e, hdoes, hnot⟩ := corrupt_faults lbaStart (by omega : 2 ≤ u32 sb 24)
    exact hnot (hsafe _ _ (fun i hi => corrupt_superblock lbaStart sb hi) (corrupt_mount hmagic) c e hdoes)
  · intro hlog disk fs hsb hmount c e hdoes
    unfold ext2Mount at hmount
    split at hmount
    · obtain rfl := Option.some.inj hmount
      exact hdoes.ok hsb hper hlog
    · cases hmount

/-- A superblock with blocks of 1024 bytes and groups of 8 inodes; `log` is `s_log_block_size`. -/
def superblock (log : Byte) : Buf := fun i =>
  ([(20, 1), (24, log), (40, 8), (56, 0x53), (57, 0xEF)].lookup i).getD 0

theorem ext2_mount_safe_1024 : u32 (superblock 0) 24 = 0 ∧ ∀ (disk : Disk) (fs : Ext2Fs),
    (∀ i < 1024, ataRead disk ((0 + 2) % 2 ^ 32) 2 i = superblock 0 i) → ext2Mount disk 0 = some fs →
    ∀ c e, Does fs disk c e → e.Ok fs :=
  ⟨by decide, (ext2_mount_safe_iff 0 (superblock 0) (by decide) (by decide)).mpr (by decide)⟩

/-- Blocks of 4096 bytes: on some disk a call reads behind `block_buf`. -/
theorem ext2_mount_unsafe_4096 : ∃ (disk : Disk) (fs : Ext2Fs),
    (∀ i < 1024, ataRead disk ((0 + 2) % 2 ^ 32) 2 i = superblock 2 i) ∧ ext2Mount disk 0 = some fs ∧
    ∃ c e, Does fs disk c e ∧ ¬e.Ok fs :=
  ⟨corrupt 0 (superblock 2), _, fun _ hi => corrupt_superblock _ _ hi, corrupt_mount (by decide),
    corrupt_faults 0 (by decide)⟩

end Sinux.Fs

import Sinux.Core.Persist
import Mathlib.Tactic.IntervalCases

/-!
# The sectors of an ATA request (`drivers/ata.c`, `ext2_read_block` in `kernel/fs/ext2.c`)

`ata_read` and `ata_write` compare `lba + count`, in 32 bits, with the size of the drive, and write 28
bits of `lba` to the registers.

* `ataRequest`, `ext2BlockRequest`: the registers of a request that passes the comparison.
* `ata_request_exact_iff`: which requests are for the sectors that were asked for.

**Out of scope**: the transfer itself and the errors the drive reports.
-/

namespace Sinux.Core.Ata

open Sinux.Core.Persist

/-- The values written to `ATA_DRIVE`, `ATA_SECCOUNT`, `ATA_LBA0` to `ATA_LBA2` and `ATA_CMD`. -/
structure Registers where
  drive : BitVec 8
  seccount : BitVec 8
  lba0 : BitVec 8
  lba1 : BitVec 8
  lba2 : BitVec 8
  cmd : BitVec 8

/-- The first sector as the drive takes it from its registers. -/
def Registers.address (r : Registers) : Nat :=
  (r.drive.setWidth 4 ++ r.lba2 ++ r.lba1 ++ r.lba0).toNat

/-- `ata_read` and `ata_write` up to the command, `ATA_CMD_READ` or `ATA_CMD_WRITE`; `none` if they
return `false`. -/
def ataRequest (cmd : BitVec 8) (slave : BitVec 32) (drv : AtaDrive) (lba : BitVec 32)
    (count : BitVec 8) : Option Registers :=
  (ataSectors drv lba count).map fun _ =>
    { drive := (0xE0#32 ||| slave <<< 4 ||| (lba >>> 24 &&& 0xF#32)).setWidth 8
      seccount := count
      lba0 := (lba &&& 0xFF).setWidth 8
      lba1 := (lba >>> 8 &&& 0xFF).setWidth 8
      lba2 := (lba >>> 16 &&& 0xFF).setWidth 8
      cmd }

/-- `ext2_read_block` up to the command. -/
def ext2BlockRequest (slave : BitVec 32) (drv : AtaDrive) (lbaStart blockSize block : BitVec 32) :
    Option Registers :=
  let sectorsPerBlock := blockSize / 512
  ataRequest 0x20 slave drv (lbaStart + block * sectorsPerBlock) (sectorsPerBlock.setWidth 8)

/-- The request is for `count` sectors from `lba` on, and the drive has them. -/
structure Exact (drv : AtaDrive) (lba count : Nat) (r : Registers) : Prop where
  le : lba + count ≤ drv.sectors.toNat
  address : r.address = lba
  seccount : r.seccount.toNat = count

section

variable {cmd count : BitVec 8} {slave lba : BitVec 32} {drv : AtaDrive} {r : Registers}

theorem ataRequest_sum_le (h : ataRequest cmd slave drv lba count = some r) :
    (lba.toNat + count.toNat) % 2 ^ 32 ≤ drv.sectors.toNat := by
  obtain ⟨l, hl, -⟩ := Option.map_eq_some_iff.mp h
  unfold ataSectors at hl
  split at hl
  · cases hl
  split at hl
  · cases hl
  · next hle =>
    have hle := BitVec.le_def.mp (BitVec.not_lt.mp hle)
    have hcount : count.toNat < 2 ^ 32 := lt_trans count.isLt (by decide)
    rwa [BitVec.toNat_add, BitVec.zeroExtend_eq_setWidth, BitVec.toNat_setWidth,
      Nat.mod_eq_of_lt hcount] at hle

theorem ataRequest_seccount (h : ataRequest cmd slave drv lba count = some r) : r.seccount = count := by
  obtain ⟨l, -, rfl⟩ := Option.map_eq_some_iff.mp h
  rfl

theorem ataRequest_address (h : ataRequest cmd slave drv lba count = some r) :
    r.address = lba.toNat % 2 ^ 28 := by
  obtain ⟨l, -, rfl⟩ := Option.map_eq_some_iff.mp h
  rw [← BitVec.toNat_setWidth, Registers.address]
  refine congrArg BitVec.toNat (BitVec.eq_of_getLsbD_eq fun i hi => ?_)
  simp only [BitVec.getLsbD_append, BitVec.getLsbD_setWidth, BitVec.getLsbD_or, BitVec.getLsbD_and,
    BitVec.getLsbD_shiftLeft, BitVec.getLsbD_ushiftRight]
  interval_cases i <;> simp

/-- A sum below `2 ^ 32` does not wrap, and an address below `2 ^ 28` fits. -/
theorem ataRequest_exact_iff (h : ataRequest cmd slave drv lba count = some r) :
    Exact drv lba.toNat count.toNat r ↔ lba.toNat + count.toNat < 2 ^ 32 ∧ lba.toNat < 2 ^ 28 := by
  have hsum := ataRequest_sum_le h
  have haddr := ataRequest_address h
  have hdrv := drv.sectors.isLt
  constructor
  · intro hx
    have hle := hx.le
    have ha := hx.address
    omega
  · rintro ⟨hlt, hlba⟩
    rw [Nat.mod_eq_of_lt hlt] at hsum
    exact ⟨hsum, by omega, by rw [ataRequest_seccount h]⟩

end

/-- **Which requests are for the sectors that were asked for**: those whose end does not wrap and whose
start has 28 bits; and a block is found if its sector has 28 bits, computed without wrapping. -/
theorem ata_request_exact_iff (cmd : BitVec 8) (slave : BitVec 32) (drv : AtaDrive) :
    (∀ (lba : BitVec 32) (count : BitVec 8) (r : Registers), 1 ≤ count.toNat →
      ataRequest cmd slave drv lba count = some r →
      (Exact drv lba.toNat count.toNat r ↔
        lba.toNat + count.toNat < 2 ^ 32 ∧ lba.toNat < 2 ^ 28)) ∧
    ∀ (lbaStart blockSize block : BitVec 32) (r : Registers),
      ext2BlockRequest slave drv lbaStart blockSize block = some r →
      (Exact drv (lbaStart.toNat + block.toNat * (blockSize.toNat / 512)) (blockSize.toNat / 512) r ↔
        lbaStart.toNat + block.toNat * (blockSize.toNat / 512) < 2 ^ 28 ∧
          blockSize.toNat / 512 < 2 ^ 8) := by
  refine ⟨fun lba count r _ h => ataRequest_exact_iff h, fun lbaStart blockSize block r h => ?_⟩
  have hspb : (blockSize / 512).toNat = blockSize.toNat / 512 := BitVec.toNat_udiv
  have hlba : (lbaStart + block * (blockSize / 512)).toNat =
      (lbaStart.toNat + block.toNat * (blockSize.toNat / 512)) % 2 ^ 32 := by
    rw [BitVec.toNat_add, BitVec.toNat_mul, hspb, Nat.add_mod_mod]
  have hcount : ((blockSize / 512).setWidth 8).toNat = blockSize.toNat / 512 % 2 ^ 8 := by
    rw [BitVec.toNat_setWidth, hspb]
  generalize lbaStart.toNat + block.toNat * (blockSize.toNat / 512) = e at *
  constructor
  · intro hx
    have haddr := ataRequest_address h
    have hsec := congrArg BitVec.toNat (ataRequest_seccount h)
    rw [hlba, hx.address] at haddr
    rw [hcount, hx.seccount] at hsec
    omega
  · rintro ⟨he, hc⟩
    rw [Nat.mod_eq_of_lt (by omega)] at hlba
    rw [Nat.mod_eq_of_lt hc] at hcount
    rw [← hlba, ← hcount]
    exact (ataRequest_exact_iff h).mpr (by omega)

/-- Block 5 of a file system at the start of a drive. -/
theorem ata_request_exact_small : ∃ r, ext2BlockRequest 0 ⟨true, 100⟩ 0 1024 5 = some r ∧
    Exact ⟨true, 100⟩ 10 2 r := by
  obtain ⟨r, hr⟩ : ∃ r, ext2BlockRequest 0 ⟨true, 100⟩ 0 1024 5 = some r :=
    Option.isSome_iff_exists.mp (by decide)
  exact ⟨r, hr, ((ata_request_exact_iff 0x20 0 ⟨true, 100⟩).2 0 1024 5 r hr).mpr (by decide)⟩

/-- A drive of 100 sectors takes a request for sector `2 ^ 32 - 1` and transfers `2 ^ 28 - 1`; one of
`2 ^ 28 + 8` takes a request for `2 ^ 28` and transfers 0; block `2 ^ 31` is read from sector 0. -/
theorem ata_request_wrong_sector :
    (∃ r, ataRequest 0x20 0 ⟨true, 100⟩ (-1) 1 = some r ∧ r.address = 2 ^ 28 - 1) ∧
    (∃ r, ataRequest 0x30 0 ⟨true, 0x10000008⟩ 0x10000000 1 = some r ∧ r.address = 0) ∧
    ∃ r, ext2BlockRequest 0 ⟨true, 100⟩ 0 1024 0x80000000 = some r ∧ r.address = 0 := by
  refine ⟨⟨_, rfl, by decide⟩, ⟨_, rfl, by decide⟩, ⟨_, rfl, by decide⟩⟩

end Sinux.Core.Ata

import Mathlib.Algebra.GroupWithZero.Nat
import Mathlib.Data.Nat.Basic
import Mathlib.Tactic.Common

/-!
# 64-bit words and 4 KiB pages

`uint64_t` is `BitVec 64`. A byte address `a` lies in page frame `pageOf a`, and frame `f` starts at
`pageAddr f`. The lemmas turn the masks and shifts of page arithmetic into division and remainder.
-/

namespace Sinux.Lib

/-- `uint64_t`, `size_t` and pointers. -/
abbrev U64 := BitVec 64

/-- The frame number of a byte address. -/
def pageOf (a : U64) : Nat := a.toNat / 4096

/-- The first byte of frame `f`. -/
def pageAddr (f : Nat) : U64 := BitVec.ofNat 64 (f * 4096)

theorem pageAddr_toNat {f : Nat} (hf : f < 2 ^ 52) : (pageAddr f).toNat = f * 4096 := by
  unfold pageAddr
  rw [BitVec.toNat_ofNat]
  exact Nat.mod_eq_of_lt (by omega)

theorem pageOf_pageAddr {f : Nat} (hf : f < 2 ^ 52) : pageOf (pageAddr f) = f := by
  unfold pageOf
  rw [pageAddr_toNat hf]
  omega

theorem pageAddr_inj {f g : Nat} (hf : f < 2 ^ 52) (hg : g < 2 ^ 52)
    (h : pageAddr f = pageAddr g) : f = g := by
  rw [← pageOf_pageAddr hf, h, pageOf_pageAddr hg]

theorem pageAddr_eq_zero {f : Nat} (hf : f < 2 ^ 52) : pageAddr f = 0 ↔ f = 0 := by
  constructor
  · intro h
    have := pageOf_pageAddr hf
    rw [h] at this
    simpa [pageOf] using this.symm
  · rintro rfl
    rfl

theorem pageOf_lt (a : U64) : pageOf a < 2 ^ 52 := by
  unfold pageOf
  omega

theorem wordIdx_lt (a : U64) : a.toNat % 4096 / 8 < 512 := by
  omega

/-- The address of a page. -/
def Aligned (p : U64) : Prop := pageAddr (pageOf p) = p

theorem Aligned.toNat {p : U64} (h : Aligned p) : p.toNat = pageOf p * 4096 := by
  rw [← pageAddr_toNat (pageOf_lt p), h]

theorem Aligned.inj {p q : U64} (hp : Aligned p) (hq : Aligned q) (h : pageOf p = pageOf q) :
    p = q := by
  rw [← hp, h, hq]

theorem aligned_pageAddr {f : Nat} (hf : f < 2 ^ 52) : Aligned (pageAddr f) := by
  unfold Aligned
  rw [pageOf_pageAddr hf]

/-- Page `g` has a byte of the block of `size` bytes at `p`. -/
def Overlaps (p size : U64) (g : Nat) : Prop :=
  p.toNat < (g + 1) * 4096 ∧ g * 4096 < p.toNat + size.toNat

theorem overlaps_pageAddr {f : Nat} (hf : f < 2 ^ 52) (size : U64) (g : Nat) :
    Overlaps (pageAddr f) size g ↔ f ≤ g ∧ g < f + (size.toNat + 4095) / 4096 := by
  unfold Overlaps
  rw [pageAddr_toNat hf]
  omega

/-! ## The page mask -/

/-- `x & ~0xFFF`. -/
def pageMask (x : U64) : U64 := x &&& ~~~0xFFF#64

theorem lowMask_toNat {w : Nat} (x : BitVec w) (k : Nat) :
    (x &&& ~~~(BitVec.ofNat w (2 ^ k - 1))).toNat = x.toNat / 2 ^ k * 2 ^ k := by
  have hlt : x.toNat / 2 ^ k * 2 ^ k < 2 ^ w :=
    Nat.lt_of_le_of_lt (Nat.div_mul_le_self _ _) x.isLt
  have hbits : x &&& ~~~(BitVec.ofNat w (2 ^ k - 1)) =
      BitVec.ofNat w (x.toNat / 2 ^ k * 2 ^ k) := by
    apply BitVec.eq_of_getLsbD_eq
    intro i hi
    rw [BitVec.getLsbD_and, BitVec.getLsbD_not, BitVec.getLsbD_ofNat, BitVec.getLsbD_ofNat,
      Nat.testBit_two_pow_sub_one, ← Nat.shiftRight_eq_div_pow, ← Nat.shiftLeft_eq,
      Nat.testBit_shiftLeft, Nat.testBit_shiftRight]
    by_cases h : i < k
    · simp [h, hi, Nat.not_le.mpr h]
    · rw [Nat.add_sub_cancel' (Nat.not_lt.mp h)]
      simp [h, hi, BitVec.getLsbD, Nat.not_lt.mp h]
  rw [hbits, BitVec.toNat_ofNat, Nat.mod_eq_of_lt hlt]

theorem pageMask_eq (x : U64) : pageMask x = pageAddr (pageOf x) := by
  apply BitVec.eq_of_toNat_eq
  rw [pageAddr_toNat (pageOf_lt x)]
  exact lowMask_toNat x 12

theorem pageMask_toNat (x : U64) : (pageMask x).toNat = x.toNat / 4096 * 4096 := by
  rw [pageMask_eq, pageAddr_toNat (pageOf_lt x)]
  rfl

@[simp] theorem pageOf_pageMask (x : U64) : pageOf (pageMask x) = pageOf x := by
  rw [pageMask_eq, pageOf_pageAddr (pageOf_lt x)]

theorem pageOf_or {x y : U64} (hy : y.toNat < 4096) : pageOf (x ||| y) = pageOf x := by
  unfold pageOf
  rw [BitVec.toNat_or, show (4096 : Nat) = 2 ^ 12 from rfl, ← Nat.shiftRight_eq_div_pow,
    ← Nat.shiftRight_eq_div_pow, Nat.shiftRight_or_distrib, Nat.shiftRight_eq_div_pow y.toNat,
    Nat.div_eq_of_lt hy, Nat.or_zero]

/-! ## Table indices -/

theorem idx_toNat (v : U64) (k : Nat) :
    (v >>> k &&& 0x1FF#64).toNat = v.toNat / 2 ^ k % 512 := by
  rw [BitVec.toNat_and, BitVec.toNat_ushiftRight, Nat.shiftRight_eq_div_pow,
    show (0x1FF#64).toNat = 2 ^ 9 - 1 from rfl, Nat.and_two_pow_sub_one_eq_mod]

theorem idx_lt (v : U64) (k : Nat) : (v >>> k &&& 0x1FF#64).toNat < 512 := by
  rw [idx_toNat]
  exact Nat.mod_lt _ (by decide)

end Sinux.Lib

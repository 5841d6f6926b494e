import Sinux.Mm.Phys
import Sinux.Lib.Loop

/-!
# Bytes of physical memory

Memory is words; byte `a % 8` of the word at `a` is the byte at address `a`, the lowest first.
`kmemcpyFrom` is `kmemcpy` from a source that the copy does not write: it is given as a function of
the address. `byte_kmemcpyFrom` says what every byte is afterwards.
-/

namespace Sinux.Mm

open Function Sinux.Lib

/-- Byte `j` of a word. -/
def byteOf (w : U64) (j : Nat) : BitVec 8 := (w >>> (8 * j)).setWidth 8

/-- The word with byte `j` replaced. -/
def putByte (w : U64) (j : Nat) (b : BitVec 8) : U64 :=
  (w &&& ~~~(0xFF#64 <<< (8 * j))) ||| (b.setWidth 64 <<< (8 * j))

theorem getLsbD_byteMask (i : Nat) : (0xFF#64).getLsbD i = decide (i < 8) := by
  show (BitVec.ofNat 64 (2 ^ 8 - 1)).getLsbD i = decide (i < 8)
  rw [BitVec.getLsbD_ofNat, Nat.testBit_two_pow_sub_one]
  by_cases h : i < 8
  · simp [h, Nat.lt_trans h (by decide : 8 < 64)]
  · simp [h]

theorem byteOf_putByte (w : U64) {j k : Nat} (hj : j < 8) (hk : k < 8) (b : BitVec 8) :
    byteOf (putByte w j b) k = if k = j then b else byteOf w k := by
  apply BitVec.eq_of_getLsbD_eq
  intro i hi
  have h64 : 8 * k + i < 64 := by omega
  have hl : (byteOf (putByte w j b) k).getLsbD i =
      (w.getLsbD (8 * k + i) && !(!decide (8 * k + i < 8 * j) && decide (8 * k + i - 8 * j < 8)) ||
        (!decide (8 * k + i < 8 * j) && b.getLsbD (8 * k + i - 8 * j))) := by
    have hb : (8 * k + i - 8 * j < 64 : Bool) = true := by
      simp only [decide_eq_true_eq]
      omega
    simp only [byteOf, putByte, BitVec.getLsbD_setWidth, BitVec.getLsbD_ushiftRight,
      BitVec.getLsbD_or, BitVec.getLsbD_and, BitVec.getLsbD_not, BitVec.getLsbD_shiftLeft,
      getLsbD_byteMask, hi, h64, hb, decide_true, Bool.true_and]
  have hr : (byteOf w k).getLsbD i = w.getLsbD (8 * k + i) := by
    simp only [byteOf, BitVec.getLsbD_setWidth, BitVec.getLsbD_ushiftRight, hi, decide_true,
      Bool.true_and]
  rw [hl]
  by_cases hkj : k = j
  · subst hkj
    have hge : ¬ 8 * k + i < 8 * k := by omega
    simp [hi, hge]
  · rw [if_neg hkj, hr]
    by_cases hlt : 8 * k + i < 8 * j
    · simp [hlt]
    · have hge : 8 ≤ 8 * k + i - 8 * j := by omega
      rw [BitVec.getLsbD_of_ge b _ hge]
      simp [hge]

namespace Phys

variable {s : Phys}

/-- The word of a page that an address lies in. -/
def wordAt (a : U64) : Fin 512 := ⟨a.toNat % 4096 / 8, wordIdx_lt a⟩

/-- `*(uint8_t *)a`. -/
def byte (s : Phys) (a : U64) : BitVec 8 := byteOf (s.entry a (wordAt a)) (a.toNat % 8)

/-- `*(uint8_t *)a = b`. -/
def setByte (a : U64) (b : BitVec 8) (s : Phys) : Phys :=
  s.setEntry a (wordAt a) (putByte (s.entry a (wordAt a)) (a.toNat % 8) b)

theorem byte_congr {s' : Phys} {a : U64} (h : s'.mem (pageOf a) = s.mem (pageOf a)) :
    s'.byte a = s.byte a := by
  unfold byte entry
  rw [h]

theorem byte_setByte (a x : U64) (b : BitVec 8) :
    (s.setByte a b).byte x = if x = a then b else s.byte x := by
  have hentry : (s.setByte a b).entry x (wordAt x) =
      if pageOf x = pageOf a ∧ wordAt x = wordAt a then
        putByte (s.entry a (wordAt a)) (a.toNat % 8) b
      else s.entry x (wordAt x) := rfl
  unfold byte
  rw [hentry]
  by_cases hword : pageOf x = pageOf a ∧ wordAt x = wordAt a
  · rw [if_pos hword, byteOf_putByte _ (Nat.mod_lt _ (by decide)) (Nat.mod_lt _ (by decide))]
    have hval : x.toNat % 4096 / 8 = a.toNat % 4096 / 8 := congrArg Fin.val hword.2
    have hpage : x.toNat / 4096 = a.toNat / 4096 := hword.1
    have heq : x.toNat % 8 = a.toNat % 8 ↔ x = a :=
      ⟨fun h => BitVec.eq_of_toNat_eq (by omega), fun h => by rw [h]⟩
    rw [if_congr heq rfl rfl]
    unfold entry
    rw [hword.1, hword.2]
  · have hne : x ≠ a := fun h => hword (by rw [h]; exact ⟨rfl, rfl⟩)
    rw [if_neg hword, if_neg hne]

theorem setByte_mem {a : U64} {b : BitVec 8} {f : Nat} (h : f ≠ pageOf a) :
    (s.setByte a b).mem f = s.mem f :=
  Radix.store_table h

theorem byte_kmemsetPage (page x : U64) :
    (s.kmemsetPage page).byte x = if pageOf x = pageOf page then 0 else s.byte x := by
  by_cases h : pageOf x = pageOf page
  · rw [if_pos h]
    have hzero : (s.kmemsetPage page).entry x (wordAt x) = 0#64 := by
      show update s.mem (pageOf page) (fun _ => 0) (pageOf x) (wordAt x) = 0#64
      rw [h, update_self]
      rfl
    rw [byte, hzero, byteOf, BitVec.zero_ushiftRight]
    rfl
  · rw [if_neg h]
    exact byte_congr (update_of_ne h _ _)

/-- `kmemcpy(dst, src, n)`, the source given by `view`. -/
def kmemcpyFrom (view : U64 → BitVec 8) (dst src : U64) (n : Nat) (s : Phys) : Phys :=
  forUpTo n (fun k s => s.setByte (dst + BitVec.ofNat 64 k) (view (src + BitVec.ofNat 64 k))) s

variable {view : U64 → BitVec 8} {dst src : U64} {n : Nat}

theorem kmemcpyFrom_pmm : (kmemcpyFrom view dst src n s).pmm = s.pmm :=
  forUpTo_inv (fun _ (t : Phys) => t.pmm = s.pmm) _ rfl fun _ _ h => h

theorem kmemcpyFrom_mem {f : Nat} (h : ∀ k < n, f ≠ pageOf (dst + BitVec.ofNat 64 k)) :
    (kmemcpyFrom view dst src n s).mem f = s.mem f :=
  forUpTo_inv (fun _ (t : Phys) => t.mem f = s.mem f) _ rfl fun k _ ht =>
    (setByte_mem (h k k.isLt)).trans ht

theorem byte_kmemcpyFrom (hn : n ≤ 2 ^ 64) (x : U64) :
    (kmemcpyFrom view dst src n s).byte x =
      if (x - dst).toNat < n then view (src + (x - dst)) else s.byte x := by
  refine forUpTo_inv (fun k (t : Phys) => t.byte x =
    if (x - dst).toNat < k then view (src + (x - dst)) else s.byte x) _ rfl fun k t ht => ?_
  have hk : (BitVec.ofNat 64 k).toNat = k := by
    rw [BitVec.toNat_ofNat, Nat.mod_eq_of_lt (by omega)]
  rw [byte_setByte, ht]
  by_cases hx : x = dst + BitVec.ofNat 64 k
  · have hsub : x - dst = BitVec.ofNat 64 k := by
      rw [hx, BitVec.add_comm, BitVec.add_sub_cancel]
    rw [if_pos hx, hsub, hk, if_pos (Nat.lt_succ_self _)]
  · have hne : (x - dst).toNat ≠ k := fun h => hx (by
      rw [← h, BitVec.ofNat_toNat, BitVec.setWidth_eq, BitVec.add_comm, BitVec.sub_add_cancel])
    rw [if_neg hx]
    exact if_congr (by omega) rfl rfl

end Phys

end Sinux.Mm

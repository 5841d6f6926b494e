import Sinux.Mm.Phys
import Sinux.Lib.Loop
import Mathlib.Data.Fintype.Sigma
import Mathlib.Tactic.DeriveFintype

/-!
# Four-level page tables (`mm/vmm.c`)

The functions of `vmm.c` that read and write page tables, as functions on physical memory. The
static variable `kernel_pml4` is a parameter. The nested loops of `vmm_destroy_pml4` and
`vmm_clone_pml4` are one definition per level, each reading its table when it is reached, as the C
does. `invlpg` has no effect on memory.

`VPage` is a virtual page as its four table indices. `vpageOf_virtOf` says that the address rebuilt
by `vmm_clone_pml4` decomposes into the indices it was built from.
-/

namespace Sinux.Mm

open Sinux.Lib

/-- `VMM_PRESENT`. -/
def vmmPresent : U64 := 0x1

/-- `VMM_WRITABLE`. -/
def vmmWritable : U64 := 0x2

/-- `VMM_USER`. -/
def vmmUser : U64 := 0x4

/-- `VMM_HUGE`. -/
def vmmHuge : U64 := 0x80

/-- `VMM_NX`. -/
def vmmNx : U64 := 0x8000000000000000

/-- `(virt >> k) & 0x1FF`. -/
def idxAt (virt : U64) (k : Nat) : Fin 512 := ⟨(virt >>> k &&& 0x1FF#64).toNat, idx_lt virt k⟩

/-- `get_or_alloc`. -/
def getOrAlloc (table : U64) (idx : Fin 512) (flags : U64) (s : Phys) : U64 × Phys :=
  if s.entry table idx &&& vmmPresent = 0 then
    let (page, s) := s.alloc
    if page = 0 then (0, s)
    else
      let s := s.kmemsetPage page
      let s := s.setEntry table idx (page ||| flags)
      (pageMask (s.entry table idx), s)
  else (pageMask (s.entry table idx), s)

/-- The flags `vmm_map` gives the tables it creates. -/
def tblFlags (flags : U64) : U64 :=
  if flags &&& vmmUser = 0 then vmmPresent ||| vmmWritable
  else vmmPresent ||| vmmWritable ||| vmmUser

/-- The leaf entry `vmm_map` writes. -/
def leafOf (phys flags : U64) : U64 :=
  let e := pageMask phys ||| (flags &&& 0xFFF) ||| vmmPresent
  if flags &&& vmmNx = 0 then e else e ||| vmmNx

/-- `vmm_map`. -/
def vmmMap (pml4 virt phys flags : U64) (s : Phys) : Phys :=
  let (pdpt, s) := getOrAlloc pml4 (idxAt virt 39) (tblFlags flags) s
  let (pdt, s) := getOrAlloc pdpt (idxAt virt 30) (tblFlags flags) s
  let (pt, s) := getOrAlloc pdt (idxAt virt 21) (tblFlags flags) s
  s.setEntry pt (idxAt virt 12) (leafOf phys flags)

/-- `vmm_unmap`. -/
def vmmUnmap (pml4 virt : U64) (s : Phys) : Phys :=
  if s.entry pml4 (idxAt virt 39) &&& vmmPresent = 0 then s else
  let pdpt := pageMask (s.entry pml4 (idxAt virt 39))
  if s.entry pdpt (idxAt virt 30) &&& vmmPresent = 0 then s else
  let pdt := pageMask (s.entry pdpt (idxAt virt 30))
  if s.entry pdt (idxAt virt 21) &&& vmmPresent = 0 then s else
  let pt := pageMask (s.entry pdt (idxAt virt 21))
  s.setEntry pt (idxAt virt 12) 0

/-- `vmm_get_phys`. -/
def vmmGetPhys (pml4 virt : U64) (s : Phys) : U64 :=
  if s.entry pml4 (idxAt virt 39) &&& vmmPresent = 0 then 0 else
  let pdpt := pageMask (s.entry pml4 (idxAt virt 39))
  if s.entry pdpt (idxAt virt 30) &&& vmmPresent = 0 then 0 else
  let pdt := pageMask (s.entry pdpt (idxAt virt 30))
  if s.entry pdt (idxAt virt 21) &&& vmmPresent = 0 then 0 else
  let pt := pageMask (s.entry pdt (idxAt virt 21))
  pageMask (s.entry pt (idxAt virt 12))

/-- `pml4[i] = kernel_pml4[i]` at `i = 256 + k`. -/
def copyKernelEntry (pml4 kernelPml4 : U64) (k : Fin 256) (s : Phys) : Phys :=
  let i : Fin 512 := ⟨256 + k, by omega⟩
  s.setEntry pml4 i (s.entry kernelPml4 i)

/-- `vmm_new_pml4`. -/
def vmmNewPml4 (kernelPml4 : U64) (s : Phys) : U64 × Phys :=
  let (pml4, s) := s.alloc
  if pml4 = 0 then (0, s)
  else
    let s := s.kmemsetPage pml4
    if kernelPml4 = 0 then (pml4, s) else (pml4, forUpTo 256 (copyKernelEntry pml4 kernelPml4) s)

/-! ## `vmm_destroy_pml4` -/

/-- The body of the `p1` loop: a mapped frame is freed. -/
def destroyLeaf (pt : U64) (p1 : Fin 512) (s : Phys) : Phys :=
  if s.entry pt p1 &&& vmmPresent = 0 then s else s.free (pageMask (s.entry pt p1))

/-- The body of the `p2` loop. -/
def destroyPt (pdt : U64) (p2 : Fin 512) (s : Phys) : Phys :=
  if s.entry pdt p2 &&& vmmPresent = 0 then s else
  let pt := pageMask (s.entry pdt p2)
  (forUpTo 512 (destroyLeaf pt) s).free pt

/-- The body of the `p3` loop. -/
def destroyPdt (pdpt : U64) (p3 : Fin 512) (s : Phys) : Phys :=
  if s.entry pdpt p3 &&& vmmPresent = 0 then s else
  let pdt := pageMask (s.entry pdpt p3)
  (forUpTo 512 (destroyPt pdt) s).free pdt

/-- The body of the `p4` loop. -/
def destroyPdpt (pml4 : U64) (p4 : Fin 512) (s : Phys) : Phys :=
  if s.entry pml4 p4 &&& vmmPresent = 0 then s else
  let pdpt := pageMask (s.entry pml4 p4)
  (forUpTo 512 (destroyPdt pdpt) s).free pdpt

theorem userEntries_le : 256 ≤ 512 := by decide

/-- `vmm_destroy_pml4`. -/
def vmmDestroyPml4 (pml4 : U64) (s : Phys) : Phys :=
  if pml4 = 0 then s
  else (forUpTo 256 (fun p4 s => destroyPdpt pml4 (p4.castLE userEntries_le) s) s).free pml4

/-! ## `vmm_clone_pml4` -/

/-- The virtual address `vmm_clone_pml4` rebuilds from four indices. -/
def virtOf (p4 p3 p2 p1 : Fin 512) : U64 :=
  BitVec.ofNat 64 p4 <<< 39 ||| BitVec.ofNat 64 p3 <<< 30 ||| BitVec.ofNat 64 p2 <<< 21 |||
    BitVec.ofNat 64 p1 <<< 12

/-- The body of the `p1` loop; `.error` is the state in which the clone returned `NULL`. -/
def cloneLeaf (dst srcPt : U64) (p4 p3 p2 p1 : Fin 512) (s : Phys) : Except Phys Phys :=
  if s.entry srcPt p1 &&& vmmPresent = 0 then .ok s else
  let srcPhys := pageMask (s.entry srcPt p1)
  let flags := s.entry srcPt p1 &&& 0xFFF
  let (newPage, s) := s.alloc
  if newPage = 0 then .error (vmmDestroyPml4 dst s)
  else
    let s := s.kmemcpyPage newPage srcPhys
    .ok (vmmMap dst (virtOf p4 p3 p2 p1) newPage flags s)

/-- The body of the `p2` loop. -/
def clonePt (dst srcPdt : U64) (p4 p3 p2 : Fin 512) (s : Phys) : Except Phys Phys :=
  if s.entry srcPdt p2 &&& vmmPresent = 0 then .ok s else
  let srcPt := pageMask (s.entry srcPdt p2)
  forUpToM 512 (cloneLeaf dst srcPt p4 p3 p2) s

/-- The body of the `p3` loop. -/
def clonePdt (dst srcPdpt : U64) (p4 p3 : Fin 512) (s : Phys) : Except Phys Phys :=
  if s.entry srcPdpt p3 &&& vmmPresent = 0 then .ok s else
  let srcPdt := pageMask (s.entry srcPdpt p3)
  forUpToM 512 (clonePt dst srcPdt p4 p3) s

/-- The body of the `p4` loop. -/
def clonePdpt (dst src : U64) (p4 : Fin 512) (s : Phys) : Except Phys Phys :=
  if s.entry src p4 &&& vmmPresent = 0 then .ok s else
  let srcPdpt := pageMask (s.entry src p4)
  forUpToM 512 (clonePdt dst srcPdpt p4) s

/-- `vmm_clone_pml4`. -/
def vmmClonePml4 (kernelPml4 src : U64) (s : Phys) : U64 × Phys :=
  let (dst, s) := vmmNewPml4 kernelPml4 s
  if dst = 0 then (0, s)
  else
    match forUpToM 256 (fun p4 s => clonePdpt dst src (p4.castLE userEntries_le) s) s with
    | .ok s => (dst, s)
    | .error s => (0, s)

/-! ## Virtual pages -/

/-- A virtual page as its four table indices. -/
structure VPage where
  p4 : Fin 512
  p3 : Fin 512
  p2 : Fin 512
  p1 : Fin 512
  deriving DecidableEq, Fintype

namespace VPage

/-- The indices that lead to the page's table. -/
def tables (v : VPage) : List (Fin 512) := [v.p4, v.p3, v.p2]

/-- The indices that lead to the page's frame. -/
def path (v : VPage) : List (Fin 512) := [v.p4, v.p3, v.p2, v.p1]

/-- The page lies in the user half. -/
def User (v : VPage) : Prop := v.p4.val < 256

instance (v : VPage) : Decidable v.User := inferInstanceAs (Decidable (_ < _))

/-- The page number. -/
def num (v : VPage) : Nat := ((v.p4 * 512 + v.p3) * 512 + v.p2) * 512 + v.p1

theorem num_inj {v w : VPage} (h : v.num = w.num) : v = w := by
  obtain ⟨a, b, c, d⟩ := v
  obtain ⟨a', b', c', d'⟩ := w
  simp only [num] at h
  simp only [VPage.mk.injEq, Fin.ext_iff]
  omega

end VPage

/-- Bits 47..12 of an address. -/
def vpageOf (virt : U64) : VPage := ⟨idxAt virt 39, idxAt virt 30, idxAt virt 21, idxAt virt 12⟩

theorem vpageOf_num (virt : U64) : (vpageOf virt).num = virt.toNat / 4096 % 2 ^ 36 := by
  simp only [vpageOf, VPage.num, idxAt, idx_toNat]
  omega

theorem virtOf_toNat (p4 p3 p2 p1 : Fin 512) :
    (virtOf p4 p3 p2 p1).toNat = (VPage.mk p4 p3 p2 p1).num * 4096 := by
  have h4 := p4.isLt
  have h3 := p3.isLt
  have h2 := p2.isLt
  have h1 := p1.isLt
  have e : ∀ (p : Fin 512) (k : Nat), k ≤ 39 →
      (BitVec.ofNat 64 p.val <<< k).toNat = p.val <<< k := by
    intro p k hk
    have hp := p.isLt
    have hpow : 2 ^ k ≤ 2 ^ 39 := Nat.pow_le_pow_right (by decide) hk
    have hmul : p.val * 2 ^ k ≤ 511 * 2 ^ 39 := Nat.mul_le_mul (by omega) hpow
    rw [BitVec.toNat_shiftLeft, BitVec.toNat_ofNat, Nat.mod_eq_of_lt (by omega : p.val < 2 ^ 64),
      Nat.shiftLeft_eq, Nat.mod_eq_of_lt (by omega)]
  unfold virtOf
  rw [BitVec.toNat_or, BitVec.toNat_or, BitVec.toNat_or, e p4 39 (by decide), e p3 30 (by decide),
    e p2 21 (by decide), e p1 12 (by decide), Nat.or_assoc, Nat.or_assoc]
  have l1 : p1.val <<< 12 < 2 ^ 21 := by rw [Nat.shiftLeft_eq]; omega
  have l2 : p2.val <<< 21 + p1.val <<< 12 < 2 ^ 30 := by
    rw [Nat.shiftLeft_eq, Nat.shiftLeft_eq]; omega
  have l3 : p3.val <<< 30 + (p2.val <<< 21 + p1.val <<< 12) < 2 ^ 39 := by
    rw [Nat.shiftLeft_eq, Nat.shiftLeft_eq, Nat.shiftLeft_eq]; omega
  rw [← Nat.shiftLeft_add_eq_or_of_lt l1, ← Nat.shiftLeft_add_eq_or_of_lt l2,
    ← Nat.shiftLeft_add_eq_or_of_lt l3]
  simp only [Nat.shiftLeft_eq, VPage.num]
  omega

theorem vpageOf_virtOf (p4 p3 p2 p1 : Fin 512) :
    vpageOf (virtOf p4 p3 p2 p1) = ⟨p4, p3, p2, p1⟩ := by
  apply VPage.num_inj
  rw [vpageOf_num, virtOf_toNat]
  have h4 := p4.isLt
  have h3 := p3.isLt
  have h2 := p2.isLt
  have h1 := p1.isLt
  simp only [VPage.num]
  omega

end Sinux.Mm

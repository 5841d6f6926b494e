import Sinux.Fs.Ext2

/-!
# Reading back what was written to an ext2 file

A write within the file, into blocks that the inode on the disk has, is read back. Any other write is
not: the new size and the new blocks are in the caller's inode, and the next read begins with the one on
the disk.

* `ext2WriteLoop_round`: what one round of the loop can do.
* `ext2WriteLoop_frame`, `ext2WriteLoop_put`: what a write leaves alone, and what it stores.
* `ext2_write_ends`: the loop ends.
* `Ext2Ok`: what an image says of a file and its path.
* `ext2_round_trip_exact`: the round trip holds of a write exactly if it stays within the file.

**Out of scope**: blocks of more than 4096 bytes, which do not fit `block_buf`, and failing commands.
-/

namespace Sinux.Fs

open Function Sinux.Lib Sinux.Lib.Buffer

/-! ## The write loop -/

/-- The number of the block with the byte `k` behind `pos`. -/
def Ext2Fs.blockIdx (fs : Ext2Fs) (pos k : Nat) : Nat := (pos + k) % 2 ^ 64 / fs.blockSize % 2 ^ 32

section

variable {fs : Ext2Fs} {pos : Nat} {src : List Byte}

theorem ext2TakeBlock_of_ne {block : Nat → Nat} {b : Nat} (h : block b ≠ 0) (pages : List Nat) :
    ext2TakeBlock fs block pages b = some (block b, block, pages) :=
  if_pos h

theorem ext2TakeBlock_eq_none {block : Nat → Nat} {pages : List Nat} {b : Nat} :
    ext2TakeBlock fs block pages b = none ↔ block b = 0 ∧ pages = [] := by
  unfold ext2TakeBlock
  by_cases hb : block b = 0
  · cases pages <;> simp [hb]
  · simp [hb]

theorem ext2TakeBlock_some {block block' : Nat → Nat} {pages pages' : List Nat} {b blk : Nat}
    (h : ext2TakeBlock fs block pages b = some (blk, block', pages')) :
    (block b ≠ 0 ∧ blk = block b ∧ block' = block ∧ pages' = pages) ∨
    ∃ page, block b = 0 ∧ pages = page :: pages' ∧ blk = page / fs.blockSize % 2 ^ 32 ∧
      block' = update block b blk := by
  unfold ext2TakeBlock at h
  split at h
  · next hb =>
    cases h
    exact Or.inl ⟨hb, rfl, rfl, rfl⟩
  · next hb =>
    split at h
    · cases h
    · next page rest =>
      cases h
      exact Or.inr ⟨page, not_not.mp hb, rfl, rfl, rfl⟩

/-- The address is in none of the blocks that a write may use. -/
structure Spares (fs : Ext2Fs) (block : Nat → Nat) (pages : List Nat) (a : Nat) : Prop where
  block : ∀ b < 12, block b ≠ 0 → ¬fs.InBlock (block b) a
  pages : ∀ page ∈ pages, ¬fs.InBlock (page / fs.blockSize % 2 ^ 32) a

theorem Spares.take {block block' : Nat → Nat} {pages pages' : List Nat} {b blk a : Nat}
    (h : Spares fs block pages a) (hb : b < 12)
    (ht : ext2TakeBlock fs block pages b = some (blk, block', pages')) :
    Spares fs block' pages' a ∧ ¬fs.InBlock blk a := by
  rcases ext2TakeBlock_some ht with ⟨hne, rfl, rfl, rfl⟩ | ⟨page, -, rfl, rfl, rfl⟩
  · exact ⟨h, h.block b hb hne⟩
  · have hpage := h.pages page (List.mem_cons_self ..)
    refine ⟨⟨fun c hc hne => ?_, fun q hq => h.pages q (List.mem_cons_of_mem page hq)⟩, hpage⟩
    by_cases hcb : c = b
    · subst hcb
      rw [update_self]
      exact hpage
    · rw [update_of_ne hcb] at hne ⊢
      exact h.block c hc hne

/-- What one round can do: it is the last, or it fills the rest of a block. -/
theorem ext2WriteLoop_round (fs : Ext2Fs) (pos : Nat) (src : List Byte) (fuel w : Nat)
    (block : Nat → Nat) (pages : List Nat) (disk : Disk) {p b c : Nat}
    (hp : p = (pos + w) % 2 ^ 64) (hb : b = p / fs.blockSize % 2 ^ 32)
    (hc : c = min (fs.blockSize - p % fs.blockSize) (src.length - w)) :
    ((src.length ≤ w ∨ 12 ≤ b ∨ ext2TakeBlock fs block pages b = none) ∧
      ext2WriteLoop fs pos src (fuel + 1) w block pages disk = (w, disk)) ∨
    ∃ blk block' pages', w < src.length ∧ b < 12 ∧
      ext2TakeBlock fs block pages b = some (blk, block', pages') ∧
      ext2WriteLoop fs pos src (fuel + 1) w block pages disk =
        ext2WriteLoop fs pos src fuel (w + c) block' pages'
          (ext2PutBlock fs disk blk (p % fs.blockSize) ((src.drop w).take c)) := by
  subst hp hb hc
  rw [ext2WriteLoop]
  split
  · next hlt =>
    dsimp only
    split
    · next hidx => exact Or.inl ⟨Or.inr (Or.inl hidx), rfl⟩
    · next hidx =>
      split
      · next hnone => exact Or.inl ⟨Or.inr (Or.inr hnone), rfl⟩
      · next blk block' pages' hsome =>
        exact Or.inr ⟨blk, block', pages', hlt, Nat.not_le.mp hidx, hsome, rfl⟩
  · next hlt => exact Or.inl ⟨Or.inl (Nat.not_lt.mp hlt), rfl⟩

theorem le_ext2WriteLoop : ∀ (fuel w : Nat) (block : Nat → Nat) (pages : List Nat) (disk : Disk),
    w ≤ (ext2WriteLoop fs pos src fuel w block pages disk).1
  | 0, _, _, _, _ => Nat.le_refl _
  | fuel + 1, w, block, pages, disk => by
    rcases ext2WriteLoop_round fs pos src fuel w block pages disk rfl rfl rfl with
      ⟨-, heq⟩ | ⟨blk, block', pages', -, -, -, heq⟩
    · rw [heq]
    · rw [heq]
      exact (Nat.le_add_right _ _).trans (le_ext2WriteLoop fuel _ _ _ _)

theorem ext2WriteLoop_le : ∀ (fuel w : Nat) (block : Nat → Nat) (pages : List Nat) (disk : Disk),
    w ≤ src.length → (ext2WriteLoop fs pos src fuel w block pages disk).1 ≤ src.length
  | 0, _, _, _, _, hw => hw
  | fuel + 1, w, block, pages, disk, hw => by
    rcases ext2WriteLoop_round fs pos src fuel w block pages disk rfl rfl rfl with
      ⟨-, heq⟩ | ⟨blk, block', pages', -, -, -, heq⟩
    · rw [heq]
      exact hw
    · rw [heq]
      exact ext2WriteLoop_le fuel _ _ _ _ (by omega)

theorem ext2WriteLoop_frame (hv : fs.SizeOk) {a : Nat} :
    ∀ (fuel w : Nat) (block : Nat → Nat) (pages : List Nat) (disk : Disk), Spares fs block pages a →
      (ext2WriteLoop fs pos src fuel w block pages disk).2 a = disk a
  | 0, _, _, _, _, _ => rfl
  | fuel + 1, w, block, pages, disk, h => by
    rcases ext2WriteLoop_round fs pos src fuel w block pages disk rfl rfl rfl with
      ⟨-, heq⟩ | ⟨blk, block', pages', -, hidx, ht, heq⟩
    · rw [heq]
    · obtain ⟨h', hblk⟩ := h.take hidx ht
      have hoff := Nat.mod_lt ((pos + w) % 2 ^ 64) hv.pos
      rw [heq, ext2WriteLoop_frame hv fuel _ _ _ _ h', ext2PutBlock_apply hv _ _, if_neg]
      · unfold Ext2Fs.InBlock at hblk
        rw [List.length_take, List.length_drop]
        omega
      · rw [List.length_take, List.length_drop]
        omega

theorem blockIdx_next (hv : fs.SizeOk) {p : Nat}
    (hidx : p / fs.blockSize % 2 ^ 32 < 12) :
    (p + (fs.blockSize - p % fs.blockSize)) % 2 ^ 64 / fs.blockSize % 2 ^ 32 =
      p / fs.blockSize % 2 ^ 32 + 1 := by
  rcases hv with h | h | h <;> rw [h] at hidx ⊢ <;> omega

theorem blockIdx_chunk (hv : fs.SizeOk) {w i : Nat} (hw : w ≤ i)
    (hi : i < w + (fs.blockSize - (pos + w) % 2 ^ 64 % fs.blockSize)) :
    fs.blockIdx pos i = fs.blockIdx pos w := by
  unfold Ext2Fs.blockIdx
  rcases hv with h | h | h <;> rw [h] at hi ⊢ <;> omega

theorem blockIdx_of_lt {k : Nat} (h : pos + k < 2 ^ 32) :
    fs.blockIdx pos k = (pos + k) / fs.blockSize := by
  have hp : (pos + k) % 2 ^ 64 = pos + k := Nat.mod_eq_of_lt (by omega)
  rw [Ext2Fs.blockIdx, hp, Nat.mod_eq_of_lt ((Nat.div_le_self _ _).trans_lt h)]

theorem ext2WriteLoop_fuel (hv : fs.SizeOk) : ∀ (fuel w : Nat) (block : Nat → Nat) (pages : List Nat)
    (disk : Disk),
    (src.length ≤ w ∨ 12 < fuel + (pos + w) % 2 ^ 64 / fs.blockSize % 2 ^ 32) →
    ext2WriteLoop fs pos src (fuel + 1) w block pages disk =
      ext2WriteLoop fs pos src fuel w block pages disk
  | 0, w, block, pages, disk, h => by
    rw [ext2WriteLoop, ext2WriteLoop]
    split
    · dsimp only
      rw [if_pos (by omega)]
    · rfl
  | fuel + 1, w, block, pages, disk, h => by
    rw [ext2WriteLoop, ext2WriteLoop]
    split
    · next hlt =>
      dsimp only
      split
      · rfl
      · next hidx =>
        split
        · rfl
        · refine ext2WriteLoop_fuel hv fuel _ _ _ _ ?_
          generalize hc : min (fs.blockSize - (pos + w) % 2 ^ 64 % fs.blockSize) (src.length - w) = c
          by_cases hlast : c = src.length - w
          · exact Or.inl (by omega)
          · right
            have hc' : c = fs.blockSize - (pos + w) % 2 ^ 64 % fs.blockSize := by omega
            have hnext := blockIdx_next hv (Nat.not_le.mp hidx)
            rw [← hc', Nat.mod_add_mod, Nat.add_assoc] at hnext
            omega
    · rfl

end

/-! ## A write into blocks that are there -/

/-- The address of a position of the file. -/
def Ext2Fs.addr (fs : Ext2Fs) (block : Nat → Nat) (p : Nat) : Nat :=
  fs.base (block (p / fs.blockSize)) + p % fs.blockSize

/-- The position is in one of the twelve blocks and not in a hole. -/
def Ext2Fs.Backed (fs : Ext2Fs) (block : Nat → Nat) (p : Nat) : Prop :=
  p / fs.blockSize < 12 ∧ block (p / fs.blockSize) ≠ 0

theorem addr_inBlock {fs : Ext2Fs} (hv : fs.SizeOk) (block : Nat → Nat) (p : Nat) :
    fs.InBlock (block (p / fs.blockSize)) (fs.addr block p) :=
  ⟨Nat.le_add_right _ _, Nat.add_lt_add_left (Nat.mod_lt p hv.pos) _⟩

/-- The first `w` bytes of `src` are stored at `pos`, and nothing else has changed. -/
structure Put (fs : Ext2Fs) (block : Nat → Nat) (pos : Nat) (src : List Byte) (old disk : Disk)
    (w : Nat) : Prop where
  backed : ∀ i < w, fs.Backed block (pos + i)
  inside : ∀ i < w, disk (fs.addr block (pos + i)) = src.getD i 0
  outside : ∀ a, (∀ i < w, a ≠ fs.addr block (pos + i)) → disk a = old a

section

variable {fs : Ext2Fs} {pos : Nat} {src : List Byte} {block : Nat → Nat} {old : Disk}

theorem Put.round (hv : fs.SizeOk) {disk : Disk} {w c : Nat} (h : Put fs block pos src old disk w)
    (hc : (pos + w) % fs.blockSize + c ≤ fs.blockSize) (hle : w + c ≤ src.length)
    (hback : fs.Backed block (pos + w))
    (hinj : ∀ p q, p ≠ q → fs.Backed block p → fs.Backed block q → fs.addr block p ≠ fs.addr block q) :
    Put fs block pos src old
      (ext2PutBlock fs disk (block ((pos + w) / fs.blockSize)) ((pos + w) % fs.blockSize)
        ((src.drop w).take c)) (w + c) := by
  have hlen : ((src.drop w).take c).length = c := by
    rw [List.length_take, List.length_drop]
    omega
  have hsame : ∀ j < c, fs.Backed block (pos + w + j) ∧ fs.addr block (pos + w + j) =
      fs.base (block ((pos + w) / fs.blockSize)) + (pos + w) % fs.blockSize + j := by
    intro j hj
    obtain ⟨hdiv, hmod⟩ := block_div (r := pos + w) (i := j) hv.pos (by omega)
    unfold Ext2Fs.Backed Ext2Fs.addr
    rw [hdiv, hmod, Nat.add_assoc]
    exact ⟨hback, rfl⟩
  have hput := ext2PutBlock_apply hv disk (block ((pos + w) / fs.blockSize)) (hlen.symm ▸ hc)
  rw [hlen] at hput
  generalize fs.base (block ((pos + w) / fs.blockSize)) + (pos + w) % fs.blockSize = start at *
  have hcover : ∀ a, start ≤ a ∧ a < start + c → ∃ j < c, a = fs.addr block (pos + w + j) := by
    rintro a ⟨hlo, hhi⟩
    refine ⟨a - start, by omega, ?_⟩
    rw [(hsame _ (by omega)).2]
    omega
  have hnew : ∀ i < w + c, ¬i < w → ∃ j < c, i = w + j := fun i hi hold => ⟨i - w, by omega, by omega⟩
  refine ⟨fun i hi => ?_, fun i hi => ?_, fun a ha => ?_⟩
  · by_cases hold : i < w
    · exact h.backed i hold
    · obtain ⟨j, hj, rfl⟩ := hnew i hi hold
      rw [← Nat.add_assoc]
      exact (hsame j hj).1
  · by_cases hold : i < w
    · -- an earlier byte is at another address
      rw [hput, if_neg, h.inside i hold]
      intro hin
      obtain ⟨j, hj, heq⟩ := hcover _ hin
      exact hinj _ _ (by omega) (h.backed i hold) (hsame j hj).1 heq
    · obtain ⟨j, hj, rfl⟩ := hnew i hi hold
      rw [← Nat.add_assoc, hput, (hsame j hj).2, if_pos (by omega), Nat.add_sub_cancel_left,
        List.getD_eq_getElem?_getD, List.getD_eq_getElem?_getD, List.getElem?_take_of_lt hj,
        List.getElem?_drop]
  · rw [hput, if_neg, h.outside a fun i hi => ha i (by omega)]
    intro hin
    obtain ⟨j, hj, heq⟩ := hcover a hin
    exact ha (w + j) (by omega) (by rw [← Nat.add_assoc]; exact heq)

/-- A round of a write that uses no page: the last one, with why it is, or one that fills the rest of a
block that is there. -/
theorem ext2WriteLoop_backed (hv : fs.SizeOk) {pages : List Nat} {fuel w : Nat} {disk : Disk}
    (hend : pos + (ext2WriteLoop fs pos src (fuel + 1) w block pages disk).1 < 2 ^ 32)
    (hblock : ∀ i < (ext2WriteLoop fs pos src (fuel + 1) w block pages disk).1,
      block ((pos + i) / fs.blockSize) ≠ 0) {c : Nat}
    (hc : c = min (fs.blockSize - (pos + w) % fs.blockSize) (src.length - w)) :
    ((src.length ≤ w ∨ 12 ≤ (pos + w) / fs.blockSize ∨
        block ((pos + w) / fs.blockSize) = 0 ∧ pages = []) ∧
      ext2WriteLoop fs pos src (fuel + 1) w block pages disk = (w, disk)) ∨
    (w < src.length ∧ fs.Backed block (pos + w) ∧
      ext2WriteLoop fs pos src (fuel + 1) w block pages disk =
        ext2WriteLoop fs pos src fuel (w + c) block pages
          (ext2PutBlock fs disk (block ((pos + w) / fs.blockSize)) ((pos + w) % fs.blockSize)
            ((src.drop w).take c))) := by
  have hwend : w ≤ (ext2WriteLoop fs pos src (fuel + 1) w block pages disk).1 :=
    le_ext2WriteLoop _ _ _ _ _
  have hp : pos + w = (pos + w) % 2 ^ 64 := (Nat.mod_eq_of_lt (by omega)).symm
  have hidx : (pos + w) / fs.blockSize = (pos + w) / fs.blockSize % 2 ^ 32 :=
    (Nat.mod_eq_of_lt ((Nat.div_le_self _ _).trans_lt (by omega))).symm
  rcases ext2WriteLoop_round fs pos src fuel w block pages disk hp hidx hc with
    ⟨hstop, heq⟩ | ⟨blk, block', pages', hlt, hb, ht, heq⟩
  · exact Or.inl ⟨hstop.imp_right (Or.imp_right ext2TakeBlock_eq_none.mp), heq⟩
  · have hoff := Nat.mod_lt (pos + w) hv.pos
    have hnext : w + c ≤ (ext2WriteLoop fs pos src (fuel + 1) w block pages disk).1 := by
      rw [heq]
      exact le_ext2WriteLoop _ _ _ _ _
    have hne := hblock w (by omega)
    rw [ext2TakeBlock_of_ne hne] at ht
    cases ht
    exact Or.inr ⟨hlt, ⟨hb, hne⟩, heq⟩

/-- A write that used no page has stored its bytes in the blocks of the inode. -/
theorem ext2WriteLoop_put (hv : fs.SizeOk)
    (hinj : ∀ p q, p ≠ q → fs.Backed block p → fs.Backed block q → fs.addr block p ≠ fs.addr block q)
    (pages : List Nat) : ∀ (fuel w : Nat) (disk : Disk), w ≤ src.length →
    Put fs block pos src old disk w →
    pos + (ext2WriteLoop fs pos src fuel w block pages disk).1 < 2 ^ 32 →
    (∀ i < (ext2WriteLoop fs pos src fuel w block pages disk).1,
      block ((pos + i) / fs.blockSize) ≠ 0) →
    Put fs block pos src old (ext2WriteLoop fs pos src fuel w block pages disk).2
      (ext2WriteLoop fs pos src fuel w block pages disk).1 := by
  intro fuel
  induction fuel with
  | zero => exact fun w disk _ hput _ _ => hput
  | succ fuel ih =>
    intro w disk hw hput hend hblock
    have hoff := Nat.mod_lt (pos + w) hv.pos
    generalize hc : min (fs.blockSize - (pos + w) % fs.blockSize) (src.length - w) = c
    rcases ext2WriteLoop_backed hv hend hblock hc.symm with ⟨-, heq⟩ | ⟨hlt, hback, heq⟩
    · rw [heq]
      exact hput
    · rw [heq] at hend hblock ⊢
      exact ih (w + c) _ (by omega) (hput.round hv (by omega) (by omega) hback hinj) hend hblock

/-- What is written lies in the first twelve blocks, and in no hole if there is no page for it. -/
theorem ext2WriteLoop_upto (hv : fs.SizeOk) : ∀ (fuel w : Nat) (block : Nat → Nat) (pages : List Nat)
    (disk : Disk) (i : Nat), w ≤ i → i < (ext2WriteLoop fs pos src fuel w block pages disk).1 →
      fs.blockIdx pos i < 12 ∧ (pages = [] → block (fs.blockIdx pos i) ≠ 0) := by
  intro fuel
  induction fuel with
  | zero => exact fun w block pages disk i hi hlt => absurd hlt (Nat.not_lt.mpr hi)
  | succ fuel ih =>
    intro w block pages disk i hi hlt
    generalize hc : min (fs.blockSize - (pos + w) % 2 ^ 64 % fs.blockSize) (src.length - w) = c
    rcases ext2WriteLoop_round fs pos src fuel w block pages disk rfl rfl hc.symm with
      ⟨-, heq⟩ | ⟨blk, block', pages', -, hb, ht, heq⟩
    · rw [heq] at hlt
      exact absurd hlt (Nat.not_lt.mpr hi)
    · have hsame : pages = [] → block' = block ∧ pages' = [] ∧ block (fs.blockIdx pos w) ≠ 0 := by
        rintro rfl
        rcases ext2TakeBlock_some ht with ⟨hne, -, rfl, rfl⟩ | ⟨page, -, hnil, -⟩
        · exact ⟨rfl, rfl, hne⟩
        · cases hnil
      by_cases hic : i < w + c
      · -- a byte of this round
        rw [blockIdx_chunk hv hi (by omega)]
        exact ⟨hb, fun hnil => (hsame hnil).2.2⟩
      · rw [heq] at hlt
        obtain ⟨h12, hholes⟩ := ih (w + c) block' pages' _ i (Nat.le_of_not_lt hic) hlt
        refine ⟨h12, fun hnil => ?_⟩
        obtain ⟨rfl, hnil', -⟩ := hsame hnil
        exact hholes hnil'

/-- Why a write that took no page has ended. -/
theorem ext2WriteLoop_stops (hv : fs.SizeOk) (pages : List Nat) : ∀ (fuel w : Nat) (disk : Disk),
    w ≤ src.length → (w = src.length ∨ 12 < fuel + (pos + w) / fs.blockSize) →
    pos + (ext2WriteLoop fs pos src fuel w block pages disk).1 < 2 ^ 32 →
    (∀ i < (ext2WriteLoop fs pos src fuel w block pages disk).1,
      block ((pos + i) / fs.blockSize) ≠ 0) →
    let k := (ext2WriteLoop fs pos src fuel w block pages disk).1
    k = src.length ∨ 12 ≤ (pos + k) / fs.blockSize ∨
      block ((pos + k) / fs.blockSize) = 0 ∧ pages = [] := by
  intro fuel
  induction fuel with
  | zero => exact fun w disk _ hfuel _ _ => hfuel.imp_right fun h => Or.inl (by
      show 12 ≤ (pos + w) / fs.blockSize
      omega)
  | succ fuel ih =>
    intro w disk hw hfuel hend hblock
    generalize hc : min (fs.blockSize - (pos + w) % fs.blockSize) (src.length - w) = c
    rcases ext2WriteLoop_backed hv hend hblock hc.symm with ⟨hstop, heq⟩ | ⟨hlt, -, heq⟩
    · rw [heq]
      exact hstop.imp_left (Nat.le_antisymm hw)
    · rw [heq] at hend hblock ⊢
      refine ih (w + c) _ (by omega) ?_ hend hblock
      by_cases hlast : w + c = src.length
      · exact Or.inl hlast
      · right
        have hstep := block_next (r := pos + w) hv.pos
        have hc' : c = fs.blockSize - (pos + w) % fs.blockSize := by omega
        rw [← hc'] at hstep
        rw [← Nat.add_assoc, hstep]
        omega

end

/-! ## Images -/

/-- The sectors in which the inode is found. -/
def Ext2Fs.MetaAt (fs : Ext2Fs) (disk : Disk) (ino a : Nat) : Prop :=
  InSector (fs.bgdLba ino) a ∨ InSector (fs.inodeLba disk ino) a

/-- The bytes that a search in a directory reads. -/
def Ext2Fs.DirAt (fs : Ext2Fs) (disk : Disk) (dir a : Nat) : Prop :=
  fs.MetaAt disk dir a ∨ ∃ b < 12, fs.InBlock ((ext2ReadInode fs disk dir).block b) a

/-- The directories that the lookup of a path searches, from `dir` on. -/
def trail (find : Nat → Str → Option Nat) : Nat → List Str → List Nat
  | _, [] => []
  | dir, name :: path =>
    dir :: match find dir name with
      | none => []
      | some ino => trail find ino path

/-- What an image says of the file at `path`: its data blocks are apart from each other, from its inode
and from the directories above it. -/
structure Ext2Ok (fs : Ext2Fs) (disk : Disk) (path : List Str) (ino : Nat) : Prop where
  size : fs.SizeOk
  found : (ext2Open fs disk path).map Prod.fst = some ino
  apart : ∀ b < 12, ∀ c < 12, b ≠ c →
    (ext2ReadInode fs disk ino).block b ≠ 0 → (ext2ReadInode fs disk ino).block c ≠ 0 →
    ∀ a, fs.InBlock ((ext2ReadInode fs disk ino).block b) a →
      ¬fs.InBlock ((ext2ReadInode fs disk ino).block c) a
  inode : ∀ b < 12, (ext2ReadInode fs disk ino).block b ≠ 0 →
    ∀ a, fs.InBlock ((ext2ReadInode fs disk ino).block b) a → ¬fs.MetaAt disk ino a
  dirs : ∀ b < 12, (ext2ReadInode fs disk ino).block b ≠ 0 →
    ∀ a, fs.InBlock ((ext2ReadInode fs disk ino).block b) a →
      ∀ dir ∈ trail (ext2Find fs disk) 2 path, ¬fs.DirAt disk dir a

theorem foldlM_trail_congr {find find' : Nat → Str → Option Nat} {path : List Str} {dir : Nat}
    (h : ∀ d ∈ trail find dir path, ∀ name, find' d name = find d name) :
    path.foldlM find' dir = path.foldlM find dir := by
  induction path generalizing dir with
  | nil => rfl
  | cons name path ih =>
    rw [List.foldlM_cons, List.foldlM_cons, h dir List.mem_cons_self name]
    refine Option.bind_congr fun ino hfind => ih fun d hd => h d ?_
    rw [trail, hfind]
    exact List.mem_cons_of_mem dir hd

section

variable {fs : Ext2Fs} {disk disk' : Disk}

theorem ext2FindBlock_congr (hv : fs.SizeOk) {dir : Ext2Inode} {name : Str} : ∀ {bs : List Nat},
    (∀ b ∈ bs, ∀ a, fs.InBlock (dir.block b) a → disk' a = disk a) →
    ext2FindBlock fs disk' dir name bs = ext2FindBlock fs disk dir name bs
  | [], _ => rfl
  | b :: bs, h => by
    rw [ext2FindBlock, ext2FindBlock, ext2ReadBlock_congr hv (h b (List.mem_cons_self ..)),
      ext2FindBlock_congr hv fun c hc => h c (List.mem_cons_of_mem b hc)]

theorem ext2Find_congr (hv : fs.SizeOk) {dir : Nat} (h : ∀ a, fs.DirAt disk dir a → disk' a = disk a)
    (name : Str) : ext2Find fs disk' dir name = ext2Find fs disk dir name := by
  rw [ext2Find, ext2Find, ext2ReadInode_congr fun a ha => h a (Or.inl ha), ext2FindBlock_congr hv]
  intro b hb a ha
  exact h a (Or.inr ⟨b, List.mem_range.mp hb, ha⟩)

theorem foldlM_lookup_fst : ∀ (path : List Str) (dir : Nat × Inode),
    (path.foldlM (fun d name => ext2Lookup fs disk d.1 name) dir).map Prod.fst =
      path.foldlM (ext2Find fs disk) dir.1
  | [], _ => rfl
  | name :: path, dir => by
    rw [List.foldlM_cons, List.foldlM_cons, ext2Lookup]
    cases ext2Find fs disk dir.1 name with
    | none => rfl
    | some ino => exact foldlM_lookup_fst path (ino, ext2Inode fs disk ino)

theorem ext2Open_congr (hv : fs.SizeOk) {path : List Str}
    (h : ∀ d ∈ trail (ext2Find fs disk) 2 path, ∀ a, fs.DirAt disk d a → disk' a = disk a) :
    (ext2Open fs disk' path).map Prod.fst = (ext2Open fs disk path).map Prod.fst := by
  unfold ext2Open
  rw [foldlM_lookup_fst, foldlM_lookup_fst]
  exact foldlM_trail_congr fun d hd => ext2Find_congr hv (h d hd)

theorem ext2Read_one (hv : fs.SizeOk) (ino p : Nat) :
    ext2Read fs disk ino p 1 = (fileByte fs disk (ext2ReadInode fs disk ino) p).toList := by
  have hsize := ext2ReadInode_size_lt fs disk ino
  by_cases hp : p < 2 ^ 32
  · rw [ext2Read_eq hv (by omega), collect]
    cases fileByte fs disk (ext2ReadInode fs disk ino) p <;> rfl
  · have hnone : fileByte fs disk (ext2ReadInode fs disk ino) p = none := if_neg (by omega)
    rw [hnone, ext2Read, if_pos (by omega)]
    rfl

end

/-! ## The round trip -/

/-- A write of `src` at `pos` that has returned `k` and left `disk'` can be read back. -/
structure RoundTrip (fs : Ext2Fs) (disk : Disk) (path : List Str) (ino pos : Nat) (src : List Byte)
    (k : Nat) (disk' : Disk) : Prop where
  back : ext2Read fs disk' ino pos k = src.take k
  fresh : (ext2Open fs disk' path).map Prod.fst = some ino
  others : ∀ p, p < pos ∨ pos + k ≤ p → ext2Read fs disk' ino p 1 = ext2Read fs disk ino p 1
  size : (ext2ReadInode fs disk' ino).size = max (ext2ReadInode fs disk ino).size (pos + k)

/-- The `k` bytes at `pos` are bytes of the file: before its end, and not in a hole. -/
structure Within (fs : Ext2Fs) (inode : Ext2Inode) (pos k : Nat) : Prop where
  size : pos + k ≤ inode.size
  block : ∀ i < k, inode.block ((pos + i) / fs.blockSize) ≠ 0

theorem Within.mono {fs : Ext2Fs} {inode : Ext2Inode} {pos k k' : Nat} (h : Within fs inode pos k)
    (hle : k' ≤ k) : Within fs inode pos k' :=
  ⟨(Nat.add_le_add_left hle pos).trans h.size, fun i hi => h.block i (hi.trans_le hle)⟩

/-- A first part of the bytes is within the file, and the write cannot go beyond it: there are no more
bytes, the twelfth block ends, or a hole begins and there is no page. -/
def Fits (fs : Ext2Fs) (inode : Ext2Inode) (pos : Nat) (src : List Byte) (pages : List Nat) : Prop :=
  ∃ k ≤ src.length, Within fs inode pos k ∧ (k = src.length ∨ 12 ≤ (pos + k) / fs.blockSize ∨
    inode.block ((pos + k) / fs.blockSize) = 0 ∧ pages = [])

section

variable {fs : Ext2Fs} {disk : Disk} {path : List Str} {ino : Nat}

theorem within_iff_fits (hv : fs.SizeOk) (disk : Disk) (ino pos : Nat) (src : List Byte)
    (pages : List Nat) :
    Within fs (ext2ReadInode fs disk ino) pos (ext2Write fs disk ino pos src pages).1 ↔
      Fits fs (ext2ReadInode fs disk ino) pos src pages := by
  have hsize := ext2ReadInode_size_lt fs disk ino
  have hlen : (ext2Write fs disk ino pos src pages).1 ≤ src.length :=
    ext2WriteLoop_le 13 0 _ pages disk (Nat.zero_le _)
  constructor
  · intro h
    exact ⟨_, hlen, h, ext2WriteLoop_stops hv pages 13 0 disk (Nat.zero_le _)
      (Or.inr (Nat.lt_add_right _ (by decide))) (h.size.trans_lt hsize) h.block⟩
  · rintro ⟨k, hk, hwithin, hends⟩
    refine hwithin.mono (Nat.le_of_not_lt fun hlt => ?_)
    -- the byte behind the first `k` has been written
    have hpos := hwithin.size
    obtain ⟨h12, hholes⟩ := ext2WriteLoop_upto hv 13 0 _ pages disk k (Nat.zero_le k) hlt
    rw [blockIdx_of_lt (by omega)] at h12 hholes
    rcases hends with rfl | hend | ⟨hhole, hnil⟩
    · exact Nat.not_lt.mpr hlen hlt
    · exact Nat.not_lt.mpr hend h12
    · exact hholes hnil hhole

theorem Ext2Ok.addr_ne (hok : Ext2Ok fs disk path ino) {p q : Nat} (hne : p ≠ q)
    (hp : fs.Backed (ext2ReadInode fs disk ino).block p)
    (hq : fs.Backed (ext2ReadInode fs disk ino).block q) :
    fs.addr (ext2ReadInode fs disk ino).block p ≠ fs.addr (ext2ReadInode fs disk ino).block q := by
  intro heq
  by_cases hdiv : p / fs.blockSize = q / fs.blockSize
  · -- two positions of one block
    unfold Ext2Fs.addr at heq
    rw [hdiv] at heq
    have hmod := Nat.add_left_cancel heq
    have hp' := Nat.div_add_mod p fs.blockSize
    have hq' := Nat.div_add_mod q fs.blockSize
    rw [hdiv, hmod] at hp'
    exact hne (hp'.symm.trans hq')
  · have hin := addr_inBlock hok.size (ext2ReadInode fs disk ino).block q
    rw [← heq] at hin
    exact hok.apart _ hp.1 _ hq.1 hdiv hp.2 hq.2 _ (addr_inBlock hok.size _ p) hin

theorem take_eq_map_range {src : List Byte} {k : Nat} (hk : k ≤ src.length) :
    src.take k = (List.range k).map fun i => src.getD i 0 := by
  refine List.ext_getElem (by simp [hk]) fun i h1 h2 => ?_
  have hi : i < src.length := by
    rw [List.length_take] at h1
    omega
  simp [List.getElem?_eq_getElem hi]

theorem fileByte_of_backed {inode : Ext2Inode} {p : Nat} (hsize : p < inode.size)
    (hp : fs.Backed inode.block p) :
    fileByte fs disk inode p = some (disk (fs.addr inode.block p)) := by
  rw [fileByte, if_pos ⟨hsize, hp⟩, Ext2Fs.addr]

theorem Within.roundTrip (hok : Ext2Ok fs disk path ino) {pos : Nat} {src : List Byte}
    {pages : List Nat}
    (h : Within fs (ext2ReadInode fs disk ino) pos (ext2Write fs disk ino pos src pages).1) :
    RoundTrip fs disk path ino pos src (ext2Write fs disk ino pos src pages).1
      (ext2Write fs disk ino pos src pages).2 := by
  have hlt := ext2ReadInode_size_lt fs disk ino
  have hput : Put fs (ext2ReadInode fs disk ino).block pos src disk
      (ext2Write fs disk ino pos src pages).2 (ext2Write fs disk ino pos src pages).1 :=
    ext2WriteLoop_put hok.size (fun _ _ => hok.addr_ne) pages 13 0 disk (Nat.zero_le _)
      ⟨by simp, by simp, fun _ _ => rfl⟩ (h.size.trans_lt hlt) h.block
  have hk : (ext2Write fs disk ino pos src pages).1 ≤ src.length :=
    ext2WriteLoop_le 13 0 _ pages disk (Nat.zero_le _)
  have hsize := h.size
  generalize (ext2Write fs disk ino pos src pages).1 = k at *
  generalize (ext2Write fs disk ino pos src pages).2 = disk' at *
  -- what is outside the data blocks is as before
  have hframe : ∀ a, (∀ b < 12, (ext2ReadInode fs disk ino).block b ≠ 0 →
      ¬fs.InBlock ((ext2ReadInode fs disk ino).block b) a) → disk' a = disk a := by
    intro a ha
    refine hput.outside a fun i hi heq => ?_
    exact ha _ (hput.backed i hi).1 (hput.backed i hi).2 (heq ▸ addr_inBlock hok.size _ _)
  have hinode : ext2ReadInode fs disk' ino = ext2ReadInode fs disk ino :=
    ext2ReadInode_congr fun a ha => hframe a fun b hb hne hin => hok.inode b hb hne a hin ha
  refine ⟨?_, ?_, fun p hp => ?_, ?_⟩
  · have hbytes : ∀ i < k, fileByte fs disk' (ext2ReadInode fs disk ino) (pos + i) =
        some (src.getD i 0) := by
      intro i hi
      rw [fileByte_of_backed (by omega) (hput.backed i hi), hput.inside i hi]
    rw [ext2Read_eq hok.size (by omega), hinode, ← Nat.add_zero k, collect_append hbytes,
      collect_zero, List.append_nil, Nat.add_zero]
    exact (take_eq_map_range hk).symm
  · rw [ext2Open_congr hok.size, hok.found]
    intro d hd a ha
    exact hframe a fun b hb hne hin => hok.dirs b hb hne a hin d hd ha
  · rw [ext2Read_one hok.size, ext2Read_one hok.size, hinode]
    unfold fileByte
    split
    · next hback =>
      rw [hput.outside]
      intro i hi
      exact hok.addr_ne (by omega) hback.2 (hput.backed i hi)
    · rfl
  · rw [hinode, max_eq_left hsize]

/-- **A write is read back exactly if it stays within the file.** The pages that `pmm_alloc` returns are
the blocks for holes; a page with the number of the block of the inode would write over the inode, so
the converse is about the others. -/
theorem ext2_round_trip_exact (hok : Ext2Ok fs disk path ino) (pos : Nat) (src : List Byte)
    (pages : List Nat) :
    (Fits fs (ext2ReadInode fs disk ino) pos src pages →
      RoundTrip fs disk path ino pos src (ext2Write fs disk ino pos src pages).1
        (ext2Write fs disk ino pos src pages).2) ∧
    ((∀ page ∈ pages, ∀ a, fs.MetaAt disk ino a → ¬fs.InBlock (page / fs.blockSize % 2 ^ 32) a) →
      (RoundTrip fs disk path ino pos src (ext2Write fs disk ino pos src pages).1
          (ext2Write fs disk ino pos src pages).2 ↔
        Fits fs (ext2ReadInode fs disk ino) pos src pages)) := by
  rw [← within_iff_fits hok.size]
  refine ⟨fun h => h.roundTrip hok, fun hpages => ⟨fun h => ?_, fun h => h.roundTrip hok⟩⟩
  · have hinode : ext2ReadInode fs (ext2Write fs disk ino pos src pages).2 ino =
        ext2ReadInode fs disk ino := by
      refine ext2ReadInode_congr fun a ha => ext2WriteLoop_frame hok.size _ _ _ _ _ ⟨?_, ?_⟩
      · exact fun b hb hne hin => hok.inode b hb hne a hin ha
      · exact fun page hpage => hpages page hpage a ha
    have hk : (ext2Write fs disk ino pos src pages).1 ≤ src.length :=
      ext2WriteLoop_le 13 0 _ pages disk (Nat.zero_le _)
    have hlt := ext2ReadInode_size_lt fs disk ino
    have hsize := h.size
    rw [hinode] at hsize
    have hend : pos + (ext2Write fs disk ino pos src pages).1 ≤ (ext2ReadInode fs disk ino).size :=
      hsize ▸ le_max_right _ _
    refine ⟨hend, fun i hi hhole => ?_⟩
    -- the read stops at the hole
    have hlen := congrArg List.length h.back
    rw [ext2Read_eq hok.size (by omega), hinode, List.length_take, Nat.min_eq_left hk] at hlen
    have hnone : fileByte fs (ext2Write fs disk ino pos src pages).2 (ext2ReadInode fs disk ino)
        (pos + i) = none := if_neg fun hb => hb.2.2 hhole
    exact Nat.not_lt.mpr (length_collect_le hi hnone) (hlen.symm ▸ hi)
end

/-! ## An image -/

/-- A file system of one group with blocks of 1024 bytes. -/
def floppyFs : Ext2Fs := ⟨0, 1024, 8, 1⟩

/-- Its disk: the inode table is block 3. The root is inode 2 with its entries in block 4; `f` is inode
3, a regular file with the bytes `abc` in block 5. -/
def floppy : Disk := fun a =>
  ([(2056, 3),
    (3200, 0xED), (3201, 0x41), (3205, 4), (3240, 4),
    (3328, 0xA4), (3329, 0x81), (3332, 3), (3368, 5),
    (4096, 3), (4101, 4), (4102, 1), (4103, 1), (4104, 0x66),
    (5120, 0x61), (5121, 0x62), (5122, 0x63)].lookup a).getD 0

theorem floppy_ok : Ext2Ok floppyFs floppy [str ['f']] 3 := by
  have hfile : ∀ b < 12, (ext2ReadInode floppyFs floppy 3).block b ≠ 0 → b = 0 := by decide +kernel
  -- the data is behind everything else
  have hdata : ∀ b < 12, (ext2ReadInode floppyFs floppy 3).block b ≠ 0 → ∀ a,
      floppyFs.InBlock ((ext2ReadInode floppyFs floppy 3).block b) a → 5120 ≤ a := by
    intro b hb hne a ha
    obtain rfl := hfile b hb hne
    have hbase : floppyFs.base ((ext2ReadInode floppyFs floppy 3).block 0) = 5120 := by decide +kernel
    exact hbase ▸ ha.1
  have hmeta : ∀ ino, (ino = 2 ∨ ino = 3) → ∀ a, floppyFs.MetaAt floppy ino a → a < 5120 := by
    have hlba : ∀ ino, (ino = 2 ∨ ino = 3) →
        floppyFs.bgdLba ino = 4 ∧ floppyFs.inodeLba floppy ino = 6 := by
      rintro ino (rfl | rfl) <;> decide +kernel
    intro ino hino a ha
    obtain ⟨hbgd, hinode⟩ := hlba ino hino
    rw [Ext2Fs.MetaAt, hbgd, hinode] at ha
    rcases ha with ha | ha <;> exact lt_of_lt_of_le ha.2 (by decide)
  have htrail : trail (ext2Find floppyFs floppy) 2 [str ['f']] = [2] := by decide +kernel
  refine ⟨Or.inl rfl, by decide +kernel, fun b hb c hc hbc hnb hnc => ?_, fun b hb hne a ha hm => ?_,
    fun b hb hne a ha d hd hdir => ?_⟩
  · exact absurd ((hfile b hb hnb).trans (hfile c hc hnc).symm) hbc
  · exact Nat.not_lt.mpr (hdata b hb hne a ha) (hmeta 3 (Or.inr rfl) a hm)
  · rw [htrail, List.mem_singleton] at hd
    subst hd
    refine Nat.not_lt.mpr (hdata b hb hne a ha) ?_
    rcases hdir with hm | ⟨c, hc, hin⟩
    · exact hmeta 2 (Or.inl rfl) a hm
    · have hbase : ∀ c < 12, floppyFs.base ((ext2ReadInode floppyFs floppy 2).block c) ≤ 4096 := by
        decide +kernel
      exact lt_of_lt_of_le hin.2 (Nat.add_le_add_right (hbase c hc) 1024)

/-- A write of one byte into the file, and one that ends at a hole. -/
theorem ext2_round_trip_exact_floppy :
    RoundTrip floppyFs floppy [str ['f']] 3 1 [0x78] (ext2Write floppyFs floppy 3 1 [0x78] []).1
      (ext2Write floppyFs floppy 3 1 [0x78] []).2 ∧
    ¬ RoundTrip floppyFs floppy [str ['f']] 3 3 [0x78] (ext2Write floppyFs floppy 3 3 [0x78] []).1
      (ext2Write floppyFs floppy 3 3 [0x78] []).2 := by
  have hsize : (ext2ReadInode floppyFs floppy 3).size = 3 := by decide +kernel
  refine ⟨(ext2_round_trip_exact floppy_ok 1 [0x78] []).1
    ⟨1, Nat.le_refl _, ⟨by rw [hsize]; decide, by decide +kernel⟩, Or.inl rfl⟩, fun h => ?_⟩
  obtain ⟨k, -, hwithin, hends⟩ := ((ext2_round_trip_exact floppy_ok 3 [0x78] []).2 nofun).mp h
  -- the file ends at 3, where its block goes on
  obtain rfl : k = 0 := by
    have hle := hwithin.size
    omega
  revert hends
  decide +kernel

/-- A write behind the end of the file returns 1, and the byte is not there; neither is a byte written
to a new block. -/
theorem ext2_write_does_not_grow :
    Ext2Ok floppyFs floppy [str ['f']] 3 ∧
    (ext2Write floppyFs floppy 3 3 [0x64] []).1 = 1 ∧
    ext2Read floppyFs (ext2Write floppyFs floppy 3 3 [0x64] []).2 3 3 1 = [] ∧
    (ext2ReadInode floppyFs (ext2Write floppyFs floppy 3 3 [0x64] []).2 3).size = 3 ∧
    (ext2Write floppyFs floppy 3 1024 [0x64] [0x400000]).1 = 1 ∧
    ext2Read floppyFs (ext2Write floppyFs floppy 3 1024 [0x64] [0x400000]).2 3 1024 1 = [] ∧
    ¬RoundTrip floppyFs floppy [str ['f']] 3 3 [0x64] (ext2Write floppyFs floppy 3 3 [0x64] []).1
      (ext2Write floppyFs floppy 3 3 [0x64] []).2 := by
  refine ⟨floppy_ok, by decide +kernel, by decide +kernel, by decide +kernel, by decide +kernel,
    by decide +kernel, fun h => ?_⟩
  have hback : ext2Read floppyFs (ext2Write floppyFs floppy 3 3 [0x64] []).2 3 3
    (ext2Write floppyFs floppy 3 3 [0x64] []).1 ≠ [0x64].take
      (ext2Write floppyFs floppy 3 3 [0x64] []).1 := by decide +kernel
  exact hback h.back

/-- **`ext2_write` ends**, for every position and length and whatever is free: with more rounds than the
thirteen of `ext2Write` its loop does the same, and it never reports more than it was given. -/
theorem ext2_write_ends {fs : Ext2Fs} (hv : fs.SizeOk) (disk : Disk) (ino pos : Nat) (src : List Byte)
    (pages : List Nat) (n : Nat) :
    ext2WriteLoop fs pos src (13 + n) 0 (ext2ReadInode fs disk ino).block pages disk =
      ext2Write fs disk ino pos src pages ∧ (ext2Write fs disk ino pos src pages).1 ≤ src.length := by
  refine ⟨?_, ext2WriteLoop_le _ _ _ _ _ (Nat.zero_le _)⟩
  induction n with
  | zero => rfl
  | succ n ih =>
    rw [← ih, ← Nat.add_assoc]
    exact ext2WriteLoop_fuel hv _ _ _ _ _ (.inr (by omega))

theorem ext2_write_ends_floppy :
    (ext2Write floppyFs floppy 3 (2 ^ 64 - 1) [0x78, 0x79] []).1 ≤ 2 :=
  (ext2_write_ends (.inl rfl) floppy 3 (2 ^ 64 - 1) [0x78, 0x79] [] 0).2

end Sinux.Fs

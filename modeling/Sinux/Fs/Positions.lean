import Sinux.Fs.Ramfs
import Sinux.Fs.Ext2Trip

/-!
# Positions near the end of 64 bits (`ramfs_write`, `ext2_read`)

`sys_read` and `sys_write` pass on any length, and the sums of a position and a length wrap.

* `WriteSafe`: a write has room for its bytes, or fails and changes nothing.
* `positions_bounded_iff`: writes are safe and reads end with the file as long as no sum wraps, and
  otherwise only by luck: a write that gets no memory, a read that comes to a missing block.

**Out of scope**: the descriptors and handles that the calls go through.
-/

namespace Sinux.Fs

open Sinux.Lib Sinux.Lib.Buffer

section

variable {ι : Type}

/-- `ramfs_write` copies its bytes into a block that has room for them, or it returns `-ENOSPC` and
changes nothing. -/
def WriteSafe (x : RamNode) (f : File ι) (buf : List Byte) (fresh : Option (List Byte)) : Prop :=
  ramfsWrite x f buf fresh = some (enospc, x, f) ∨
  ∃ x' f', ramfsWrite x f buf fresh = some (BitVec.ofNat 64 buf.length, x', f') ∧
    f.pos + buf.length ≤ x'.capacity ∧ x'.capacity ≤ x'.block.length

/-- The sums of `ramfs_write` that are used fit in 64 bits. -/
def SumsFit (x : RamNode) (pos n : Nat) : Prop :=
  pos + n < 2 ^ 64 ∧ (x.capacity < pos + n → pos + n + 4096 < 2 ^ 64)

/-- The sums fit, or the block is to grow and there is no memory. -/
def WriteFits (x : RamNode) (pos n : Nat) (fresh : Option (List Byte)) : Prop :=
  SumsFit x pos n ∨ x.capacity < (pos + n) % 2 ^ 64 ∧ fresh = none

variable {x : RamNode} {f : File ι} {buf : List Byte}

theorem ramfsStore_room (f : File ι) (buf : List Byte) (hcap : f.pos + buf.length ≤ x.capacity)
    (hblock : x.capacity ≤ x.block.length) :
    ∃ x' f', ramfsStore x f buf = some (BitVec.ofNat 64 buf.length, x', f') ∧
      x'.capacity = x.capacity ∧ x'.block.length = x.block.length := by
  have hle := hcap.trans hblock
  have hlen : (overwrite x.block f.pos buf).length = x.block.length := by
    rw [length_overwrite (by omega), Nat.max_eq_left hle]
  have hdata : ((x.data.map fun _ => overwrite x.block f.pos buf).getD []).length = x.block.length := by
    cases hd : x.data with
    | some b => exact hlen
    | none => rw [RamNode.block, hd]; rfl
  unfold ramfsStore
  rw [blit_of_le hle]
  refine ⟨_, _, rfl, ?_, ?_⟩
  · split <;> rfl
  · split <;> exact hdata

theorem ramfsWrite_safe (h : x.Ok) {fresh : Option (List Byte)}
    (hfresh : ∀ block ∈ fresh, (f.pos + buf.length + 4096) % 2 ^ 64 ≤ block.length)
    (hfit : SumsFit x f.pos buf.length) : WriteSafe x f buf fresh := by
  obtain ⟨hlt, hgrows⟩ := hfit
  unfold WriteSafe ramfsWrite
  rw [Nat.mod_eq_of_lt hlt]
  by_cases hgrow : x.capacity < f.pos + buf.length
  · rw [if_pos hgrow, Nat.mod_eq_of_lt (hgrows hgrow)] at *
    cases fresh with
    | none => exact Or.inl rfl
    | some block =>
      have hblock := hfresh block rfl
      have hsize := h.size_le
      obtain ⟨y, hy, hyok, -, -, hycap, -⟩ :=
        ramfsGrow_spec h (f.pos + buf.length + 4096) (by omega) hblock
      obtain ⟨x', f', hx', hcap', hblock'⟩ :=
        ramfsStore_room f buf (by omega) hyok.capacity_le
      have hroom := hyok.capacity_le
      refine Or.inr ⟨x', f', ?_, by omega, by omega⟩
      simp only [hy, hx', Option.bind_eq_bind, Option.bind_some]
  · rw [if_neg hgrow]
    obtain ⟨x', f', hx', hcap', hblock'⟩ :=
      ramfsStore_room f buf (by omega) h.capacity_le
    have hroom := h.capacity_le
    exact Or.inr ⟨x', f', hx', by omega, by omega⟩

/-- A write that stores its bytes has room for them only if the sums fit. -/
theorem sumsFit_of_store {y x' : RamNode} {f' : File ι} {ret : U64} (hcap : y.capacity < 2 ^ 64)
    (hstore : ramfsStore y f buf = some (ret, x', f')) (hroom : f.pos + buf.length ≤ x'.capacity) :
    f.pos + buf.length < 2 ^ 64 ∧ f.pos + buf.length ≤ y.capacity := by
  obtain ⟨-, -, heq, -⟩ := ramfsStore_keeps hstore
  omega

theorem writeFits_of_safe (hcap : x.capacity < 2 ^ 64) (hlen : buf.length < 2 ^ 64)
    {fresh : Option (List Byte)} (h : WriteSafe x f buf fresh) :
    WriteFits x f.pos buf.length fresh := by
  -- a store that returns `-ENOSPC` has moved the position
  have hmoved {y : RamNode} : ramfsStore y f buf ≠ some (enospc, x, f) := fun hs => by
    obtain ⟨hret, hpos, -⟩ := ramfsStore_keeps hs
    have hval := congrArg BitVec.toNat hret
    rw [BitVec.toNat_ofNat, Nat.mod_eq_of_lt hlen] at hval
    have henospc : BitVec.toNat enospc = 2 ^ 64 - 28 := by decide
    omega
  unfold WriteSafe ramfsWrite at h
  by_cases hgrow : x.capacity < (f.pos + buf.length) % 2 ^ 64
  · rw [if_pos hgrow] at h
    cases fresh with
    | none => exact Or.inr ⟨hgrow, rfl⟩
    | some block =>
      left
      simp only [Option.bind_eq_bind] at h
      cases hy : ramfsGrow x ((f.pos + buf.length + 4096) % 2 ^ 64) block with
      | none =>
        rw [hy] at h
        rcases h with h | ⟨x', f', h, -⟩ <;> cases h
      | some y =>
        rw [hy, Option.bind_some] at h
        rcases h with h | ⟨x', f', h, hroom, -⟩
        · exact absurd h hmoved
        · have hycap := ramfsGrow_capacity hy
          obtain ⟨hlt, hle⟩ := sumsFit_of_store (by omega) h hroom
          exact ⟨hlt, fun _ => by omega⟩
  · rw [if_neg hgrow] at h
    left
    rcases h with h | ⟨x', f', h, hroom, -⟩
    · exact absurd h hmoved
    · obtain ⟨hlt, hle⟩ := sumsFit_of_store hcap h hroom
      exact ⟨hlt, fun hlt' => by omega⟩

theorem writeSafe_iff (h : x.Ok) (hcap : x.capacity < 2 ^ 64) (hlen : buf.length < 2 ^ 64)
    {fresh : Option (List Byte)}
    (hfresh : ∀ block ∈ fresh, (f.pos + buf.length + 4096) % 2 ^ 64 ≤ block.length) :
    WriteSafe x f buf fresh ↔ WriteFits x f.pos buf.length fresh := by
  refine ⟨writeFits_of_safe hcap hlen, ?_⟩
  rintro (hfit | ⟨hgrow, rfl⟩)
  · exact ramfsWrite_safe h hfresh hfit
  · left
    rw [ramfsWrite, if_pos hgrow]

end

/-! ## Reads that are not cut -/

section

variable {fs : Ext2Fs} {disk : Disk}

/-- At block `b` the loop of `ext2_read` ends. -/
def Stops (inode : Ext2Inode) (b : Nat) : Prop := 12 ≤ b ∨ inode.block b = 0

instance (inode : Ext2Inode) (b : Nat) : Decidable (Stops inode b) :=
  inferInstanceAs (Decidable (_ ∨ _))

/-- The file is at its end, the sum fits, or the loop stops at a block that is not beyond the end. -/
def ReadFits (fs : Ext2Fs) (inode : Ext2Inode) (pos n : Nat) : Prop :=
  inode.size ≤ pos ∨ pos + n < 2 ^ 64 ∨
    ∃ b, pos / fs.blockSize ≤ b ∧ Stops inode b ∧ b * fs.blockSize ≤ inode.size

theorem ext2ReadLoop_full {inode : Ext2Inode} {pos n : Nat} {dst : List Byte} (h : n ≤ dst.length) :
    ∀ fuel, ext2ReadLoop fs disk inode pos n fuel dst = dst
  | 0 => rfl
  | _ + 1 => if_neg (Nat.not_lt.mpr h)

/-- Where the loop ends: before any block at which it stops, and at one unless all is read. -/
theorem ext2ReadLoop_end (hv : fs.SizeOk) (disk : Disk) (inode : Ext2Inode) (pos n fuel : Nat) :
    ∀ dst : List Byte, 12 < fuel + (pos + dst.length) / fs.blockSize → pos + dst.length < 2 ^ 32 →
      let q := pos + (ext2ReadLoop fs disk inode pos n fuel dst).length
      (∀ h, (pos + dst.length) / fs.blockSize ≤ h → Stops inode h →
        q ≤ max (pos + dst.length) (h * fs.blockSize)) ∧
      (pos + dst.length) / fs.blockSize ≤ q / fs.blockSize ∧
      (pos + n ≤ q ∨ Stops inode (q / fs.blockSize)) := by
  induction fuel with
  | zero =>
    intro dst hfuel _
    exact ⟨fun _ _ _ => Nat.le_max_left .., Nat.le_refl _, Or.inr (Or.inl (by
      rw [ext2ReadLoop]
      omega))⟩
  | succ fuel ih =>
    intro dst hfuel hlt
    have hbs := hv.le
    have hp : (pos + dst.length) % 2 ^ 64 = pos + dst.length := Nat.mod_eq_of_lt (by omega)
    have hidx : (pos + dst.length) / fs.blockSize % 2 ^ 32 = (pos + dst.length) / fs.blockSize :=
      Nat.mod_eq_of_lt ((Nat.div_le_self _ _).trans_lt hlt)
    have hdiv := Nat.div_add_mod (pos + dst.length) fs.blockSize
    have hmod := Nat.mod_lt (pos + dst.length) hv.pos
    rw [ext2ReadLoop]
    by_cases hn : dst.length < n
    · rw [if_pos hn]
      simp only [hp, hidx]
      by_cases hstop : Stops inode ((pos + dst.length) / fs.blockSize)
      · rw [if_pos (show 12 ≤ _ ∨ _ from hstop)]
        exact ⟨fun _ _ _ => Nat.le_max_left .., Nat.le_refl _, Or.inr hstop⟩
      · rw [if_neg (show ¬ (12 ≤ _ ∨ _) from hstop)]
        generalize hr : pos + dst.length = r at *
        generalize hc : min (fs.blockSize - r % fs.blockSize) (n - dst.length) = c
        have hlen := length_append_range dst c fun i =>
          ext2ReadBlock fs disk (inode.block (r / fs.blockSize)) (r % fs.blockSize + i)
        have hidx12 : r / fs.blockSize < 12 := Nat.lt_of_not_le fun h => hstop (Or.inl h)
        have hstep : r / fs.blockSize ≤ (pos + (dst.length + c)) / fs.blockSize :=
          Nat.div_le_div_right (by omega)
        have hbeyond : ∀ h, r / fs.blockSize ≤ h → Stops inode h →
            (r / fs.blockSize + 1) * fs.blockSize ≤ h * fs.blockSize := fun h hle hs =>
          Nat.mul_le_mul_right _ (Nat.lt_of_le_of_ne hle fun heq => hstop (heq ▸ hs))
        have hnext : (r / fs.blockSize + 1) * fs.blockSize = r + (fs.blockSize - r % fs.blockSize) := by
          rw [Nat.add_mul, Nat.mul_comm _ fs.blockSize]
          omega
        have h12 : (r / fs.blockSize + 1) * fs.blockSize ≤ 12 * 4096 := Nat.mul_le_mul hidx12 hbs
        by_cases hlast : c = fs.blockSize - r % fs.blockSize
        · have hquot : (pos + (dst.length + c)) / fs.blockSize = r / fs.blockSize + 1 := by
            rw [show pos + (dst.length + c) = r + (fs.blockSize - r % fs.blockSize) by omega,
              block_next hv.pos]
          obtain ⟨hend, hle, hdone⟩ := ih (dst ++ _) (by rw [hlen]; omega) (by rw [hlen]; omega)
          rw [hlen, hquot] at hend hle
          refine ⟨fun h hh hs => ?_, by omega, hdone⟩
          have hlt := Nat.lt_of_le_of_ne hh fun heq => hstop (heq ▸ hs)
          exact (hend h hlt hs).trans (by have := hbeyond h hh hs; omega)
        -- the rest of the bytes end inside this block
        · rw [ext2ReadLoop_full (by omega), hlen]
          exact ⟨fun h hh hs => by have := hbeyond h hh hs; omega, hstep, Or.inl (by omega)⟩
    · rw [if_neg hn]
      exact ⟨fun _ _ _ => Nat.le_max_left .., Nat.le_refl _, Or.inl (by omega)⟩

/-- Only a wrapped sum leaves `n` uncut, and the loop is then held by a block at which it stops. -/
theorem length_ext2Read_iff (hv : fs.SizeOk) (disk : Disk) (ino : Nat) {pos n : Nat}
    (hn : n < 2 ^ 64) :
    (ext2Read fs disk ino pos n).length ≤ (ext2ReadInode fs disk ino).size - pos ↔
      ReadFits fs (ext2ReadInode fs disk ino) pos n := by
  have hsize := ext2ReadInode_size_lt fs disk ino
  unfold ext2Read ReadFits
  dsimp only
  generalize ext2ReadInode fs disk ino = inode at *
  by_cases hpos : inode.size ≤ pos
  · simp [hpos]
  · rw [if_neg hpos]
    by_cases hfit : pos + n < 2 ^ 64
    · refine iff_of_true ((length_ext2ReadLoop 13 [] (Nat.zero_le _)).trans ?_) (Or.inr (Or.inl hfit))
      rw [Nat.mod_eq_of_lt hfit]
      split <;> omega
    · rw [if_neg (by omega : ¬ inode.size < (pos + n) % 2 ^ 64)]
      obtain ⟨hend, hle, hdone⟩ := ext2ReadLoop_end hv disk inode pos n 13 []
        (Nat.lt_add_right _ (by decide)) (by rw [List.length_nil]; omega)
      constructor
      · intro hlen
        have hstops := hdone.resolve_left (by omega)
        exact Or.inr (Or.inr ⟨_, hle, hstops, (Nat.div_mul_le_self _ _).trans (by omega)⟩)
      · rintro (h | h | ⟨b, hb, hs, hb'⟩)
        · exact absurd h hpos
        · exact absurd h hfit
        · have := hend b hb hs
          simp only [List.length_nil, Nat.add_zero] at this
          omega

end

/-- **Writes have room and reads end with the file** exactly when the sums fit in 64 bits, or the bytes
do not come to be copied. -/
theorem positions_bounded_iff {ι : Type} :
    (∀ (x : RamNode) (f : File ι) (buf : List Byte) (fresh : Option (List Byte)), x.Ok →
      x.capacity < 2 ^ 64 → buf.length < 2 ^ 64 →
      (∀ block ∈ fresh, (f.pos + buf.length + 4096) % 2 ^ 64 ≤ block.length) →
      (WriteSafe x f buf fresh ↔ WriteFits x f.pos buf.length fresh)) ∧
    ∀ (fs : Ext2Fs) (disk : Disk) (ino pos n : Nat), fs.SizeOk → n < 2 ^ 64 →
      ((ext2Read fs disk ino pos n).length ≤ (ext2ReadInode fs disk ino).size - pos ↔
        ReadFits fs (ext2ReadInode fs disk ino) pos n) :=
  ⟨fun _ _ _ _ h hcap hlen hfresh => writeSafe_iff h hcap hlen hfresh,
    fun _ disk ino _ _ hv hn => length_ext2Read_iff hv disk ino hn⟩

/-- A first write of three bytes, and a read with a large `n`. -/
theorem positions_bounded_small :
    WriteSafe (ramfsNode [] .reg) ⟨(), 0, 0, 1, some .ramfs⟩ [1, 2, 3] none ∧
    (ext2Read floppyFs floppy 3 1 (2 ^ 64 - 2)).length ≤ 2 := by
  have hsize : (ext2ReadInode floppyFs floppy 3).size - 1 = 2 := by decide +kernel
  refine ⟨((@positions_bounded_iff Unit).1 _ _ _ _ ⟨by decide, by decide⟩ (by decide) (by decide)
    (fun _ h => by cases h)).mpr (Or.inl ⟨by decide, fun _ => by decide⟩), ?_⟩
  exact hsize ▸ ((@positions_bounded_iff Unit).2 floppyFs floppy 3 1 (2 ^ 64 - 2) (Or.inl rfl)
    (by decide)).mpr (Or.inr (Or.inl (by decide)))

/-- With 16 bytes of capacity a write of `2 ^ 64 - 8` bytes at 8 is copied without growth; a read of
`2 ^ 64 - 1` bytes at 1 gets the rest of the block, 1023 bytes, of a file of 3. -/
theorem positions_wrap :
    (∃ x : RamNode, x.Ok ∧ ∀ buf : List Byte, buf.length = 2 ^ 64 - 8 → ∀ fresh,
      ¬WriteSafe x (⟨(), 8, 0, 1, some .ramfs⟩ : File Unit) buf fresh) ∧
    (ext2ReadInode floppyFs floppy 3).size = 3 ∧
    (ext2Read floppyFs floppy 3 1 (2 ^ 64 - 1)).length = 1023 := by
  refine ⟨⟨{ ramfsNode [] .reg with data := some (List.replicate 16 0), capacity := 16 },
    ⟨by decide, by decide⟩, fun buf hbuf fresh h => ?_⟩, by decide +kernel, by decide +kernel⟩
  have hnone : ∀ x : RamNode, x.block.length = 16 → x.capacity = 16 →
      ramfsWrite x (⟨(), 8, 0, 1, some .ramfs⟩ : File Unit) buf fresh = none := by
    intro x hblock hcap
    have hcopy : blit x.block 8 buf = none := if_neg (by rw [hblock, hbuf]; decide)
    unfold ramfsWrite
    rw [hcap, hbuf, if_neg (by decide), ramfsStore, hcopy]
    rfl
  have hw := hnone { ramfsNode [] .reg with data := some (List.replicate 16 0), capacity := 16 } rfl rfl
  unfold WriteSafe at h
  rw [hw] at h
  rcases h with h | ⟨x', f', h, -⟩ <;> cases h

end Sinux.Fs

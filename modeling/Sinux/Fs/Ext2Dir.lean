import Sinux.Fs.Ext2Trip

/-!
# Scans of ext2 directories (`ext2_lookup`, `ext2_readdir`)

Both walk the entries of a block by `rec_len`. `ext2_lookup` stops at a match, `ext2_readdir` at the
first entry with an inode, whose name it copies with `kstrncpy(out->name, de->name, de->name_len)`: a
name without a NUL in its `name_len` bytes makes the padding loop run on, and the call has no result.

* `ext2Readdir`: `ext2_readdir`; `ext2List`: calls of it until one returns 0.
* `DirEntry`, `Tiles`, `DirBlocks`: the entries of a block and of a directory.
* `Visits`: the entries that a scan looks at; `ext2FindEntry_ends`, `ext2ReaddirLoop_ends` say when
  the loops over them end.
* `ext2_scans_end_iff`: on which contents of the blocks the scans end and stay in the block.
* `ext2_listing_iff`: **a directory is listed as lookups find it** exactly if it has no live entry.

**Out of scope**: blocks larger than `block_buf`, and reads of the drive that fail.
-/

namespace Sinux.Fs

/-! ## `ext2_readdir` -/

/-- `ext2_dirent_t` with its name. -/
structure DirEntry where
  ino : Nat
  recLen : Nat
  name : List Byte
  deriving DecidableEq

/-- The entry at `off` of a block. -/
def dirEntry (buf : Buf) (off : Nat) : DirEntry :=
  ⟨u32 buf off, u16 buf (off + 4),
    (List.range (buf (off + 6)).toNat).map fun i => buf (off + 8 + i)⟩

/-- The loop of `ext2_readdir`: the name if it returns 1, and `f->pos`. -/
def ext2ReaddirLoop (fs : Ext2Fs) (buf : Buf) : Nat → Nat → Nat → Option (Option Str × Nat)
  | 0, _, _ => none
  | fuel + 1, off, pos =>
    if off < fs.blockSize then
      let de := dirEntry buf off
      if de.recLen = 0 then some (none, pos)
      else if de.ino ≠ 0 then
        (kstrncpy (cString de.name) de.name.length).map fun s => (some s, (pos + de.recLen) % 2 ^ 64)
      else ext2ReaddirLoop fs buf fuel (off + de.recLen) ((pos + de.recLen) % 2 ^ 64)
    else some (none, pos)

/-- `ext2_readdir`. -/
def ext2Readdir (fs : Ext2Fs) (disk : Disk) (ino pos : Nat) : Option (Option Str × Nat) :=
  let dir := ext2ReadInode fs disk ino
  let blockIdx := pos % 2 ^ 32 / fs.blockSize
  if 12 ≤ blockIdx ∨ dir.block blockIdx = 0 then some (none, pos)
  else ext2ReaddirLoop fs (ext2ReadBlock fs disk (dir.block blockIdx)) (fs.blockSize + 1)
    (pos % 2 ^ 32 % fs.blockSize) pos

/-- The names of at most `k` calls, the last of which returns 0. -/
def ext2List (fs : Ext2Fs) (disk : Disk) (ino : Nat) : Nat → Nat → Option (List Str)
  | 0, _ => none
  | k + 1, pos =>
    match ext2Readdir fs disk ino pos with
    | none => none
    | some (none, _) => some []
    | some (some s, pos) => (ext2List fs disk ino k pos).map (s :: ·)

/-! ## Entries -/

/-- Entries from `off` to the end of a block of `n` bytes. A name is only where there is an inode. -/
inductive Tiles (buf : Buf) (n : Nat) : Nat → List DirEntry → Prop
  | done : Tiles buf n n []
  | entry {off : Nat} {es : List DirEntry} : 8 ≤ (dirEntry buf off).recLen →
      ((dirEntry buf off).ino ≠ 0 → 8 + (dirEntry buf off).name.length ≤ (dirEntry buf off).recLen) →
      Tiles buf n (off + (dirEntry buf off).recLen) es → Tiles buf n off (dirEntry buf off :: es)

/-- The entries of the blocks of a directory, up to the first block that is missing. -/
inductive DirBlocks (fs : Ext2Fs) (disk : Disk) (dir : Ext2Inode) : List Nat → List (List DirEntry) → Prop
  | done : DirBlocks fs disk dir [] []
  | stop {b : Nat} {bs : List Nat} : dir.block b = 0 → DirBlocks fs disk dir (b :: bs) []
  | block {b : Nat} {bs : List Nat} {es : List DirEntry} {ess : List (List DirEntry)} :
      dir.block b ≠ 0 → Tiles (ext2ReadBlock fs disk (dir.block b)) fs.blockSize 0 es →
      DirBlocks fs disk dir bs ess → DirBlocks fs disk dir (b :: bs) (es :: ess)

/-- An entry that `ext2_lookup` takes for `name`. -/
def DirEntry.Named (name : Str) (e : DirEntry) : Prop := e.ino ≠ 0 ∧ e.name = bytes name

instance (name : Str) (e : DirEntry) : Decidable (e.Named name) :=
  inferInstanceAs (Decidable (e.ino ≠ 0 ∧ e.name = bytes name))

/-- The entries whose names `ext2_lookup` compares. -/
def LookupReads (name : Str) (e : DirEntry) : Prop := e.ino ≠ 0 ∧ e.name.length = name.length

/-- Where `ext2_readdir` stops. -/
def ReaddirStops (e : DirEntry) : Prop := e.recLen = 0 ∨ e.ino ≠ 0

/-- The entry whose name `ext2_readdir` copies. -/
def ReaddirReads (e : DirEntry) : Prop := e.recLen ≠ 0 ∧ e.ino ≠ 0

/-- The entries that a scan from `start` looks at; it does not go on from one at which it stops. That is
a match for `ext2_lookup`, and for `ext2_readdir` one of length 0 or with an inode. -/
inductive Visits (buf : Buf) (n : Nat) (stops : DirEntry → Prop) (start : Nat) : Nat → Prop
  | start : start < n → Visits buf n stops start start
  | next {off : Nat} : Visits buf n stops start off → ¬stops (dirEntry buf off) →
      off + (dirEntry buf off).recLen < n → Visits buf n stops start (off + (dirEntry buf off).recLen)

/-- The header of the entry at `off`, and its name if the scan looks at it, are in the block. -/
def Inside (buf : Buf) (n : Nat) (reads : DirEntry → Prop) (off : Nat) : Prop :=
  off + 8 ≤ n ∧ (reads (dirEntry buf off) → off + 8 + (dirEntry buf off).name.length ≤ n)

section

variable {fs : Ext2Fs} {disk : Disk} {buf : Buf} {n off : Nat} {es : List DirEntry}

theorem Tiles.length_le (h : Tiles buf n off es) : off + es.length ≤ n := by
  induction h with
  | done => exact Nat.le_refl _
  | entry h8 _ _ ih =>
    rw [List.length_cons]
    omega

theorem named_iff (buf : Buf) (off : Nat) (name : Str) :
    (u32 buf off ≠ 0 ∧ (buf (off + 6)).toNat = name.length ∧
      (List.range (buf (off + 6)).toNat).map (fun i => buf (off + 8 + i)) = name.map Subtype.val) ↔
    (dirEntry buf off).Named name := by
  refine and_congr_right fun _ => ⟨fun h => h.2, fun h => ⟨?_, h⟩⟩
  have hlen := congrArg List.length h
  rwa [dirEntry, List.length_map, List.length_range, length_bytes] at hlen

theorem Tiles.find (h : Tiles buf fs.blockSize off es) (name : Str) {fuel : Nat} (hf : es.length < fuel) :
    ext2FindEntry fs buf name fuel off = some ((es.find? fun e => e.Named name).map (·.ino)) := by
  induction h generalizing fuel with
  | done =>
    obtain ⟨fuel, rfl⟩ := Nat.exists_eq_succ_of_ne_zero (Nat.ne_of_gt hf)
    rw [ext2FindEntry, if_neg (Nat.lt_irrefl _)]
    rfl
  | @entry off es h8 hname hrest ih =>
    obtain ⟨fuel, rfl⟩ := Nat.exists_eq_succ_of_ne_zero (Nat.ne_of_gt (Nat.zero_lt_of_lt hf))
    have hle := hrest.length_le
    rw [ext2FindEntry, if_pos (by omega)]
    simp only [named_iff]
    by_cases hnamed : (dirEntry buf off).Named name
    · rw [if_pos hnamed, List.find?_cons_of_pos (by simpa using hnamed)]
      rfl
    · rw [if_neg hnamed, List.find?_cons_of_neg (by simpa using hnamed)]
      exact ih (Nat.lt_of_succ_lt_succ hf)

theorem Tiles.readdir (h : Tiles buf fs.blockSize off es) {fuel : Nat} (hf : es.length < fuel) (pos : Nat) :
    ∃ pos', ext2ReaddirLoop fs buf fuel off pos =
      match es.find? fun e => e.ino ≠ 0 with
      | none => some (none, pos')
      | some e => (kstrncpy (cString e.name) e.name.length).map fun s => (some s, pos') := by
  induction h generalizing fuel pos with
  | done =>
    obtain ⟨fuel, rfl⟩ := Nat.exists_eq_succ_of_ne_zero (Nat.ne_of_gt hf)
    exact ⟨pos, by rw [ext2ReaddirLoop, if_neg (Nat.lt_irrefl _)]; rfl⟩
  | @entry off es h8 hname hrest ih =>
    obtain ⟨fuel, rfl⟩ := Nat.exists_eq_succ_of_ne_zero (Nat.ne_of_gt (Nat.zero_lt_of_lt hf))
    have hle := hrest.length_le
    rw [ext2ReaddirLoop, if_pos (by omega)]
    dsimp only
    rw [if_neg (by omega)]
    by_cases hlive : (dirEntry buf off).ino ≠ 0
    · rw [if_pos hlive, List.find?_cons_of_pos (by simpa using hlive)]
      exact ⟨_, rfl⟩
    · rw [if_neg hlive, List.find?_cons_of_neg (by simpa using hlive)]
      exact ih (Nat.lt_of_succ_lt_succ hf) _

theorem length_cString_lt : ∀ {l : List Byte}, (cString l).length < l.length ↔ 0 ∈ l
  | [] => by simp [cString]
  | b :: l => by
    rw [cString, List.mem_cons]
    by_cases hb : b ≠ 0
    · rw [dif_pos hb, List.length_cons, List.length_cons, Nat.add_lt_add_iff_right, length_cString_lt,
        or_iff_right hb.symm]
    · rw [dif_neg hb]
      simp [not_not.mp hb]

theorem kstrncpy_name_isSome (l : List Byte) : (kstrncpy (cString l) l.length).isSome ↔ 0 ∈ l := by
  rw [← length_cString_lt, kstrncpy]
  split <;> simp_all

theorem DirBlocks.find {dir : Ext2Inode} {bs : List Nat} {ess : List (List DirEntry)}
    (h : DirBlocks fs disk dir bs ess) (name : Str) : ext2FindBlock fs disk dir name bs =
      some ((ess.flatten.find? fun e => e.Named name).map (·.ino)) := by
  induction h with
  | done => rfl
  | stop h0 => rw [ext2FindBlock, if_pos h0]; rfl
  | @block b bs es ess hne ht _ ih =>
    have hle := ht.length_le
    rw [ext2FindBlock, if_neg hne, ht.find name (by omega), List.flatten_cons, List.find?_append]
    cases es.find? fun e => e.Named name with
    | none => exact ih
    | some e => rfl

end

/-! ## Corrupt blocks -/

section

variable {fs : Ext2Fs} {disk : Disk} {buf : Buf} {stops : DirEntry → Prop} {off : Nat}

theorem visits_of_ge {n o : Nat} (hn : n ≤ off) : ¬Visits buf n stops off o := by
  intro h
  induction h with
  | start hlt => omega
  | next _ _ _ ih => exact ih

/-- A scan looks at the entry at which it starts, and then at those behind it. -/
theorem visits_iff {n o : Nat} (hlt : off < n) : Visits buf n stops off o ↔
    o = off ∨ ¬stops (dirEntry buf off) ∧
      Visits buf n stops (off + (dirEntry buf off).recLen) o := by
  constructor
  · intro h
    induction h with
    | start _ => exact Or.inl rfl
    | next _ hs hn ih =>
      rcases ih with rfl | ⟨hs', hv⟩
      · exact Or.inr ⟨hs, .start hn⟩
      · exact Or.inr ⟨hs', .next hv hs hn⟩
  · rintro (rfl | ⟨hs, hv⟩)
    · exact .start hlt
    · induction hv with
      | start hn => exact .next (.start hlt) hs hn
      | next _ hs' hn ih => exact .next ih hs' hn

theorem ext2FindEntry_stuck {name : Str} (hoff : off < fs.blockSize)
    (hnot : ¬(dirEntry buf off).Named name) (hrec : (dirEntry buf off).recLen = 0) (fuel : Nat) :
    ext2FindEntry fs buf name fuel off = none := by
  induction fuel with
  | zero => rfl
  | succ fuel ih =>
    rw [ext2FindEntry, if_pos hoff]
    simp only [named_iff]
    rw [if_neg hnot, show u16 buf (off + 4) = 0 from hrec]
    exact ih

theorem ext2FindEntry_past (h : fs.blockSize ≤ off) (name : Str) (fuel : Nat) :
    ext2FindEntry fs buf name (fuel + 1) off = some none := by
  rw [ext2FindEntry, if_neg (Nat.not_lt.mpr h)]

/-- **The loop of `ext2_lookup` over a block** ends if every entry that it looks at and passes has a
length; it finds nothing if none of them is a match. -/
theorem ext2FindEntry_ends (name : Str) {fuel off : Nat} (hfuel : fs.blockSize ≤ off + fuel) :
    (ext2FindEntry fs buf name (fuel + 1) off ≠ none ↔
      ∀ o, Visits buf fs.blockSize (·.Named name) off o →
        ¬(dirEntry buf o).Named name → (dirEntry buf o).recLen ≠ 0) ∧
    (ext2FindEntry fs buf name (fuel + 1) off ≠ none →
      (ext2FindEntry fs buf name (fuel + 1) off = some none ↔
        ∀ o, Visits buf fs.blockSize (·.Named name) off o → ¬(dirEntry buf o).Named name)) := by
  induction fuel generalizing off with
  | zero =>
    rw [ext2FindEntry_past (show fs.blockSize ≤ off from hfuel)]
    simp [visits_of_ge (show fs.blockSize ≤ off from hfuel)]
  | succ fuel ih =>
    rcases Nat.lt_or_ge off fs.blockSize with hlt | hge
    · by_cases hnamed : (dirEntry buf off).Named name
      · -- the loop stops here
        have hv (o : Nat) : Visits buf fs.blockSize (·.Named name) off o ↔ o = off := by
          rw [visits_iff hlt]
          simp [hnamed]
        rw [ext2FindEntry, if_pos hlt]
        simp only [named_iff]
        rw [if_pos hnamed]
        simp [hv, hnamed]
      · by_cases hrec : (dirEntry buf off).recLen = 0
        · rw [ext2FindEntry_stuck hlt hnamed hrec]
          simp only [ne_eq, not_true_eq_false, false_iff, IsEmpty.forall_iff, and_true]
          exact fun h => h off (.start hlt) hnamed hrec
        · obtain ⟨hends, hnone⟩ := ih
            (by omega : fs.blockSize ≤ off + (dirEntry buf off).recLen + fuel)
          have hstep : ext2FindEntry fs buf name (fuel + 1 + 1) off =
              ext2FindEntry fs buf name (fuel + 1) (off + (dirEntry buf off).recLen) := by
            rw [ext2FindEntry, if_pos hlt]
            simp only [named_iff]
            rw [if_neg hnamed]
            rfl
          rw [hstep]
          simp only [visits_iff hlt, hnamed, not_false_eq_true, true_and, forall_eq_or_imp, hrec,
            ne_eq, forall_true_left]
          exact ⟨hends, hnone⟩
    · simp [ext2FindEntry_past hge, visits_of_ge hge]

theorem ext2ReaddirLoop_past (h : fs.blockSize ≤ off) (fuel pos : Nat) :
    ext2ReaddirLoop fs buf (fuel + 1) off pos = some (none, pos) := by
  rw [ext2ReaddirLoop, if_neg (Nat.not_lt.mpr h)]

/-- **The loop of `ext2_readdir`** ends if the live entry at which it stops, if any, has a NUL in its
name. -/
theorem ext2ReaddirLoop_ends {fuel off : Nat} (hfuel : fs.blockSize ≤ off + fuel) (pos : Nat) :
    ext2ReaddirLoop fs buf (fuel + 1) off pos ≠ none ↔
      ∀ o, Visits buf fs.blockSize ReaddirStops off o → ReaddirReads (dirEntry buf o) →
        0 ∈ (dirEntry buf o).name := by
  induction fuel generalizing off pos with
  | zero =>
    rw [ext2ReaddirLoop_past (show fs.blockSize ≤ off from hfuel)]
    simp [visits_of_ge (show fs.blockSize ≤ off from hfuel)]
  | succ fuel ih =>
    rcases Nat.lt_or_ge off fs.blockSize with hlt | hge
    · rw [ext2ReaddirLoop, if_pos hlt]
      simp only [visits_iff hlt, forall_eq_or_imp]
      by_cases hrec : (dirEntry buf off).recLen = 0
      · simp [ReaddirStops, ReaddirReads, hrec]
      · by_cases hino : (dirEntry buf off).ino = 0
        · rw [if_neg hrec, if_neg (not_not_intro hino), ih (by omega)]
          simp [ReaddirStops, ReaddirReads, hrec, hino]
        · rw [if_neg hrec, if_pos hino, ← Option.isSome_iff_ne_none, Option.isSome_map,
            kstrncpy_name_isSome]
          simp [ReaddirStops, ReaddirReads, hrec, hino]
    · simp [ext2ReaddirLoop_past hge, visits_of_ge hge]

end

/-- `P` holds of the blocks that `ext2_lookup` comes to: up to the first that is missing or has a
match. -/
def EachBlock (fs : Ext2Fs) (disk : Disk) (dir : Ext2Inode) (name : Str) (P : Buf → Prop) :
    List Nat → Prop
  | [] => True
  | b :: bs => dir.block b ≠ 0 → P (ext2ReadBlock fs disk (dir.block b)) ∧
      ((∀ o, Visits (ext2ReadBlock fs disk (dir.block b)) fs.blockSize (·.Named name) 0 o →
        ¬(dirEntry (ext2ReadBlock fs disk (dir.block b)) o).Named name) →
      EachBlock fs disk dir name P bs)

theorem eachBlock_ends {fs : Ext2Fs} {disk : Disk} {dir : Ext2Inode} {name : Str} {P : Buf → Prop} :
    ∀ {bs : List Nat}, ext2FindBlock fs disk dir name bs ≠ none ∧ EachBlock fs disk dir name P bs ↔
      EachBlock fs disk dir name (fun buf => P buf ∧
        ∀ o, Visits buf fs.blockSize (·.Named name) 0 o →
          ¬(dirEntry buf o).Named name → (dirEntry buf o).recLen ≠ 0) bs
  | [] => by simp [ext2FindBlock, EachBlock]
  | b :: bs => by
    rw [ext2FindBlock, EachBlock, EachBlock]
    by_cases hb : dir.block b = 0
    · simp [hb]
    · rw [if_neg hb]
      simp only [ne_eq, hb, not_false_eq_true, forall_true_left]
      generalize ext2ReadBlock fs disk (dir.block b) = buf
      obtain ⟨hends, hnone⟩ := @ext2FindEntry_ends fs buf name fs.blockSize 0 (by omega)
      rw [← hends]
      cases hr : ext2FindEntry fs buf name (fs.blockSize + 1) 0 with
      | none => simp
      | some r =>
        rw [hr] at hnone
        have hnone := hnone (Option.some_ne_none r)
        cases r with
        | none =>
          rw [← hnone, ← eachBlock_ends]
          simp only [forall_true_left, ne_eq, reduceCtorEq, not_false_eq_true, and_true]
          tauto
        | some i =>
          rw [← hnone]
          simp

section

variable (fs : Ext2Fs) (disk : Disk) (ino : Nat)

/-- `ext2_lookup` ends, and what it looks at is in the block. -/
def LookupSafe (name : Str) : Prop :=
  ext2FindBlock fs disk (ext2ReadInode fs disk ino) name (List.range 12) ≠ none ∧
  EachBlock fs disk (ext2ReadInode fs disk ino) name (fun buf =>
    ∀ o, Visits buf fs.blockSize (·.Named name) 0 o → Inside buf fs.blockSize (LookupReads name) o)
    (List.range 12)

/-- Of the blocks that `ext2_lookup` comes to: every entry from the first on, each behind the one before,
up to a match, is in the block, and has a length unless it is the match. -/
def LookupOk (name : Str) : Prop :=
  EachBlock fs disk (ext2ReadInode fs disk ino) name (fun buf =>
    (∀ o, Visits buf fs.blockSize (·.Named name) 0 o →
      Inside buf fs.blockSize (LookupReads name) o) ∧
    ∀ o, Visits buf fs.blockSize (·.Named name) 0 o →
      ¬(dirEntry buf o).Named name → (dirEntry buf o).recLen ≠ 0) (List.range 12)

/-- The block that `ext2_readdir` reads. -/
def readdirBlock (pos : Nat) : Option Buf :=
  let blockIdx := pos % 2 ^ 32 / fs.blockSize
  if 12 ≤ blockIdx ∨ (ext2ReadInode fs disk ino).block blockIdx = 0 then none
  else some (ext2ReadBlock fs disk ((ext2ReadInode fs disk ino).block blockIdx))

/-- `ext2_readdir` ends, and what it looks at is in the block. -/
def ReaddirSafe (pos : Nat) : Prop :=
  ext2Readdir fs disk ino pos ≠ none ∧ ∀ buf ∈ readdirBlock fs disk ino pos, ∀ o,
    Visits buf fs.blockSize ReaddirStops (pos % 2 ^ 32 % fs.blockSize) o →
      Inside buf fs.blockSize ReaddirReads o

/-- Every entry from the position on, up to one without a length or with an inode, is in the block, and
the name of the last has a NUL if it is copied. -/
def ReaddirOk (pos : Nat) : Prop :=
  ∀ buf ∈ readdirBlock fs disk ino pos, ∀ o,
    Visits buf fs.blockSize ReaddirStops (pos % 2 ^ 32 % fs.blockSize) o →
      Inside buf fs.blockSize ReaddirReads o ∧
        (ReaddirReads (dirEntry buf o) → 0 ∈ (dirEntry buf o).name)

/-- **When scans end inside the block**, for every directory, name and position and any contents of the
blocks. -/
theorem ext2_scans_end_iff :
    (∀ name, LookupSafe fs disk ino name ↔ LookupOk fs disk ino name) ∧
    ∀ pos, ReaddirSafe fs disk ino pos ↔ ReaddirOk fs disk ino pos := by
  refine ⟨fun name => eachBlock_ends, fun pos => ?_⟩
  unfold ReaddirSafe ReaddirOk ext2Readdir readdirBlock
  dsimp only
  split
  · simp
  · rw [ext2ReaddirLoop_ends (by omega)]
    simp only [Option.mem_some_iff, forall_eq']
    exact ⟨fun h o hv => ⟨h.2 o hv, h.1 o hv⟩, fun h => ⟨fun o hv => (h o hv).2, fun o hv => (h o hv).1⟩⟩

end

theorem floppyFs_dir {disk : Disk} {e : DirEntry} (hino : (ext2ReadInode floppyFs disk 2).block 0 ≠ 0)
    (hend : (ext2ReadInode floppyFs disk 2).block 1 = 0)
    (he : dirEntry (ext2ReadBlock floppyFs disk ((ext2ReadInode floppyFs disk 2).block 0)) 0 = e)
    (hrec : e.recLen = 1024) (hname : e.name.length ≤ 255) :
    Tiles (ext2ReadBlock floppyFs disk ((ext2ReadInode floppyFs disk 2).block 0)) 1024 0 [e] ∧
    DirBlocks floppyFs disk (ext2ReadInode floppyFs disk 2) (List.range 12) [[e]] := by
  have ht : Tiles (ext2ReadBlock floppyFs disk ((ext2ReadInode floppyFs disk 2).block 0)) 1024 0 [e] := by
    subst he
    refine .entry (by omega) (fun _ => by omega) ?_
    rw [hrec]
    exact .done
  exact ⟨ht, .block hino ht (.stop hend)⟩

/-- The floppy with `f` deleted. -/
def erased : Disk := fun a => if a = 4096 then 0 else floppy a

theorem erased_dir :
    Tiles (ext2ReadBlock floppyFs erased ((ext2ReadInode floppyFs erased 2).block 0)) 1024 0
      [⟨0, 1024, [0x66]⟩] ∧
    DirBlocks floppyFs erased (ext2ReadInode floppyFs erased 2) (List.range 12)
      [[⟨0, 1024, [0x66]⟩]] :=
  floppyFs_dir (by decide +kernel) (by decide +kernel) (by decide +kernel) rfl (by decide)

/-- A directory block of zeros makes `ext2_lookup` run for ever; an entry of 1020 bytes makes it look for
a header in the last 4 bytes of the block. -/
theorem ext2_scan_leaves_block :
    (∀ (name : Str) (fuel : Nat), ext2FindEntry floppyFs (fun _ => 0) name fuel 0 = none) ∧
    ∃ buf : Buf, ∀ name : Str, Visits buf floppyFs.blockSize (·.Named name) 0 1020 ∧
      ¬Inside buf floppyFs.blockSize (LookupReads name) 1020 := by
  refine ⟨fun name fuel => ext2FindEntry_stuck (by decide) (fun h => h.1 (by decide)) (by decide) fuel,
    fun i => if i = 4 then 0xFC else if i = 5 then 3 else 0, fun name => ⟨?_, fun h => ?_⟩⟩
  · exact .next (.start (by decide : 0 < 1024)) (fun h => h.1 rfl) (by decide)
  · exact absurd h.1 (by decide)

/-! ## Listings -/

/-- Calls of `ext2_readdir` list the names of the live entries in order, and `ext2_lookup` finds the
inode of the first live entry of a name. -/
def ListedAsFound (fs : Ext2Fs) (disk : Disk) (ino : Nat) (ess : List (List DirEntry)) : Prop :=
  (∃ k names, ext2List fs disk ino k 0 = some names ∧
    names.map bytes = (ess.flatten.filter fun e => e.ino ≠ 0).map (·.name)) ∧
  ∀ name, ext2Find fs disk ino name = (ess.flatten.find? fun e => e.Named name).map (·.ino)

/-- The first call: it has no result at a live entry of the first block, and else returns 0. -/
theorem DirBlocks.readdir_zero {fs : Ext2Fs} {disk : Disk} {ino : Nat} {ess : List (List DirEntry)}
    (h : DirBlocks fs disk (ext2ReadInode fs disk ino) (List.range 12) ess)
    (hnul : ∀ e ∈ ess.flatten, e.ino ≠ 0 → 0 ∉ e.name) :
    (ext2Readdir fs disk ino 0 = none ∧ ∃ e ∈ ess.flatten, e.ino ≠ 0) ∨
      ∃ pos, ext2Readdir fs disk ino 0 = some (none, pos) := by
  have hstart : ext2Readdir fs disk ino 0 =
      if (ext2ReadInode fs disk ino).block 0 = 0 then some (none, 0)
      else ext2ReaddirLoop fs (ext2ReadBlock fs disk ((ext2ReadInode fs disk ino).block 0))
        (fs.blockSize + 1) 0 0 := by
    simp [ext2Readdir]
  rw [hstart]
  generalize hl : List.range 12 = l at h
  cases h with
  | done => cases hl
  | stop h0 =>
    obtain rfl := (List.cons.inj hl).1
    exact Or.inr ⟨0, if_pos h0⟩
  | @block b bs es ess hne ht _ =>
    obtain rfl := (List.cons.inj hl).1
    rw [if_neg hne]
    have hle := ht.length_le
    obtain ⟨pos, heq⟩ := ht.readdir (by omega : es.length < fs.blockSize + 1) 0
    rw [heq]
    cases hfind : es.find? fun e => e.ino ≠ 0 with
    | none => exact Or.inr ⟨pos, rfl⟩
    | some e =>
      have hlive : e.ino ≠ 0 := by simpa using List.find?_some hfind
      have hmem : e ∈ (es :: ess).flatten :=
        List.mem_flatten.mpr ⟨es, List.mem_cons_self .., List.mem_of_find?_eq_some hfind⟩
      have hsome := mt (kstrncpy_name_isSome e.name).mp (hnul e hmem hlive)
      exact Or.inl ⟨by simpa using hsome, e, hmem, hlive⟩

/-- **A well-formed directory is listed as lookups find it** exactly if all its entries are deleted. -/
theorem ext2_listing_iff {fs : Ext2Fs} {disk : Disk} {ino : Nat} {ess : List (List DirEntry)}
    (h : DirBlocks fs disk (ext2ReadInode fs disk ino) (List.range 12) ess)
    (hnames : ∀ e ∈ ess.flatten, e.ino ≠ 0 → e.name ≠ [] ∧ 0 ∉ e.name) :
    ListedAsFound fs disk ino ess ↔ ∀ e ∈ ess.flatten, e.ino = 0 := by
  have hfind : ∀ name, ext2Find fs disk ino name =
      (ess.flatten.find? fun e => e.Named name).map (·.ino) := by
    intro name
    rw [ext2Find, h.find name, Option.join_some]
  have hfirst := h.readdir_zero fun e he hlive => (hnames e he hlive).2
  have hnil : (ess.flatten.filter fun e => e.ino ≠ 0) = [] ↔ ∀ e ∈ ess.flatten, e.ino = 0 := by
    rw [List.filter_eq_nil_iff]
    exact forall₂_congr fun e _ => by simp
  constructor
  · rintro ⟨⟨k, names, hlist, hall⟩, -⟩
    cases k with
    | zero => cases hlist
    | succ k =>
      rw [ext2List] at hlist
      rcases hfirst with ⟨hnone, -⟩ | ⟨pos, hzero⟩
      · rw [hnone] at hlist
        cases hlist
      · rw [hzero] at hlist
        obtain rfl := Option.some.inj hlist
        exact hnil.mp (List.map_eq_nil_iff.mp hall.symm)
  · intro hdead
    refine ⟨⟨1, [], ?_, by rw [hnil.mpr hdead]; rfl⟩, hfind⟩
    rcases hfirst with ⟨-, e, he, hlive⟩ | ⟨pos, hzero⟩
    · exact absurd (hdead e he) hlive
    · rw [ext2List, hzero]

/-- The floppy with `f` deleted is listed as empty. -/
theorem ext2_listing_erased : ListedAsFound floppyFs erased 2 [[⟨0, 1024, [0x66]⟩]] :=
  (ext2_listing_iff erased_dir.2 (by decide)).mpr (by decide)

/-- The root of the floppy has the entry `f`, and `ext2_readdir` has no result. -/
theorem ext2_listing_runs_on :
    DirBlocks floppyFs floppy (ext2ReadInode floppyFs floppy 2) (List.range 12)
      [[⟨3, 1024, [0x66]⟩]] ∧
    ext2Find floppyFs floppy 2 (str ['f']) = some 3 ∧ ext2Readdir floppyFs floppy 2 0 = none ∧
    ¬ListedAsFound floppyFs floppy 2 [[⟨3, 1024, [0x66]⟩]] := by
  have hnone : ext2Readdir floppyFs floppy 2 0 = none := by decide +kernel
  refine ⟨(floppyFs_dir (by decide +kernel) (by decide +kernel) (by decide +kernel) rfl (by decide)).2,
    by decide +kernel, hnone, ?_⟩
  rintro ⟨⟨k, names, hlist, -⟩, -⟩
  cases k with
  | zero => cases hlist
  | succ k =>
    rw [ext2List, hnone] at hlist
    cases hlist

end Sinux.Fs

import Sinux.Mm.PmmInit

/-!
# The memory map that `pmm_init` builds

The abstract layer: a memory map is the list of entries that the tags of the block hold, in the
order of the walk. `mapTotal` and `firstFit` say how many pages are managed and where the bitmap goes;
`Whole` pages are what is free.

* `WellFormed`: the tags lie in the block, one after the other.
* `Missed`: the bitmap has no byte in common with the block. Nothing in `pmm_init` sees to that.

Results, for every well-formed block, image and memory:

* `free_map_iff`: the free map is exact, exactly when the bitmap does not run over the end of memory
  and misses the block.
* `free_count_iff`: `free_pages` is the number of clear bits exactly when the bitmap misses the block
  and no page is counted twice.
* `block_kept_iff`: the block survives, and its pages stay in use, exactly when the bitmap misses it
  and no page of it is a whole page of the map above `reserve_end`.

**Out of scope**: a bitmap that has bytes in common with the block but leaves a byte of its first tag.
The third walk then reads tags that it changes itself as it frees pages.
-/

namespace Sinux.Mm

open Sinux.Lib Sinux.Lib.ByteMem Sinux.Core.Multiboot

/-! ## Memory maps -/

/-- `max_addr`. -/
def mapMax (es : List Entry) : U64 := es.foldl raiseMax 0

/-- `total_pages`. -/
def mapTotal (es : List Entry) : Nat := totalPagesOf (mapMax es)

/-- `bitmap_size`. -/
def mapBytes (es : List Entry) : Nat := bitmapSizeOf (mapTotal es)

/-- The place in the first entry with room for the bitmap. -/
def firstFit (K : Image) (es : List Entry) : Option U64 :=
  es.findSome? (placeIn (pageUp K.kernelEnd) (mapBytes es))

theorem mapTotal_le (es : List Entry) : mapTotal es ≤ bitmapMaxPages := totalPagesOf_le _

theorem mapBytes_le (es : List Entry) : mapBytes es ≤ 2 ^ 21 := by
  have := mapTotal_le es
  unfold bitmapMaxPages at this
  unfold mapBytes bitmapSizeOf
  omega

/-- A block with a list of tags that the walks can pass. -/
structure GoodBlock (ok : U64 → Bool) (m : Memory) (ebx : BitVec 32) (l : List U64) : Prop where
  tags : TagList m (blockEnd m (infoAddr ebx)) (infoAddr ebx + 8) l
  good : ∀ p ∈ l, TagGood ok m (blockEnd m (infoAddr ebx)) p
  readable : ∀ a, (infoAddr ebx).toNat ≤ a.toNat → a.toNat < (blockEnd m (infoAddr ebx)).toNat →
    ok a = true

/-- A well-formed tag list: every tag has a header and lies in the block, an entry of a memory-map
tag has its 24 bytes, and no usable region comes near the end of the address space. -/
structure WellFormed (m : Memory) (ebx : BitVec 32) (l : List U64) : Prop where
  tags : TagList m (blockEnd m (infoAddr ebx)) (infoAddr ebx + 8) l
  size : ∀ p ∈ l, 8 ≤ (tagSize m p).toNat ∧
    p.toNat + (tagSize m p).toNat ≤ (blockEnd m (infoAddr ebx)).toNat
  entrySize : ∀ p ∈ l, tagType m p = tagMmap → 16 ≤ (tagSize m p).toNat →
    24 ≤ (entrySize m p).toNat
  entry : ∀ e ∈ mapEntries m l, e.type = 1 → e.base.toNat + e.len.toNat + 4096 < 2 ^ 64

/-- No byte of the bitmap lies in the block. -/
def Missed (m : Memory) (ebx : BitVec 32) (bitmap : U64) (total : Nat) : Prop :=
  ∀ a, InBitmap bitmap total a →
    ¬ ((infoAddr ebx).toNat ≤ a.toNat ∧ a.toNat < (blockEnd m (infoAddr ebx)).toNat)

/-- The bitmap covers the header of the first tag. -/
def FirstCovered (ebx : BitVec 32) (bitmap : U64) (total : Nat) : Prop :=
  ∀ i < 8, InBitmap bitmap total (infoAddr ebx + 8 + BitVec.ofNat 64 i)

section

variable {ok : U64 → Bool} {m : Memory} {ebx : BitVec 32} {l : List U64}

theorem infoAddr_toNat (ebx : BitVec 32) : (infoAddr ebx).toNat = ebx.toNat := by
  have := ebx.isLt
  rw [infoAddr, BitVec.toNat_setWidth]
  omega

theorem blockEnd_toNat (m : Memory) (ebx : BitVec 32) :
    (blockEnd m (infoAddr ebx)).toNat = ebx.toNat + (word32 m (infoAddr ebx)).toNat := by
  have := ebx.isLt
  have h := infoAddr_toNat ebx
  rw [blockEnd, add_setWidth_toNat (by omega), h]

theorem blockEnd_lt (m : Memory) (ebx : BitVec 32) :
    (blockEnd m (infoAddr ebx)).toNat < 2 ^ 33 := by
  have := ebx.isLt
  have := (word32 m (infoAddr ebx)).isLt
  rw [blockEnd_toNat]
  omega

theorem firstTag_toNat (ebx : BitVec 32) : (infoAddr ebx + 8).toNat = ebx.toNat + 8 := by
  have := ebx.isLt
  have h := infoAddr_toNat ebx
  rw [show (8 : U64) = BitVec.ofNat 64 8 from rfl, add_ofNat_toNat (by omega), h]

theorem WellFormed.goodBlock (h : WellFormed m ebx l) : GoodBlock everywhere m ebx l where
  tags := h.tags
  readable := fun _ _ _ => rfl
  good := fun p hp => by
    have hsize := (h.size p hp).2
    refine ⟨fun _ => readable_everywhere _ _, fun _ h16 => by omega, fun ht hle => ?_⟩
    have h24 := h.entrySize p hp ht (by omega)
    refine ⟨fun h0 => by rw [h0] at h24; exact absurd h24 (by decide), fun k hk => ?_⟩
    rw [Nat.succ_mul] at hk
    omega

variable (hb : GoodBlock ok m ebx l)

include hb

theorem GoodBlock.walk_returns {σ : Type} {mem : σ → Memory} {placed : σ → Bool}
    {visit : σ → Entry → σ} {P : σ → Prop} {s : σ}
    (w : WalkKeeps ok mem placed id visit (infoAddr ebx) (blockEnd m (infoAddr ebx)) m P)
    (hs : P s) :
    Returns (mmapWalk ok mem placed id visit (blockEnd m (infoAddr ebx))) (infoAddr ebx + 8, s)
      ((mapEntries m l).foldl visit s) := by
  have hebx := ebx.isLt
  have h8 := firstTag_toNat ebx
  have h0 := infoAddr_toNat ebx
  rw [← foldl_tagFold]
  exact w.walk_returns hb.tags hb.good (blockEnd_lt m ebx) (by omega) (by omega) hs

theorem GoodBlock.findMax_returns :
    Returns (findMax ok (infoAddr ebx)) m (mapMax (mapEntries m l)) :=
  hb.walk_returns (P := fun _ => True)
    ⟨hb.readable, fun _ _ _ _ _ => rfl, fun _ h => h, fun _ _ h => h, nofun⟩ trivial

omit hb in
theorem foldl_or_eq_findSome (f : Entry → Option U64) (es : List Entry) (p : Option U64) :
    es.foldl (fun p e => p.or (f e)) p = p.or (es.findSome? f) := by
  induction es generalizing p with
  | nil => rw [List.foldl_nil, List.findSome?_nil, Option.or_none]
  | cons e es ih =>
    rw [List.foldl_cons, ih, Option.or_assoc, List.findSome?_cons]
    cases f e <;> rfl

theorem GoodBlock.findPlace_returns (K : Image) :
    Returns (findPlace ok (pageUp K.kernelEnd) (infoAddr ebx) (mapBytes (mapEntries m l))) m
      (firstFit K (mapEntries m l)) := by
  have w : WalkKeeps ok (fun _ => m) Option.isSome id
      (fun p e => p.or (placeIn (pageUp K.kernelEnd) (mapBytes (mapEntries m l)) e))
      (infoAddr ebx) (blockEnd m (infoAddr ebx)) m (fun _ => True) := by
    refine ⟨hb.readable, fun _ _ _ _ _ => rfl, fun _ h => h, fun _ _ h => h, fun s hs => ?_⟩
    obtain ⟨p, rfl⟩ := Option.isSome_iff_exists.mp hs
    exact ⟨rfl, fun _ => rfl⟩
  have h := hb.walk_returns w (s := none) trivial
  rw [foldl_or_eq_findSome] at h
  exact h

theorem GoodBlock.third_keeps {bitmap : U64} {total : Nat} (hmiss : Missed m ebx bitmap total) :
    WalkKeeps ok Scan.mem (fun _ => false) id (Scan.visit bitmap total) (infoAddr ebx)
      (blockEnd m (infoAddr ebx)) m
      (fun s => Agrees (infoAddr ebx) (blockEnd m (infoAddr ebx)) m s.mem) := by
  refine ⟨hb.readable, fun _ h => h, fun _ h => h, fun s e h a hlo hhi => ?_, nofun⟩
  rw [Scan.visit_frame (fun ha => hmiss a ha ⟨hlo, hhi⟩)]
  exact h a hlo hhi

omit hb in
theorem scanStart_agrees {bitmap : U64} {total : Nat} (hmiss : Missed m ebx bitmap total) :
    Agrees (infoAddr ebx) (blockEnd m (infoAddr ebx)) m (scanStart m bitmap total).mem :=
  fun a hlo hhi => scanStart_frame fun ha => hmiss a ha ⟨hlo, hhi⟩

/-- **If the bitmap misses the block** the third walk sees the memory map. -/
theorem GoodBlock.third_sees {bitmap : U64} {total : Nat} (hmiss : Missed m ebx bitmap total) :
    Sees ok Scan.mem (fun _ => false) (Scan.visit bitmap total) (blockEnd m (infoAddr ebx))
      (infoAddr ebx + 8) (scanStart m bitmap total) (mapEntries m l)
      ((mapEntries m l).foldl (Scan.visit bitmap total) (scanStart m bitmap total)) := by
  have hebx := ebx.isLt
  have h8 := firstTag_toNat ebx
  have h0 := infoAddr_toNat ebx
  exact (hb.third_keeps hmiss).sees hb.tags hb.good (blockEnd_lt m ebx) (by omega) (by omega)
    (scanStart_agrees hmiss)

omit hb in
theorem firstTag_le {endPtr ptr : U64} (h : TagList m endPtr ptr l) (hne : l ≠ []) :
    ptr + 8 ≤ endPtr := by
  cases h with
  | past => exact absurd rfl hne
  | last => exact absurd rfl hne
  | tag h => exact h

/-- **If the bitmap covers the first tag** the third walk stays there: its type and size are
`0xFFFFFFFF`, and the step is 0. -/
theorem GoodBlock.third_stuck {bitmap : U64} (hne : l ≠ [])
    (hcov : FirstCovered ebx bitmap (mapTotal (mapEntries m l))) (s : Scan) :
    ¬ Returns (releaseAll ok (infoAddr ebx) (blockEnd m (infoAddr ebx)) bitmap
      (mapTotal (mapEntries m l))) (scanStart m bitmap (mapTotal (mapEntries m l))) s := by
  have hword (j : Nat) (hj : j + 4 ≤ 8) (a : U64) (ha : a = infoAddr ebx + 8 + BitVec.ofNat 64 j) :
      word32 (scanStart m bitmap (mapTotal (mapEntries m l))).mem a = 0xFFFFFFFF := by
    refine (word32_congr (m := fun _ => 0xFF) fun i hi => ?_).trans (by simp [word32])
    rw [ha, BitVec.add_assoc, ← BitVec.ofNat_add]
    exact scanStart_covered (mapTotal_le _) (hcov (j + i) (by omega))
  have htype : tagType (scanStart m bitmap (mapTotal (mapEntries m l))).mem (infoAddr ebx + 8) =
      0xFFFFFFFF := hword 0 (by decide) _ (BitVec.add_zero _).symm
  have hsize : tagSize (scanStart m bitmap (mapTotal (mapEntries m l))).mem (infoAddr ebx + 8) =
      0xFFFFFFFF := hword 4 (by decide) _ rfl
  refine not_returns_of_stuck ⟨firstTag_le hb.tags hne, rfl⟩ ?_ ?_
  · rw [htype]
    decide
  · rw [hsize]
    decide

end

/-! ## The bitmap's place -/

section

variable {m : Memory} {ebx : BitVec 32} {l : List U64} {K : Image} {place : U64}

theorem Image.pageUp_toNat (K : Image) :
    (pageUp K.kernelEnd).toNat = (K.kernelEnd.toNat + 4095) / 4096 * 4096 :=
  Mm.pageUp_toNat (by have := K.below; omega)

theorem placeIn_some {kernelEnd : U64} {size : Nat} {e : Entry}
    (h : placeIn kernelEnd size e = some place) :
    e.type = 1 ∧ place = pageUp (if e.base < kernelEnd then kernelEnd else e.base) ∧
      place + BitVec.ofNat 64 size ≤ e.base + e.len := by
  obtain ⟨⟨ht, hroom⟩, hp⟩ := Option.ite_none_right_eq_some.mp h
  obtain rfl := Option.some.inj hp
  exact ⟨ht, rfl, hroom⟩

/-- What `firstFit` finds: above the image, in a usable entry. The test of the room is made in 64
bits. -/
theorem WellFormed.firstFit_some (hw : WellFormed m ebx l)
    (h : firstFit K (mapEntries m l) = some place) :
    (pageUp K.kernelEnd).toNat ≤ place.toNat ∧ place ≠ 0 ∧
      ∃ e ∈ mapEntries m l, e.type = 1 ∧ e.base.toNat ≤ place.toNat ∧
        place + BitVec.ofNat 64 (mapBytes (mapEntries m l)) ≤ e.base + e.len := by
  obtain ⟨e, he, hp⟩ := List.exists_of_findSome?_eq_some h
  obtain ⟨ht, hplace, hroom⟩ := placeIn_some hp
  have hbound := hw.entry e he ht
  have habove := K.above
  have hbelow := K.below
  have hK := K.pageUp_toNat
  have hle : (pageUp K.kernelEnd).toNat ≤ place.toNat ∧ e.base.toNat ≤ place.toNat := by
    by_cases hlt : e.base < pageUp K.kernelEnd
    · rw [if_pos hlt] at hplace
      rw [BitVec.lt_def] at hlt
      rw [hplace, Mm.pageUp_toNat (x := pageUp K.kernelEnd) (by omega)]
      omega
    · rw [if_neg hlt] at hplace
      rw [BitVec.lt_def] at hlt
      rw [hplace, Mm.pageUp_toNat (x := e.base) (by omega)]
      omega
  refine ⟨hle.1, fun h0 => ?_, e, he, ht, hle.2, hroom⟩
  rw [h0] at hle
  have hz : (0 : U64).toNat = 0 := rfl
  omega

/-- The second walk finds this place. -/
def PlacedAt (K : Image) (m : Memory) (ebx : BitVec 32) (es : List Entry) (place : U64) : Prop :=
  Returns (findPlace everywhere (pageUp K.kernelEnd) (infoAddr ebx) (mapBytes es)) m (some place)

/-- The third walk, over the memory as it changes it, sees these entries and ends in `s`. -/
def ThirdSees (m : Memory) (ebx : BitVec 32) (es : List Entry) (place : U64) (seen : List Entry)
    (s : Scan) : Prop :=
  Sees everywhere Scan.mem (fun _ => false) (Scan.visit place (mapTotal es))
    (blockEnd m (infoAddr ebx)) (infoAddr ebx + 8) (scanStart m place (mapTotal es)) seen s

theorem WellFormed.placedAt_iff (hw : WellFormed m ebx l) :
    PlacedAt K m ebx (mapEntries m l) place ↔ firstFit K (mapEntries m l) = some place := by
  have hreturns := hw.goodBlock.findPlace_returns K
  constructor
  · exact fun h => Returns.unique (findPlace_grows _ _) hreturns h
  · intro h
    rw [h] at hreturns
    exact hreturns

theorem WellFormed.pmmInit_iff (hw : WellFormed m ebx l)
    (hf : firstFit K (mapEntries m l) = some place) {b : PmmBoot} :
    Returns (pmmInit everywhere K mb2MagicVal (infoAddr ebx)) m b ↔
      ∃ seen s, ThirdSees m ebx (mapEntries m l) place seen s ∧
        b = bootState (pageUp K.kernelEnd) place (mapMax (mapEntries m l)) s := by
  have hne := (hw.firstFit_some hf).2.1
  have hmax := hw.goodBlock.findMax_returns
  have hplace := hw.goodBlock.findPlace_returns K
  rw [hf] at hplace
  rw [pmmInit_returns_iff]
  constructor
  · rintro ⟨maxAddr, p, hm, hp, h⟩
    obtain rfl := Returns.unique findMax_grows hmax hm
    obtain rfl := Returns.unique (findPlace_grows _ _) hplace hp
    rcases h with ⟨h0, -⟩ | ⟨-, s, hs, rfl⟩
    · exact absurd h0 hne
    · obtain ⟨seen, hseen⟩ := returns_iff_sees.mp hs
      exact ⟨seen, s, hseen, rfl⟩
  · rintro ⟨seen, s, hs, rfl⟩
    exact ⟨_, some place, hmax, hplace, .inr ⟨hne, s, returns_iff_sees.mpr ⟨seen, hs⟩, rfl⟩⟩

/-- Of a bitmap that misses the block or covers its first tag: `pmm_init` returns only if it misses
it. -/
theorem WellFormed.missed_of_returns (hw : WellFormed m ebx l)
    (hf : firstFit K (mapEntries m l) = some place)
    (hcase : Missed m ebx place (mapTotal (mapEntries m l)) ∨
      FirstCovered ebx place (mapTotal (mapEntries m l))) {b : PmmBoot}
    (hb : Returns (pmmInit everywhere K mb2MagicVal (infoAddr ebx)) m b) :
    Missed m ebx place (mapTotal (mapEntries m l)) := by
  refine hcase.resolve_right fun hcov => ?_
  obtain ⟨seen, s, hs, -⟩ := (hw.pmmInit_iff hf).mp hb
  refine hw.goodBlock.third_stuck ?_ hcov s (returns_iff_sees.mpr ⟨seen, hs⟩)
  rintro rfl
  cases hf

end

/-! ## The bits -/

section

variable {m : Memory} {ebx : BitVec 32} {es seen : List Entry} {K : Image} {place : U64} {s : Scan}
  {idx : Nat}

theorem ThirdSees.test (h : ThirdSees m ebx es place seen s) (hidx : idx < mapTotal es) :
    bmTest (bytesAt s.mem place) idx = false ↔ ∃ e ∈ seen, Covers e idx := by
  rw [Sees.eq_foldl h, Scan.test_foldl (mapTotal_le es) hidx,
    scanStart_test (mapTotal_le es) hidx]
  simp

theorem ThirdSees.bootState_test (h : ThirdSees m ebx es place seen s) (hidx : idx < mapTotal es) :
    bmTest (bytesAt (bootState (pageUp K.kernelEnd) place (mapMax es) s).mem place) idx = false ↔
      (∃ e ∈ seen, Covers e idx) ∧
        (reserveEnd (pageUp K.kernelEnd) place (mapBytes es)).toNat ≤ idx * 4096 := by
  rw [← h.test hidx]
  exact reserveLow_test (mapTotal_le es) hidx _

theorem ThirdSees.free_iff (h : ThirdSees m ebx es place seen s) (idx : Nat) :
    (bootState (pageUp K.kernelEnd) place (mapMax es) s).pmm.Free idx ↔
      idx < mapTotal es ∧ (∃ e ∈ seen, Covers e idx) ∧
        (reserveEnd (pageUp K.kernelEnd) place (mapBytes es)).toNat ≤ idx * 4096 :=
  and_congr_right fun hidx => h.bootState_test hidx

theorem le_reserveEnd (kernelEnd bitmap : U64) (size : Nat) :
    kernelEnd.toNat ≤ (reserveEnd kernelEnd bitmap size).toNat ∧
      (pageUp (bitmap + BitVec.ofNat 64 size)).toNat ≤
        (reserveEnd kernelEnd bitmap size).toNat := by
  unfold reserveEnd
  dsimp only
  split
  · next h =>
    rw [BitVec.lt_def] at h
    omega
  · next h =>
    rw [BitVec.lt_def] at h
    omega

end

/-! ## Blocks of one memory-map tag -/

def entryBytes (e : Entry) : List (BitVec 8) :=
  wordBytes e.base ++ wordBytes e.len ++ wordBytes (e.type.setWidth 64)

/-- A block with one memory-map tag of `size` bytes and the end tag. -/
def infoBytes (size : Nat) (es : List Entry) : List (BitVec 8) :=
  wordBytes (BitVec.ofNat 64 (size + 16)) ++ wordBytes (BitVec.ofNat 64 (6 + 2 ^ 32 * size)) ++
    wordBytes 24 ++ es.flatMap entryBytes ++ wordBytes (BitVec.ofNat 64 (2 ^ 32 * 8))

/-- The block at `ebx`, and zeros. -/
def infoMem (ebx : BitVec 32) (size : Nat) (es : List Entry) : Memory :=
  write (fun _ => 0) (infoAddr ebx) (infoBytes size es)

/-- An image that ends at 1 MiB. -/
def smallImage : Image := ⟨0x100000, by decide, by decide⟩

/-- The first 636 KiB and 64 KiB above the image. -/
def twoRegions : List Entry := [⟨0, 0x9F000, 1⟩, ⟨0x100000, 0x10000, 1⟩]

theorem wellFormed_of_one {m : Memory} {ebx : BitVec 32} (size : BitVec 32) (endPtr : U64)
    (es : List Entry) (hend : blockEnd m (infoAddr ebx) = endPtr)
    (hin : infoAddr ebx + 8 + 8 ≤ endPtr)
    (htype : tagType m (infoAddr ebx + 8) = tagMmap) (hsize : tagSize m (infoAddr ebx + 8) = size)
    (hentry : entrySize m (infoAddr ebx + 8) = 24)
    (hlast : tagType m (tagNext m (infoAddr ebx + 8)) = tagEnd)
    (hnext : tagNext m (infoAddr ebx + 8) + 8 ≤ endPtr)
    (hfits : 8 ≤ size.toNat ∧ (infoAddr ebx + 8).toNat + size.toNat ≤ endPtr.toNat)
    (hmap : mapEntries m [infoAddr ebx + 8] = es)
    (hes : ∀ e ∈ es, e.type = 1 → e.base.toNat + e.len.toNat + 4096 < 2 ^ 64) :
    WellFormed m ebx [infoAddr ebx + 8] := by
  subst hend hmap hsize
  refine ⟨.tag hin (by rw [htype]; decide) (.last hnext hlast), ?_, ?_, hes⟩
  · intro p hp
    obtain rfl := List.mem_singleton.mp hp
    exact hfits
  · intro p hp _ _
    obtain rfl := List.mem_singleton.mp hp
    rw [hentry]
    decide

theorem missed_of_apart {m : Memory} {ebx : BitVec 32} {bitmap : U64} {total : Nat}
    (hlt : bitmap.toNat + bitmapSizeOf total ≤ 2 ^ 64)
    (h : bitmap.toNat + bitmapSizeOf total ≤ (infoAddr ebx).toNat ∨
      (blockEnd m (infoAddr ebx)).toNat ≤ bitmap.toNat) : Missed m ebx bitmap total := by
  rintro a ⟨k, hk, rfl⟩ hin
  rw [add_ofNat_toNat (by omega)] at hin
  omega

theorem twoRegions_wellFormed :
    WellFormed (infoMem 0x9000 64 twoRegions) 0x9000 [infoAddr 0x9000 + 8] :=
  wellFormed_of_one 64 0x9050 twoRegions (by decide +kernel) (by decide) (by decide +kernel)
    (by decide +kernel) (by decide +kernel) (by decide +kernel) (by decide +kernel) (by decide)
    (by decide +kernel) (by decide)

/-- The memory above the image is reported twice. -/
def twiceReported : List Entry := [⟨0, 0x9F000, 1⟩, ⟨0x100000, 0x10000, 1⟩, ⟨0x100000, 0x10000, 1⟩]

theorem twiceReported_wellFormed :
    WellFormed (infoMem 0x9000 88 twiceReported) 0x9000 [infoAddr 0x9000 + 8] :=
  wellFormed_of_one 88 0x9068 twiceReported (by decide +kernel) (by decide) (by decide +kernel)
    (by decide +kernel) (by decide +kernel) (by decide +kernel) (by decide +kernel) (by decide)
    (by decide +kernel) (by decide)

/-- 64 KiB above the image, where the loader has put the block as well. -/
def oneRegion : List Entry := [⟨0x100000, 0x10000, 1⟩]

theorem atImage_wellFormed :
    WellFormed (infoMem 0x100000 40 oneRegion) 0x100000 [infoAddr 0x100000 + 8] :=
  wellFormed_of_one 40 0x100038 oneRegion (by decide +kernel) (by decide) (by decide +kernel)
    (by decide +kernel) (by decide +kernel) (by decide +kernel) (by decide +kernel) (by decide)
    (by decide +kernel) (by decide)

theorem aboveImage_wellFormed :
    WellFormed (infoMem 0x104000 40 oneRegion) 0x104000 [infoAddr 0x104000 + 8] :=
  wellFormed_of_one 40 0x104038 oneRegion (by decide +kernel) (by decide) (by decide +kernel)
    (by decide +kernel) (by decide +kernel) (by decide +kernel) (by decide +kernel) (by decide)
    (by decide +kernel) (by decide)

/-! ## The free map -/

/-- The bitmap is where it may be, and the free pages are exactly the whole pages of usable entries
above `reserve_end`. -/
structure ExactMap (K : Image) (es : List Entry) (place : U64) (b : PmmBoot) : Prop where
  bitmap : b.bitmap = place
  total : b.totalPages = mapTotal es
  inside : ∃ e ∈ es, e.type = 1 ∧ e.base.toNat ≤ place.toNat ∧
    place.toNat + mapBytes es ≤ e.base.toNat + e.len.toNat
  above : (pageUp K.kernelEnd).toNat ≤ place.toNat
  free : ∀ idx, idx < mapTotal es → (b.pmm.Free idx ↔
    (∃ e ∈ es, Whole e idx) ∧
      (reserveEnd (pageUp K.kernelEnd) place (mapBytes es)).toNat ≤ idx * 4096)
  /-- No page of the image or of the bitmap is free. -/
  image : ∀ idx, b.pmm.Free idx → K.kernelEnd.toNat ≤ idx * 4096
  bytes : ∀ idx, b.pmm.Free idx → place.toNat + mapBytes es ≤ idx * 4096
  zero : ¬ b.pmm.Free 0

section

variable {m : Memory} {ebx : BitVec 32} {l : List U64} {K : Image} {place : U64}

theorem WellFormed.covers_iff (hw : WellFormed m ebx l) (idx : Nat) :
    (∃ e ∈ mapEntries m l, Covers e idx) ↔ ∃ e ∈ mapEntries m l, Whole e idx :=
  exists_congr fun e => and_congr_right fun he => covers_iff_whole (hw.entry e he) idx

theorem WellFormed.inside_iff (hw : WellFormed m ebx l)
    (hf : firstFit K (mapEntries m l) = some place) :
    (∃ e ∈ mapEntries m l, e.type = 1 ∧ e.base.toNat ≤ place.toNat ∧
      place.toNat + mapBytes (mapEntries m l) ≤ e.base.toNat + e.len.toNat) ↔
      place.toNat + mapBytes (mapEntries m l) < 2 ^ 64 := by
  constructor
  · rintro ⟨e, he, ht, -, hle⟩
    have := hw.entry e he ht
    omega
  · intro hlt
    obtain ⟨-, -, e, he, ht, hbase, hroom⟩ := hw.firstFit_some hf
    have hbound := hw.entry e he ht
    have hbytes := mapBytes_le (mapEntries m l)
    refine ⟨e, he, ht, hbase, ?_⟩
    rw [BitVec.le_def, add_ofNat_toNat (by omega), BitVec.toNat_add,
      Nat.mod_eq_of_lt (b := 2 ^ 64) (by omega)] at hroom
    exact hroom

theorem WellFormed.exactMap (hw : WellFormed m ebx l)
    (hf : firstFit K (mapEntries m l) = some place)
    (hlt : place.toNat + mapBytes (mapEntries m l) < 2 ^ 64)
    (hmiss : Missed m ebx place (mapTotal (mapEntries m l))) :
    ∃ b, Returns (pmmInit everywhere K mb2MagicVal (infoAddr ebx)) m b ∧
      ExactMap K (mapEntries m l) place b := by
  have hs := hw.goodBlock.third_sees hmiss
  have hwhole := hw.covers_iff
  have hinside := (hw.inside_iff hf).mpr hlt
  refine ⟨_, (hw.pmmInit_iff hf).mpr ⟨_, _, hs, rfl⟩, ?_⟩
  generalize hes : mapEntries m l = es at *
  generalize List.foldl _ _ es = s at *
  have hfree : ∀ idx, (bootState (pageUp K.kernelEnd) place (mapMax es) s).pmm.Free idx ↔
      idx < mapTotal es ∧ (∃ e ∈ es, Whole e idx) ∧
        (reserveEnd (pageUp K.kernelEnd) place (mapBytes es)).toNat ≤ idx * 4096 := by
    intro idx
    rw [ThirdSees.free_iff hs, hwhole]
  have hK := K.pageUp_toNat
  obtain ⟨hk, hend⟩ := le_reserveEnd (pageUp K.kernelEnd) place (mapBytes es)
  have hup : place.toNat + mapBytes es ≤
      (pageUp (place + BitVec.ofNat 64 (mapBytes es))).toNat := by
    obtain ⟨e, he, ht, -, hle⟩ := hinside
    have hbound := hw.entry e (hes ▸ he) ht
    have hsum := add_ofNat_toNat hlt
    rw [pageUp_toNat (by omega), hsum]
    omega
  have habove := K.above
  refine ⟨rfl, rfl, hinside, (hes ▸ hw.firstFit_some (hes ▸ hf)).1, fun idx hidx => ?_,
    fun idx h => ?_, fun idx h => ?_, fun h => ?_⟩
  · rw [hfree idx]
    exact and_iff_right hidx
  · have := ((hfree idx).mp h).2.2
    omega
  · have := ((hfree idx).mp h).2.2
    omega
  · have := ((hfree 0).mp h).2.2
    omega

theorem twoRegions_entries :
    mapEntries (infoMem 0x9000 64 twoRegions) [infoAddr 0x9000 + 8] = twoRegions := by
  decide +kernel

theorem twoRegions_fit : firstFit smallImage twoRegions = some 0x100000 := by decide +kernel

theorem twoRegions_placed :
    PlacedAt smallImage (infoMem 0x9000 64 twoRegions) 0x9000 twoRegions 0x100000 := by
  rw [← twoRegions_entries]
  refine twoRegions_wellFormed.placedAt_iff.mpr ?_
  rw [twoRegions_entries]
  exact twoRegions_fit

theorem twoRegions_missed :
    Missed (infoMem 0x9000 64 twoRegions) 0x9000 0x100000 (mapTotal twoRegions) :=
  missed_of_apart (by decide +kernel) (.inr (by decide +kernel))

theorem oneRegion_fit : firstFit smallImage oneRegion = some 0x100000 := by decide +kernel

theorem atImage_entries :
    mapEntries (infoMem 0x100000 40 oneRegion) [infoAddr 0x100000 + 8] = oneRegion := by
  decide +kernel

theorem atImage_placed :
    PlacedAt smallImage (infoMem 0x100000 40 oneRegion) 0x100000 oneRegion 0x100000 := by
  rw [← atImage_entries]
  refine atImage_wellFormed.placedAt_iff.mpr ?_
  rw [atImage_entries]
  exact oneRegion_fit

end

/-! ## The counter -/

/-- The managed pages of the entries, each once. -/
def pagesIn (total : Nat) (es : List Entry) : Finset Nat :=
  (Finset.range total).filter fun idx => ∃ e ∈ es, Covers e idx

/-- The pages of the entries as the third walk counts them, entry by entry. -/
def pagesCounted (total : Nat) (es : List Entry) : Nat :=
  (es.map fun e => (pageSet total e).card).sum

section

variable {total : Nat}

theorem pagesIn_cons (e : Entry) (es : List Entry) :
    pagesIn total (e :: es) = pageSet total e ∪ pagesIn total es := by
  ext idx
  simp only [pagesIn, pageSet, Finset.mem_filter, Finset.mem_union, List.mem_cons, exists_eq_or_imp]
  tauto

theorem pagesCounted_cons (e : Entry) (es : List Entry) :
    pagesCounted total (e :: es) = (pageSet total e).card + pagesCounted total es := by
  rw [pagesCounted, List.map_cons, List.sum_cons]
  rfl

theorem card_pagesIn_le (es : List Entry) : (pagesIn total es).card ≤ pagesCounted total es := by
  induction es with
  | nil => simp [pagesIn]
  | cons e es ih =>
    rw [pagesIn_cons, pagesCounted_cons]
    exact (Finset.card_union_le _ _).trans (Nat.add_le_add_left ih _)

theorem pagesCounted_eq_iff (es : List Entry) :
    pagesCounted total es = (pagesIn total es).card ↔
      es.Pairwise fun e e' => ∀ idx, idx < total → ¬ (Covers e idx ∧ Covers e' idx) := by
  induction es with
  | nil => simp [pagesCounted, pagesIn]
  | cons e es ih =>
    have hsum := Finset.card_union_add_card_inter (pageSet total e) (pagesIn total es)
    have hle : (pagesIn total es).card ≤ pagesCounted total es := card_pagesIn_le es
    have hdisj : (pageSet total e ∩ pagesIn total es).card = 0 ↔
        ∀ e' ∈ es, ∀ idx, idx < total → ¬ (Covers e idx ∧ Covers e' idx) := by
      rw [Finset.card_eq_zero, Finset.eq_empty_iff_forall_notMem]
      constructor
      · rintro h e' he' idx hidx ⟨hc, hc'⟩
        have hr := Finset.mem_range.mpr hidx
        exact h idx (Finset.mem_inter.mpr ⟨Finset.mem_filter.mpr ⟨hr, hc⟩,
          Finset.mem_filter.mpr ⟨hr, e', he', hc'⟩⟩)
      · intro h idx hidx
        obtain ⟨hl, hr⟩ := Finset.mem_inter.mp hidx
        obtain ⟨hlt, hc⟩ := Finset.mem_filter.mp hl
        obtain ⟨-, e', he', hc'⟩ := Finset.mem_filter.mp hr
        exact h e' he' idx (Finset.mem_range.mp hlt) ⟨hc, hc'⟩
    rw [pagesIn_cons, pagesCounted_cons, List.pairwise_cons, ← hdisj, ← ih]
    omega

end

/-- `free_pages` is the number of clear bits below `total_pages`. -/
structure CounterRight (b : PmmBoot) : Prop where
  counter : b.freePages.toNat = b.pmm.clearBits
  le : b.freePages.toNat ≤ b.totalPages

section

variable {m : Memory} {ebx : BitVec 32} {l : List U64} {K : Image} {place : U64}
  {es seen : List Entry} {s : Scan}

theorem PmmBoot.clearBits_eq (b : PmmBoot) :
    b.pmm.clearBits = (Scan.clearSet b.bitmap b.totalPages ⟨b.mem, b.freePages⟩).card := by
  unfold Pmm.clearBits PackedBits.clearCount Scan.clearSet
  rw [Nat.count_eq_card_filter_range]
  congr 2
  funext j
  rw [bmTest_eq]
  rfl

theorem ThirdSees.clearSet (h : ThirdSees m ebx es place seen s) :
    s.clearSet place (mapTotal es) = pagesIn (mapTotal es) seen :=
  Finset.filter_congr fun _ hidx => h.test (Finset.mem_range.mp hidx)

theorem ThirdSees.freePages (h : ThirdSees m ebx es place seen s) :
    s.freePages = BitVec.ofNat 64 (pagesCounted (mapTotal es) seen) := by
  rw [Sees.eq_foldl h, Scan.free_foldl]
  exact BitVec.zero_add _

/-- The last loop keeps the balance, so the counter is right if it was after the third walk. -/
theorem ThirdSees.counter_iff (h : ThirdSees m ebx es place seen s) :
    CounterRight (bootState (pageUp K.kernelEnd) place (mapMax es) s) ↔
      pagesCounted (mapTotal es) seen % 2 ^ 64 = (pagesIn (mapTotal es) seen).card := by
  have hle : (pagesIn (mapTotal es) seen).card ≤ mapTotal es :=
    (Finset.card_filter_le _ _).trans_eq (Finset.card_range _)
  have htotal : mapTotal es ≤ 2 ^ 24 := mapTotal_le es
  generalize hb : bootState (pageUp K.kernelEnd) place (mapMax es) s = b
  have hclear := b.clearBits_eq
  have hclear_le : b.pmm.clearBits ≤ mapTotal es := by
    rw [← hb]
    exact PackedBits.clearCount_le _
  have hbal : b.freePages - BitVec.ofNat 64 b.pmm.clearBits =
      s.freePages - BitVec.ofNat 64 (s.clearSet place (mapTotal es)).card := by
    rw [hclear, ← hb]
    exact Scan.reserves_balance (mapTotal_le es) _
  rw [h.clearSet, h.freePages] at hbal
  have hiff : b.freePages.toNat = b.pmm.clearBits ↔
      pagesCounted (mapTotal es) seen % 2 ^ 64 = (pagesIn (mapTotal es) seen).card := by
    have hnat := congrArg BitVec.toNat hbal
    simp only [BitVec.toNat_sub, BitVec.toNat_ofNat] at hnat
    have := b.freePages.isLt
    omega
  rw [← hiff]
  refine ⟨fun hr => hr.counter, fun hc => ⟨hc, ?_⟩⟩
  rw [hc, ← hb]
  exact PackedBits.clearCount_le _

theorem WellFormed.pagesCounted_lt (hw : WellFormed m ebx l) :
    pagesCounted (mapTotal (mapEntries m l)) (mapEntries m l) < 2 ^ 64 := by
  have hebx := ebx.isLt
  have h8 := firstTag_toNat ebx
  have hend := blockEnd_lt m ebx
  have htotal := (word32 m (infoAddr ebx)).isLt
  have hlen := hw.tags.length_le hend (by omega) fun p hp => by
    have hge := hw.tags.ge hend (by omega) p hp
    have hle := (hw.size p hp).2
    rw [blockEnd_toNat] at hle ⊢
    exact ⟨hle, by omega⟩
  have hsum (es : List Entry) (total : Nat) : pagesCounted total es ≤ es.length * total := by
    induction es with
    | nil => exact Nat.zero_le _
    | cons e es ih =>
      have hcard : (pageSet total e).card ≤ total :=
        (Finset.card_filter_le _ _).trans_eq (Finset.card_range _)
      rw [pagesCounted_cons, List.length_cons, Nat.succ_mul]
      omega
  calc pagesCounted (mapTotal (mapEntries m l)) (mapEntries m l)
      ≤ (mapEntries m l).length * mapTotal (mapEntries m l) := hsum _ _
    _ ≤ 2 ^ 34 * 2 ^ 24 := Nat.mul_le_mul (by omega) (mapTotal_le _)
    _ < 2 ^ 64 := by decide

theorem WellFormed.counter_iff (hw : WellFormed m ebx l)
    (hmiss : Missed m ebx place (mapTotal (mapEntries m l))) :
    CounterRight (bootState (pageUp K.kernelEnd) place (mapMax (mapEntries m l))
      ((mapEntries m l).foldl (Scan.visit place (mapTotal (mapEntries m l)))
        (scanStart m place (mapTotal (mapEntries m l))))) ↔
    (mapEntries m l).Pairwise fun e e' =>
      ∀ idx, idx < mapTotal (mapEntries m l) → ¬ (Whole e idx ∧ Whole e' idx) := by
  have hpair : ((mapEntries m l).Pairwise fun e e' =>
      ∀ idx, idx < mapTotal (mapEntries m l) → ¬ (Whole e idx ∧ Whole e' idx)) ↔
      (mapEntries m l).Pairwise fun e e' =>
        ∀ idx, idx < mapTotal (mapEntries m l) → ¬ (Covers e idx ∧ Covers e' idx) := by
    refine List.Pairwise.iff_of_mem fun {e e'} he he' => ?_
    simp only [covers_iff_whole (hw.entry e he), covers_iff_whole (hw.entry e' he')]
  rw [ThirdSees.counter_iff (hw.goodBlock.third_sees hmiss), hpair, ← pagesCounted_eq_iff,
    Nat.mod_eq_of_lt hw.pagesCounted_lt]

end

/-! ## The block itself -/

/-- Page `idx` has a byte of the block. -/
def BlockPage (m : Memory) (ebx : BitVec 32) (idx : Nat) : Prop :=
  (infoAddr ebx).toNat < (idx + 1) * 4096 ∧ idx * 4096 < (blockEnd m (infoAddr ebx)).toNat

/-- The bitmap misses the block, the third walk sees the map of the first two and leaves every byte
of the block, and no page of the block is free. -/
structure BlockKept (m : Memory) (ebx : BitVec 32) (es : List Entry) (place : U64) (b : PmmBoot) :
    Prop where
  missed : Missed m ebx place (mapTotal es)
  sees : ∃ s, ThirdSees m ebx es place es s ∧
    Agrees (infoAddr ebx) (blockEnd m (infoAddr ebx)) m s.mem
  used : ∀ idx, BlockPage m ebx idx → ¬ b.pmm.Free idx

section

variable {m : Memory} {ebx : BitVec 32} {l : List U64} {K : Image} {place : U64}

theorem WellFormed.third_agrees (hw : WellFormed m ebx l)
    (hmiss : Missed m ebx place (mapTotal (mapEntries m l))) :
    Agrees (infoAddr ebx) (blockEnd m (infoAddr ebx)) m
      ((mapEntries m l).foldl (Scan.visit place (mapTotal (mapEntries m l)))
        (scanStart m place (mapTotal (mapEntries m l)))).mem :=
  (hw.goodBlock.third_keeps hmiss).foldl (scanStart_agrees hmiss) _

/-- **The block survives `pmm_init`** exactly when the first fit misses it and none of its pages is
a whole page of a usable entry above `reserve_end`. -/
theorem block_kept_iff (hw : WellFormed m ebx l) :
    (∀ place, PlacedAt K m ebx (mapEntries m l) place →
      ∃ b, Returns (pmmInit everywhere K mb2MagicVal (infoAddr ebx)) m b ∧
        BlockKept m ebx (mapEntries m l) place b) ↔
      ∀ place, firstFit K (mapEntries m l) = some place →
        Missed m ebx place (mapTotal (mapEntries m l)) ∧
        ∀ idx, idx < mapTotal (mapEntries m l) → BlockPage m ebx idx →
          (reserveEnd (pageUp K.kernelEnd) place (mapBytes (mapEntries m l))).toNat ≤ idx * 4096 →
          ∀ e ∈ mapEntries m l, ¬ Whole e idx := by
  have hfree (place : U64) (hmiss : Missed m ebx place (mapTotal (mapEntries m l))) (idx : Nat) :=
    (ThirdSees.free_iff (K := K) (hw.goodBlock.third_sees hmiss) idx).trans
      (and_congr_right fun _ => and_congr_left fun _ => hw.covers_iff idx)
  constructor
  · intro h place hf
    obtain ⟨b, hb, hkept⟩ := h place (hw.placedAt_iff.mpr hf)
    obtain ⟨seen, s, hs, rfl⟩ := (hw.pmmInit_iff hf).mp hb
    obtain ⟨-, rfl⟩ := Sees.unique hs (hw.goodBlock.third_sees hkept.missed)
    refine ⟨hkept.missed, fun idx hidx hpage hge e he hwhole => ?_⟩
    exact hkept.used idx hpage ((hfree place hkept.missed idx).mpr ⟨hidx, ⟨e, he, hwhole⟩, hge⟩)
  · intro h place hp
    have hf := hw.placedAt_iff.mp hp
    obtain ⟨hmiss, hpages⟩ := h place hf
    refine ⟨_, (hw.pmmInit_iff hf).mpr ⟨_, _, hw.goodBlock.third_sees hmiss, rfl⟩, hmiss,
      ⟨_, hw.goodBlock.third_sees hmiss, hw.third_agrees hmiss⟩, fun idx hpage hfr => ?_⟩
    obtain ⟨hidx, ⟨e, he, hwhole⟩, hge⟩ := (hfree place hmiss idx).mp hfr
    exact hpages idx hidx hpage hge e he hwhole

/-- The block in low memory survives. -/
theorem block_kept_twoRegions :
    ∃ b, Returns (pmmInit everywhere smallImage mb2MagicVal (infoAddr 0x9000))
      (infoMem 0x9000 64 twoRegions) b ∧
      BlockKept (infoMem 0x9000 64 twoRegions) 0x9000 twoRegions 0x100000 b := by
  have h := block_kept_iff (K := smallImage) twoRegions_wellFormed
  rw [twoRegions_entries] at h
  refine h.mpr (fun place hf => ?_) 0x100000 twoRegions_placed
  obtain rfl := Option.some.inj (twoRegions_fit.symm.trans hf)
  refine ⟨twoRegions_missed, fun idx _ hpage hge => ?_⟩
  have hend : blockEnd (infoMem 0x9000 64 twoRegions) (infoAddr 0x9000) = 0x9050 := by
    decide +kernel
  have hres : (reserveEnd (pageUp smallImage.kernelEnd) 0x100000 (mapBytes twoRegions)).toNat =
      0x101000 := by decide +kernel
  have hlt := hpage.2
  rw [hend] at hlt
  rw [hres] at hge
  have : (0x9050 : U64).toNat = 0x9050 := rfl
  omega

/-- **The block overwritten, or given away**: at the end of the image the bitmap is laid over the
block; four pages higher the block is left alone, but its page is free. -/
theorem block_lost :
    (PlacedAt smallImage (infoMem 0x100000 40 oneRegion) 0x100000 oneRegion 0x100000 ∧
      ¬ Missed (infoMem 0x100000 40 oneRegion) 0x100000 0x100000 (mapTotal oneRegion)) ∧
    ∃ b, Returns (pmmInit everywhere smallImage mb2MagicVal (infoAddr 0x104000))
      (infoMem 0x104000 40 oneRegion) b ∧
      BlockPage (infoMem 0x104000 40 oneRegion) 0x104000 0x104 ∧ b.pmm.Free 0x104 := by
  have hw := aboveImage_wellFormed
  have hf := oneRegion_fit
  have hmap : mapEntries (infoMem 0x104000 40 oneRegion) [infoAddr 0x104000 + 8] = oneRegion := by
    decide +kernel
  have hmiss : Missed (infoMem 0x104000 40 oneRegion) 0x104000 0x100000 (mapTotal oneRegion) :=
    missed_of_apart (by decide +kernel) (.inl (by decide +kernel))
  rw [← hmap] at hf hmiss
  have hs := hw.goodBlock.third_sees hmiss
  refine ⟨⟨atImage_placed, fun h => ?_⟩, _, (hw.pmmInit_iff hf).mpr ⟨_, _, hs, rfl⟩,
    ⟨by decide +kernel, by decide +kernel⟩, ?_⟩
  · exact h 0x100000 ⟨0, by decide +kernel, by decide⟩ (by decide +kernel)
  · refine (ThirdSees.free_iff hs _).mpr ?_
    rw [hmap]
    exact ⟨by decide +kernel, ⟨_, List.mem_cons_self, by decide +kernel⟩, by decide +kernel⟩

end

end Sinux.Mm

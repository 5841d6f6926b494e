import Sinux.Core.Multiboot
import Sinux.Mm.Pmm

/-!
# `pmm_init`

The model:

- Memory is byte memory: the bitmap is written into the memory that the walks over the Multiboot2
  block read. `bmClearAt` and `bmSetAt` are `bm_clear` and `bm_set` on it, `bytesAt` is
  `bitmap[..]`.
- `findMax`, `findPlace` and `releaseAll` are the three walks, `reserveLow` the last loop.
- A loop over page addresses is a fold over page numbers (`pagesOf`): its bounds are multiples of
  `PAGE_SIZE`, so the address never wraps.

Results:

- `Scan.test_foldl`, `Scan.free_foldl`: which bits the third walk clears for the entries it sees, and
  what it counts.
- `reserveLow_test`, `Scan.reserves_balance`: the last loop sets the bits below `reserve_end` and
  keeps the balance of counter and clear bits.
- `pmmInit_returns_iff`: `pmm_init` returns when its walks do.
-/

namespace Sinux.Mm

open Function Sinux.Lib Sinux.Lib.ByteMem Sinux.Core.Multiboot

/-! ## The bitmap in memory -/

/-- `bitmap[k]`. -/
def bytesAt (m : Memory) (bitmap : U64) : Nat → BitVec 8 := fun k => m (bitmap + BitVec.ofNat 64 k)

/-- `bm_clear(idx)`. -/
def bmClearAt (bitmap : U64) (m : Memory) (idx : Nat) : Memory :=
  update m (bitmap + BitVec.ofNat 64 (idx / 8))
    (bytesAt m bitmap (idx / 8) &&& ~~~(1#8 <<< (idx % 8)))

/-- `bm_set(idx)`. -/
def bmSetAt (bitmap : U64) (m : Memory) (idx : Nat) : Memory :=
  update m (bitmap + BitVec.ofNat 64 (idx / 8))
    (bytesAt m bitmap (idx / 8) ||| 1#8 <<< (idx % 8))

/-! ## The walks -/

/-- `(x + PAGE_SIZE - 1) & ~(PAGE_SIZE - 1)`. -/
def pageUp (x : U64) : U64 := pageMask (x + 4096 - 1)

/-- The page numbers of `for (a = start; a < stop; a += PAGE_SIZE)`. -/
def pagesOf (start stop : U64) : List Nat :=
  List.range' (start.toNat / 4096) ((stop.toNat - start.toNat) / 4096)

/-- The address of `_kernel_end`: `linker.ld` puts the image above 1 MiB, and the 32-bit code of
`boot.asm` refers to it. -/
structure Image where
  kernelEnd : U64
  above : 0x100000 ≤ kernelEnd.toNat
  below : kernelEnd.toNat < 2 ^ 32

/-- `if (e->type == 1 && top > max_addr) max_addr = top;` -/
def raiseMax (maxAddr : U64) (e : Entry) : U64 :=
  if e.type = 1 ∧ maxAddr < e.base + e.len then e.base + e.len else maxAddr

/-- The first walk. -/
def findMax (ok : U64 → Bool) (info : U64) (n : Nat) (m : Memory) : Option U64 :=
  mmapWalk ok (fun _ => m) (fun _ => false) id raiseMax (blockEnd m info) n (info + 8, 0)

/-- `total_pages`. -/
def totalPagesOf (maxAddr : U64) : Nat := min (maxAddr.toNat / 4096) bitmapMaxPages

/-- `bitmap_size`. -/
def bitmapSizeOf (total : Nat) : Nat := (total + 7) / 8

/-- Where the bitmap would lie in an entry, if there is room. -/
def placeIn (kernelEnd : U64) (size : Nat) (e : Entry) : Option U64 :=
  let place := pageUp (if e.base < kernelEnd then kernelEnd else e.base)
  if e.type = 1 ∧ place + BitVec.ofNat 64 size ≤ e.base + e.len then some place else none

/-- The second walk; it stops as soon as the bitmap is placed. -/
def findPlace (ok : U64 → Bool) (kernelEnd info : U64) (size n : Nat) (m : Memory) :
    Option (Option U64) :=
  mmapWalk ok (fun _ => m) Option.isSome id (fun p e => p.or (placeIn kernelEnd size e))
    (blockEnd m info) n (info + 8, none)

/-- Memory and `free_pages` during the third walk. -/
structure Scan where
  mem : Memory
  freePages : U64

/-- `if (idx < total_pages) { bm_clear(idx); free_pages++; }` -/
def Scan.release (bitmap : U64) (total : Nat) (s : Scan) (idx : Nat) : Scan :=
  if idx < total then ⟨bmClearAt bitmap s.mem idx, s.freePages + 1⟩ else s

/-- The third walk at an entry. -/
def Scan.visit (bitmap : U64) (total : Nat) (s : Scan) (e : Entry) : Scan :=
  if e.type = 1 then
    (pagesOf (pageUp e.base) (pageMask (e.base + e.len))).foldl (Scan.release bitmap total) s
  else s

/-- The third walk, over the block that ends at `endPtr`. -/
def releaseAll (ok : U64 → Bool) (info endPtr bitmap : U64) (total n : Nat) (s : Scan) :
    Option Scan :=
  mmapWalk ok Scan.mem (fun _ => false) id (Scan.visit bitmap total) endPtr n (info + 8, s)

/-- `if (idx < total_pages && !bm_test(idx)) { bm_set(idx); free_pages--; }` -/
def Scan.reserve (bitmap : U64) (total : Nat) (s : Scan) (idx : Nat) : Scan :=
  if idx < total ∧ bmTest (bytesAt s.mem bitmap) idx = false then
    ⟨bmSetAt bitmap s.mem idx, s.freePages - 1⟩
  else s

/-- `reserve_end`: the larger of the rounded ends of the image and the bitmap. -/
def reserveEnd (kernelEnd bitmap : U64) (size : Nat) : U64 :=
  let bitmapEnd := pageUp (bitmap + BitVec.ofNat 64 size)
  if kernelEnd < bitmapEnd then bitmapEnd else kernelEnd

/-- The last loop. -/
def reserveLow (kernelEnd bitmap : U64) (total : Nat) (s : Scan) : Scan :=
  (pagesOf 0 (reserveEnd kernelEnd bitmap (bitmapSizeOf total))).foldl (Scan.reserve bitmap total) s

/-- Memory and the static variables of `pmm.c`; `bitmap` is `NULL` before it is placed. -/
structure PmmBoot where
  mem : Memory
  bitmap : U64
  totalPages : Nat
  freePages : U64
  total_le : totalPages ≤ bitmapMaxPages

/-- The allocator that `pmm_alloc` and `pmm_free` go on with. -/
def PmmBoot.pmm (b : PmmBoot) : Pmm :=
  ⟨bytesAt b.mem b.bitmap, b.totalPages, b.freePages, b.total_le⟩

theorem totalPagesOf_le (maxAddr : U64) : totalPagesOf maxAddr ≤ bitmapMaxPages :=
  Nat.min_le_right _ _

/-- `kmemset(bitmap, 0xFF, bitmap_size); free_pages = 0;` -/
def scanStart (m : Memory) (bitmap : U64) (total : Nat) : Scan :=
  ⟨write m bitmap (List.replicate (bitmapSizeOf total) 0xFF), 0⟩

/-- The state after the third walk and the last loop. -/
def bootState (kernelEnd bitmap maxAddr : U64) (s : Scan) : PmmBoot :=
  let s := reserveLow kernelEnd bitmap (totalPagesOf maxAddr) s
  ⟨s.mem, bitmap, totalPagesOf maxAddr, s.freePages, totalPagesOf_le maxAddr⟩

/-- `pmm_init`, called once with the static variables at zero. -/
def pmmInit (ok : U64 → Bool) (K : Image) (magic : BitVec 32) (info : U64) (n : Nat) (m : Memory) :
    Option PmmBoot :=
  if magic ≠ mb2MagicVal then some ⟨m, 0, 0, 0, by decide⟩ else do
  let maxAddr ← findMax ok info n m
  let total := totalPagesOf maxAddr
  let kernelEnd := pageUp K.kernelEnd
  let place ← findPlace ok kernelEnd info (bitmapSizeOf total) n m
  let bitmap := place.getD 0
  if bitmap = 0 then some ⟨m, 0, total, 0, totalPagesOf_le maxAddr⟩
  else do
    let s ← releaseAll ok info (blockEnd m info) bitmap total n (scanStart m bitmap total)
    some (bootState kernelEnd bitmap maxAddr s)

/-! ## Bits in memory -/

section

variable {m : Memory} {bitmap : U64} {i j total : Nat}

theorem bmTest_congr {b b' : Nat → BitVec 8} (h : b (j / 8) = b' (j / 8)) :
    bmTest b j = bmTest b' j := by
  unfold bmTest
  rw [h]

theorem ofNat_add_inj {k l : Nat} (hk : k < 2 ^ 64) (hl : l < 2 ^ 64) :
    bitmap + BitVec.ofNat 64 k = bitmap + BitVec.ofNat 64 l ↔ k = l := by
  constructor
  · intro h
    rw [← add_ofNat_sub (a := bitmap) hk, h, add_ofNat_sub hl]
  · rintro rfl
    rfl

theorem bytesAt_update {k l : Nat} (hk : k < 2 ^ 64) (hl : l < 2 ^ 64) (x : BitVec 8) :
    bytesAt (update m (bitmap + BitVec.ofNat 64 k) x) bitmap l =
      update (bytesAt m bitmap) k x l := by
  unfold bytesAt
  rw [update_apply, update_apply]
  exact if_congr (ofNat_add_inj hl hk) rfl rfl

theorem bmTest_bmClearAt (hi : i < 2 ^ 64) (hj : j < 2 ^ 64) :
    bmTest (bytesAt (bmClearAt bitmap m i) bitmap) j =
      (!decide (i = j) && bmTest (bytesAt m bitmap) j) := by
  have hbyte : bytesAt (bmClearAt bitmap m i) bitmap (j / 8) =
      bmClear (bytesAt m bitmap) i (j / 8) := bytesAt_update (by omega) (by omega) _
  rw [bmTest_congr hbyte, bmTest_eq, bmTest_eq]
  exact PackedBits.test_clear (by decide) i j

theorem bmTest_bmSetAt (hi : i < 2 ^ 64) (hj : j < 2 ^ 64) :
    bmTest (bytesAt (bmSetAt bitmap m i) bitmap) j =
      (decide (i = j) || bmTest (bytesAt m bitmap) j) := by
  have hbyte : bytesAt (bmSetAt bitmap m i) bitmap (j / 8) = bmSet (bytesAt m bitmap) i (j / 8) :=
    bytesAt_update (by omega) (by omega) _
  rw [bmTest_congr hbyte, bmTest_eq, bmTest_eq]
  exact PackedBits.test_set (by decide) i j

theorem scanStart_test (htotal : total ≤ bitmapMaxPages) (hj : j < total) :
    bmTest (bytesAt (scanStart m bitmap total).mem bitmap) j = true := by
  have hlen : (List.replicate (bitmapSizeOf total) (0xFF : BitVec 8)).length = (total + 7) / 8 :=
    List.length_replicate ..
  have hholds : HasBytes (scanStart m bitmap total).mem bitmap
      (List.replicate (bitmapSizeOf total) 0xFF) :=
    write_holds (by rw [hlen]; unfold bitmapMaxPages at htotal; omega)
  have hbyte := hholds (j / 8) (by rw [hlen]; omega)
  rw [List.getElem?_replicate, if_pos (by unfold bitmapSizeOf; omega)] at hbyte
  rw [bmTest_eq]
  show (bytesAt (scanStart m bitmap total).mem bitmap (j / 8)).getLsbD (j % 8) = true
  rw [show bytesAt (scanStart m bitmap total).mem bitmap (j / 8) = 0xFF from Option.some.inj hbyte]
  have hlt : j % 8 < 8 := Nat.mod_lt j (by decide)
  generalize j % 8 = k at hlt
  revert k
  decide

end

/-! ## Pages -/

/-- The loop over the pages of an entry passes page `idx`. -/
def Covers (e : Entry) (idx : Nat) : Prop :=
  e.type = 1 ∧ (pageUp e.base).toNat ≤ idx * 4096 ∧ idx * 4096 < (pageMask (e.base + e.len)).toNat

instance (e : Entry) (idx : Nat) : Decidable (Covers e idx) := inferInstanceAs (Decidable (_ ∧ _))

theorem pageMask_dvd (x : U64) : 4096 ∣ (pageMask x).toNat := by
  rw [pageMask_toNat]
  exact Nat.dvd_mul_left _ _

theorem pageUp_dvd (x : U64) : 4096 ∣ (pageUp x).toNat := pageMask_dvd _

theorem mem_pagesOf {start stop : U64} (h : 4096 ∣ start.toNat) (h' : 4096 ∣ stop.toNat)
    (idx : Nat) :
    idx ∈ pagesOf start stop ↔ start.toNat ≤ idx * 4096 ∧ idx * 4096 < stop.toNat := by
  unfold pagesOf
  rw [List.mem_range'_1]
  omega

theorem mem_pagesOf_entry {e : Entry} (he : e.type = 1) (idx : Nat) :
    idx ∈ pagesOf (pageUp e.base) (pageMask (e.base + e.len)) ↔ Covers e idx := by
  rw [mem_pagesOf (pageUp_dvd _) (pageMask_dvd _)]
  exact ⟨fun h => ⟨he, h⟩, fun h => h.2⟩

theorem pagesOf_nodup (start stop : U64) : (pagesOf start stop).Nodup := List.nodup_range'

/-- Page `idx` lies wholly inside the entry. -/
def Whole (e : Entry) (idx : Nat) : Prop :=
  e.type = 1 ∧ e.base.toNat ≤ idx * 4096 ∧ (idx + 1) * 4096 ≤ e.base.toNat + e.len.toNat

instance (e : Entry) (idx : Nat) : Decidable (Whole e idx) := inferInstanceAs (Decidable (_ ∧ _))

theorem pageUp_toNat {x : U64} (h : x.toNat + 4095 < 2 ^ 64) :
    (pageUp x).toNat = (x.toNat + 4095) / 4096 * 4096 := by
  have hsum : (x + 4096 - 1).toNat = x.toNat + 4095 := by
    rw [BitVec.toNat_sub, BitVec.toNat_add, show (4096 : U64).toNat = 4096 from rfl,
      show (1 : U64).toNat = 1 from rfl]
    omega
  unfold pageUp
  rw [pageMask_toNat, hsum]

theorem covers_iff_whole {e : Entry} (h : e.type = 1 → e.base.toNat + e.len.toNat + 4096 < 2 ^ 64)
    (idx : Nat) : Covers e idx ↔ Whole e idx := by
  unfold Covers Whole
  by_cases ht : e.type = 1
  · have hlt := h ht
    rw [pageUp_toNat (by omega), pageMask_toNat, BitVec.toNat_add, Nat.mod_eq_of_lt (by omega)]
    simp only [ht, true_and]
    omega
  · simp only [ht, false_and]

/-! ## The third walk -/

section

variable {bitmap : U64} {total : Nat} {s : Scan} {j : Nat}

/-- The managed pages of an entry. -/
def pageSet (total : Nat) (e : Entry) : Finset Nat := (Finset.range total).filter (Covers e)

theorem Scan.test_release (htotal : total ≤ bitmapMaxPages) (hj : j < total) (i : Nat) :
    bmTest (bytesAt (s.release bitmap total i).mem bitmap) j =
      (!decide (i = j) && bmTest (bytesAt s.mem bitmap) j) := by
  have hmax : bitmapMaxPages < 2 ^ 64 := by decide
  unfold Scan.release
  by_cases hi : i < total
  · rw [if_pos hi]
    exact bmTest_bmClearAt (by omega) (by omega)
  · have hne : i ≠ j := fun h => hi (h ▸ hj)
    rw [if_neg hi]
    simp [hne]

theorem Scan.test_releases (htotal : total ≤ bitmapMaxPages) (hj : j < total) (l : List Nat) :
    bmTest (bytesAt (l.foldl (Scan.release bitmap total) s).mem bitmap) j =
      (!decide (j ∈ l) && bmTest (bytesAt s.mem bitmap) j) := by
  induction l generalizing s with
  | nil => simp
  | cons i l ih =>
    rw [List.foldl_cons, ih, Scan.test_release htotal hj]
    by_cases hi : i = j
    · simp [hi]
    · simp [hi, Ne.symm hi]

theorem Scan.test_visit (htotal : total ≤ bitmapMaxPages) (hj : j < total) (e : Entry) :
    bmTest (bytesAt (s.visit bitmap total e).mem bitmap) j =
      (!decide (Covers e j) && bmTest (bytesAt s.mem bitmap) j) := by
  unfold Scan.visit
  by_cases he : e.type = 1
  · rw [if_pos he, Scan.test_releases htotal hj]
    simp [mem_pagesOf_entry he]
  · have hc : ¬ Covers e j := fun h => he h.1
    rw [if_neg he]
    simp [hc]

theorem Scan.test_foldl (htotal : total ≤ bitmapMaxPages) (hj : j < total) (es : List Entry) :
    bmTest (bytesAt (es.foldl (Scan.visit bitmap total) s).mem bitmap) j = false ↔
      bmTest (bytesAt s.mem bitmap) j = false ∨ ∃ e ∈ es, Covers e j := by
  induction es generalizing s with
  | nil => simp
  | cons e es ih =>
    rw [List.foldl_cons, ih, Scan.test_visit htotal hj]
    simp only [Bool.and_eq_false_iff, Bool.not_eq_false', decide_eq_true_eq, List.mem_cons]
    constructor
    · rintro ((h | h) | ⟨e', he', h⟩)
      · exact .inr ⟨e, .inl rfl, h⟩
      · exact .inl h
      · exact .inr ⟨e', .inr he', h⟩
    · rintro (h | ⟨e', rfl | he', h⟩)
      · exact .inl (.inr h)
      · exact .inl (.inl h)
      · exact .inr ⟨e', he', h⟩

theorem Scan.free_releases (l : List Nat) :
    (l.foldl (Scan.release bitmap total) s).freePages =
      s.freePages + BitVec.ofNat 64 (l.filter (· < total)).length := by
  induction l generalizing s with
  | nil => simp
  | cons i l ih =>
    rw [List.foldl_cons, ih]
    unfold Scan.release
    by_cases hi : i < total
    · rw [if_pos hi, List.filter_cons_of_pos (by simpa using hi), List.length_cons, Nat.add_comm,
        BitVec.ofNat_add, BitVec.add_assoc]
      rfl
    · rw [if_neg hi, List.filter_cons_of_neg (by simpa using hi)]

theorem Scan.free_visit (e : Entry) :
    (s.visit bitmap total e).freePages =
      s.freePages + BitVec.ofNat 64 (pageSet total e).card := by
  unfold Scan.visit
  by_cases he : e.type = 1
  · rw [if_pos he, Scan.free_releases, ← List.toFinset_card_of_nodup
      ((pagesOf_nodup _ _).filter _)]
    congr 3
    ext i
    simp [pageSet, mem_pagesOf_entry he, and_comm]
  · have hempty : pageSet total e = ∅ :=
      Finset.filter_eq_empty_iff.mpr fun _ _ h => he h.1
    rw [if_neg he, hempty]
    simp

theorem Scan.free_foldl (es : List Entry) :
    (es.foldl (Scan.visit bitmap total) s).freePages =
      s.freePages + BitVec.ofNat 64 (es.map fun e => (pageSet total e).card).sum := by
  induction es generalizing s with
  | nil => simp
  | cons e es ih =>
    rw [List.foldl_cons, ih, Scan.free_visit, List.map_cons, List.sum_cons, BitVec.ofNat_add,
      BitVec.add_assoc]

/-! ## The last loop -/

/-- The managed pages whose bits are clear. -/
def Scan.clearSet (bitmap : U64) (total : Nat) (s : Scan) : Finset Nat :=
  (Finset.range total).filter fun j => bmTest (bytesAt s.mem bitmap) j = false

theorem Scan.test_reserve (htotal : total ≤ bitmapMaxPages) (hj : j < total) (i : Nat) :
    bmTest (bytesAt (s.reserve bitmap total i).mem bitmap) j =
      (decide (i = j) || bmTest (bytesAt s.mem bitmap) j) := by
  have hmax : bitmapMaxPages < 2 ^ 64 := by decide
  unfold Scan.reserve
  by_cases hi : i < total ∧ bmTest (bytesAt s.mem bitmap) i = false
  · rw [if_pos hi]
    exact bmTest_bmSetAt (by omega) (by omega)
  · rw [if_neg hi]
    by_cases hij : i = j
    · subst hij
      simpa using fun h => hi ⟨hj, h⟩
    · simp [hij]

theorem Scan.test_reserves (htotal : total ≤ bitmapMaxPages) (hj : j < total) (l : List Nat) :
    bmTest (bytesAt (l.foldl (Scan.reserve bitmap total) s).mem bitmap) j =
      (decide (j ∈ l) || bmTest (bytesAt s.mem bitmap) j) := by
  induction l generalizing s with
  | nil => simp
  | cons i l ih =>
    rw [List.foldl_cons, ih, Scan.test_reserve htotal hj]
    by_cases hi : i = j
    · simp [hi]
    · simp [hi, Ne.symm hi]

theorem Scan.reserve_balance (htotal : total ≤ bitmapMaxPages) (i : Nat) :
    (s.reserve bitmap total i).freePages -
        BitVec.ofNat 64 ((s.reserve bitmap total i).clearSet bitmap total).card =
      s.freePages - BitVec.ofNat 64 (s.clearSet bitmap total).card := by
  by_cases hi : i < total ∧ bmTest (bytesAt s.mem bitmap) i = false
  · have herase : (s.reserve bitmap total i).clearSet bitmap total =
        (s.clearSet bitmap total).erase i := by
      ext j
      simp only [Scan.clearSet, Finset.mem_filter, Finset.mem_range, Finset.mem_erase]
      by_cases hj : j < total
      · rw [Scan.test_reserve htotal hj]
        by_cases hij : i = j
        · simp [hij]
        · simp [hij, Ne.symm hij]
      · simp [hj]
    have hmem : i ∈ s.clearSet bitmap total :=
      Finset.mem_filter.mpr ⟨Finset.mem_range.mpr hi.1, hi.2⟩
    have hcard := Finset.card_erase_add_one hmem
    have hfree : (s.reserve bitmap total i).freePages = s.freePages - 1 := by
      rw [Scan.reserve, if_pos hi]
    rw [herase, hfree, ← hcard, BitVec.ofNat_add]
    show s.freePages - 1#64 - _ = s.freePages - (_ + 1#64)
    rw [BitVec.sub_sub, BitVec.add_comm]
  · rw [Scan.reserve, if_neg hi]

theorem Scan.reserves_balance (htotal : total ≤ bitmapMaxPages) (l : List Nat) :
    (l.foldl (Scan.reserve bitmap total) s).freePages -
        BitVec.ofNat 64 ((l.foldl (Scan.reserve bitmap total) s).clearSet bitmap total).card =
      s.freePages - BitVec.ofNat 64 (s.clearSet bitmap total).card := by
  induction l generalizing s with
  | nil => rfl
  | cons i l ih => rw [List.foldl_cons, ih, Scan.reserve_balance htotal]

theorem pageUp_reserveEnd_dvd (kernelEnd bitmap : U64) (size : Nat) :
    4096 ∣ (reserveEnd (pageUp kernelEnd) bitmap size).toNat := by
  unfold reserveEnd
  dsimp only
  split
  · exact pageUp_dvd _
  · exact pageUp_dvd _

theorem reserveLow_test (htotal : total ≤ bitmapMaxPages) (hj : j < total) (kernelEnd : U64) :
    bmTest (bytesAt (reserveLow (pageUp kernelEnd) bitmap total s).mem bitmap) j = false ↔
      bmTest (bytesAt s.mem bitmap) j = false ∧
        (reserveEnd (pageUp kernelEnd) bitmap (bitmapSizeOf total)).toNat ≤ j * 4096 := by
  have hmem := mem_pagesOf (show 4096 ∣ (0 : U64).toNat from Nat.dvd_zero _)
    (pageUp_reserveEnd_dvd kernelEnd bitmap (bitmapSizeOf total)) j
  unfold reserveLow
  rw [Scan.test_reserves htotal hj, Bool.or_eq_false_iff, decide_eq_false_iff_not, hmem, and_comm,
    not_and, Nat.not_lt]
  exact and_congr_right fun _ => ⟨fun h => h (Nat.zero_le _), fun h _ => h⟩

/-! ## What the third walk writes -/

/-- The address of a byte of the bitmap. -/
def InBitmap (bitmap : U64) (total : Nat) (a : U64) : Prop :=
  ∃ k, k < bitmapSizeOf total ∧ a = bitmap + BitVec.ofNat 64 k

theorem scanStart_frame {m : Memory} {a : U64} (ha : ¬ InBitmap bitmap total a) :
    (scanStart m bitmap total).mem a = m a := by
  have hge : bitmapSizeOf total ≤ (a - bitmap).toNat := by
    refine Nat.le_of_not_lt fun hlt => ha ⟨_, hlt, ?_⟩
    rw [BitVec.ofNat_toNat, BitVec.setWidth_eq, BitVec.add_comm, BitVec.sub_add_cancel]
  show ((List.replicate (bitmapSizeOf total) (0xFF : BitVec 8))[(a - bitmap).toNat]?).getD (m a) = _
  rw [List.getElem?_eq_none (by rwa [List.length_replicate])]
  rfl

theorem scanStart_covered {m : Memory} {a : U64} (htotal : total ≤ bitmapMaxPages)
    (ha : InBitmap bitmap total a) : (scanStart m bitmap total).mem a = 0xFF := by
  obtain ⟨k, hk, rfl⟩ := ha
  have hlen : bitmapSizeOf total < 2 ^ 64 := by
    unfold bitmapMaxPages at htotal
    unfold bitmapSizeOf
    omega
  have hholds : HasBytes (scanStart m bitmap total).mem bitmap
      (List.replicate (bitmapSizeOf total) 0xFF) :=
    write_holds (by rw [List.length_replicate]; omega)
  have hbyte := hholds k (by rwa [List.length_replicate])
  rw [List.getElem?_replicate, if_pos hk] at hbyte
  exact Option.some.inj hbyte

theorem Scan.visit_frame {a : U64} (ha : ¬ InBitmap bitmap total a) (s : Scan) (e : Entry) :
    (s.visit bitmap total e).mem a = s.mem a := by
  have hrelease (s : Scan) (i : Nat) : (s.release bitmap total i).mem a = s.mem a := by
    unfold Scan.release
    split
    · next hi =>
      refine update_of_ne (fun h => ha ⟨i / 8, ?_, h⟩) _ _
      unfold bitmapSizeOf
      omega
    · rfl
  have hreleases (l : List Nat) (s : Scan) :
      (l.foldl (Scan.release bitmap total) s).mem a = s.mem a := by
    induction l generalizing s with
    | nil => rfl
    | cons i l ih => rw [List.foldl_cons, ih, hrelease]
  unfold Scan.visit
  split
  · exact hreleases _ s
  · rfl

end

/-! ## The parts of `pmm_init` -/

section

variable {ok : U64 → Bool} {K : Image} {info : U64} {m : Memory}

theorem findMax_grows : Grows (findMax ok info) := fun n k hk _ b h =>
  mmapWalk_grows n k hk _ b h

theorem findPlace_grows (kernelEnd : U64) (size : Nat) : Grows (findPlace ok kernelEnd info size) :=
  fun n k hk _ b h => mmapWalk_grows n k hk _ b h

theorem releaseAll_grows (endPtr bitmap : U64) (total : Nat) :
    Grows (releaseAll ok info endPtr bitmap total) := fun n k hk _ b h =>
  mmapWalk_grows n k hk _ b h

theorem pmmInit_returns_iff {b : PmmBoot} :
    Returns (pmmInit ok K mb2MagicVal info) m b ↔
      ∃ maxAddr place, Returns (findMax ok info) m maxAddr ∧
        Returns (findPlace ok (pageUp K.kernelEnd) info (bitmapSizeOf (totalPagesOf maxAddr))) m
          place ∧
        ((place.getD 0 = 0 ∧ b = ⟨m, 0, totalPagesOf maxAddr, 0, totalPagesOf_le maxAddr⟩) ∨
          place.getD 0 ≠ 0 ∧ ∃ s, Returns (releaseAll ok info (blockEnd m info) (place.getD 0)
              (totalPagesOf maxAddr)) (scanStart m (place.getD 0) (totalPagesOf maxAddr)) s ∧
            b = bootState (pageUp K.kernelEnd) (place.getD 0) maxAddr s) := by
  constructor
  · rintro ⟨n, h⟩
    unfold pmmInit at h
    rw [if_neg (by simp)] at h
    obtain ⟨maxAddr, hmax, h⟩ := Option.bind_eq_some_iff.mp h
    obtain ⟨place, hplace, h⟩ := Option.bind_eq_some_iff.mp h
    refine ⟨maxAddr, place, ⟨n, hmax⟩, ⟨n, hplace⟩, ?_⟩
    by_cases h0 : place.getD 0 = 0
    · rw [if_pos h0] at h
      exact .inl ⟨h0, (Option.some.inj h).symm⟩
    · rw [if_neg h0] at h
      obtain ⟨s, hs, h⟩ := Option.bind_eq_some_iff.mp h
      exact .inr ⟨h0, s, ⟨n, hs⟩, (Option.some.inj h).symm⟩
  · rintro ⟨maxAddr, place, ⟨n₁, hmax⟩, ⟨n₂, hplace⟩, h⟩
    rcases h with ⟨h0, rfl⟩ | ⟨h0, s, ⟨n₃, hs⟩, rfl⟩
    · refine ⟨max n₁ n₂, ?_⟩
      unfold pmmInit
      rw [if_neg (by simp), findMax_grows n₁ _ (by omega) m _ hmax]
      show (findPlace _ _ _ _ _ _).bind _ = _
      rw [findPlace_grows _ _ n₂ _ (by omega) m _ hplace]
      exact if_pos h0
    · refine ⟨max n₁ (max n₂ n₃), ?_⟩
      unfold pmmInit
      rw [if_neg (by simp), findMax_grows n₁ _ (by omega) m _ hmax]
      show (findPlace _ _ _ _ _ _).bind _ = _
      rw [findPlace_grows _ _ n₂ _ (by omega) m _ hplace]
      refine (if_neg h0).trans ?_
      rw [releaseAll_grows _ _ _ n₃ _ (by omega) _ _ hs]
      rfl

end

end Sinux.Mm

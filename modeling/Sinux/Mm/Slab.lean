import Sinux.Mm.Phys
import Sinux.Lib.Chain

/-!
# The slab allocator (`mm/slab.c`)

A slab is a page that starts with a `slab_header_t` of 56 bytes, seven words of the page's frame.
`readHeader` and `writeHeader` are the layout of the structure in memory, and a field assignment is
`setHeader` with a record update. A cache holds the heads of its two lists; the links are in the
slab headers.

The `while` loops that look for the predecessor of a slab have fuel for as many rounds as there are
pages. `none` says that such a loop did not end. `slab_cache_create` has no caller, so the array
`caches` is empty and the last loop of `kfree_slab` makes no round.
-/

namespace Sinux.Mm

open Function Sinux.Lib

/-! ## The header -/

/-- `SLAB_MAGIC`. -/
def slabMagic : BitVec 32 := 0x5AB0BEEF

/-- `SLAB_MAX_OBJS`. -/
def slabMaxObjs : BitVec 32 := 256

/-- `slab_header_t`. -/
structure SlabHeader where
  magic : BitVec 32
  objSize : BitVec 32
  totalObjs : BitVec 32
  freeObjs : BitVec 32
  freeBitmap : Fin 4 → U64
  next : U64

/-- The word of `free_bitmap` that holds bit `idx`, for `idx < SLAB_MAX_OBJS`. -/
def bitmapWord (idx : Nat) : Fin 4 := Fin.ofNat 4 (idx / 64)

/-- `bitmap_set`. -/
def bitmapSet (bm : Fin 4 → U64) (idx : Nat) : Fin 4 → U64 :=
  update bm (bitmapWord idx) (bm (bitmapWord idx) ||| 1#64 <<< (idx % 64))

/-- `bitmap_clear`. -/
def bitmapClear (bm : Fin 4 → U64) (idx : Nat) : Fin 4 → U64 :=
  update bm (bitmapWord idx) (bm (bitmapWord idx) &&& ~~~(1#64 <<< (idx % 64)))

/-- `bitmap_test`. -/
def bitmapTest (bm : Fin 4 → U64) (idx : Nat) : Bool :=
  (bm (bitmapWord idx) >>> (idx % 64)) &&& 1#64 != 0#64

/-- `bitmap_find_free`; `none` is `-1`. -/
def bitmapFindFree (bm : Fin 4 → U64) (max : Nat) : Option Nat :=
  (List.range max).find? fun i => !bitmapTest bm i

/-- Two `uint32_t` fields in one word, the first one low. -/
def pack32 (lo hi : BitVec 32) : U64 := hi ++ lo

/-- The header as the first seven words of a page. -/
def SlabHeader.word (h : SlabHeader) (i : Fin 7) : U64 :=
  match i with
  | 0 => pack32 h.magic h.objSize
  | 1 => pack32 h.totalObjs h.freeObjs
  | 2 => h.freeBitmap 0
  | 3 => h.freeBitmap 1
  | 4 => h.freeBitmap 2
  | 5 => h.freeBitmap 3
  | 6 => h.next

/-- The header at the start of frame `f`. -/
def readHeader (m : Mem) (f : Nat) : SlabHeader where
  magic := (m f 0).setWidth 32
  objSize := (m f 0 >>> 32).setWidth 32
  totalObjs := (m f 1).setWidth 32
  freeObjs := (m f 1 >>> 32).setWidth 32
  freeBitmap := fun k => m f ⟨2 + k, by omega⟩
  next := m f 6

/-- The memory with the header `h` at the start of frame `f`. -/
def writeHeader (f : Nat) (h : SlabHeader) (m : Mem) : Mem := fun g i =>
  if g = f then (if hi : i.val < 7 then h.word ⟨i, hi⟩ else m g i) else m g i

/-- An assignment to fields of `*slab`. -/
def setHeader (slab : U64) (upd : SlabHeader → SlabHeader) (s : Phys) : Phys :=
  { s with mem := writeHeader (pageOf slab) (upd (readHeader s.mem (pageOf slab))) s.mem }

/-- `*slab`. -/
def headerAt (s : Phys) (slab : U64) : SlabHeader := readHeader s.mem (pageOf slab)

/-! ## Slabs -/

/-- `usable / obj_size`, at most `SLAB_MAX_OBJS`. -/
def slabTotal (objSize : U64) : BitVec 32 :=
  let total := (4040#64 / objSize).setWidth 32
  if slabMaxObjs < total then slabMaxObjs else total

/-- `slab_create`; 0 is `NULL`. -/
def slabCreate (objSize : U64) (s : Phys) : U64 × Phys :=
  let (page, s) := s.alloc
  if page = 0 then (0, s)
  else (page, setHeader page (fun _ => ⟨slabMagic, objSize.setWidth 32, slabTotal objSize,
    slabTotal objSize, fun _ => 0, 0⟩) s)

/-- `slab_get_obj`. -/
def slabGetObj (s : Phys) (slab : U64) (idx : Nat) : U64 :=
  slab + 56 + (BitVec.ofNat 32 idx * (headerAt s slab).objSize).setWidth 64

/-- `slab_find_obj_idx`; `none` is `-1`. The offset is below a page, so no conversion loses bits. -/
def slabFindObjIdx (s : Phys) (slab ptr : U64) : Option Nat :=
  let base := slab + 56
  if ptr < base then none else
  let offset := (ptr - base).toNat
  let size := (headerAt s slab).objSize.toNat
  if offset % size ≠ 0 then none else
  let idx := offset / size
  if (headerAt s slab).totalObjs.toNat ≤ idx then none else some idx

/-- `slab_cache_t`, with the list heads `partial` and `full`. -/
structure SlabCache where
  objSize : U64
  partialHead : U64
  fullHead : U64
  numAllocs : U64
  numFrees : U64
  numSlabs : U64

/-- `bitmap_set(slab->free_bitmap, idx); slab->free_objs--;` -/
def SlabHeader.take (idx : Nat) (h : SlabHeader) : SlabHeader :=
  { h with freeBitmap := bitmapSet h.freeBitmap idx, freeObjs := h.freeObjs - 1 }

/-- `bitmap_clear(slab->free_bitmap, idx); slab->free_objs++;` -/
def SlabHeader.give (idx : Nat) (h : SlabHeader) : SlabHeader :=
  { h with freeBitmap := bitmapClear h.freeBitmap idx, freeObjs := h.freeObjs + 1 }

/-- Take `slab` out of the list at `head`: the head moves on, or the predecessor is relinked. -/
def unlinkSlab (head slab : U64) (s : Phys) : Option (U64 × Phys) :=
  if head = slab then some ((headerAt s slab).next, s)
  else do
    let prev ← findPrev (fun p => (headerAt s p).next) 0 slab s.pmm.totalPages head
    if prev = 0 then some (head, s)
    else some (head, setHeader prev (fun h => { h with next := (headerAt s slab).next }) s)

/-- A slab changes lists: out of the one at `head`, in front of the one at `dst`. -/
def moveSlab (head slab dst : U64) (s : Phys) : Option (U64 × Phys) := do
  let (head, s) ← unlinkSlab head slab s
  some (head, setHeader slab (fun h => { h with next := dst }) s)

/-- A new slab in front of the partial list; 0 is `NULL`. -/
def slabGrow (c : SlabCache) (s : Phys) : U64 × SlabCache × Phys :=
  let (slab, s) := slabCreate c.objSize s
  if slab = 0 then (0, c, s)
  else (slab, { c with partialHead := slab, numSlabs := c.numSlabs + 1 },
    setHeader slab (fun h => { h with next := c.partialHead }) s)

/-- The slab `slab_alloc` looks at first: the head of the partial list, or a new one. -/
def slabPick (c : SlabCache) (s : Phys) : U64 × SlabCache × Phys :=
  if c.partialHead = 0 then slabGrow c s else (c.partialHead, c, s)

/-- The end of `slab_alloc`: object `idx` of `slab` is taken, a full slab changes lists. -/
def slabTake (slab : U64) (idx : Nat) (c : SlabCache) (s : Phys) :
    Option (U64 × SlabCache × Phys) := do
  let s := setHeader slab (SlabHeader.take idx) s
  let c := { c with numAllocs := c.numAllocs + 1 }
  if (headerAt s slab).freeObjs = 0 then
    let (head, s) ← moveSlab c.partialHead slab c.fullHead s
    some (slabGetObj s slab idx, { c with partialHead := head, fullHead := slab }, s)
  else some (slabGetObj s slab idx, c, s)

/-- `slab_alloc`. -/
def slabAlloc (c : SlabCache) (s : Phys) : Option (U64 × SlabCache × Phys) :=
  let (slab, c, s) := slabPick c s
  if slab = 0 then some (0, c, s) else
  match bitmapFindFree (headerAt s slab).freeBitmap (headerAt s slab).totalObjs.toNat with
  | some idx => slabTake slab idx c s
  | none =>
    let (slab, c, s) := slabGrow c s
    if slab = 0 then some (0, c, s) else slabTake slab 0 c s

/-- The middle of `slab_free`: object `idx` of `slab` is given back, and a slab that was full
changes lists. -/
def slabGive (slab : U64) (idx : Nat) (c : SlabCache) (s : Phys) : Option (SlabCache × Phys) :=
  let wasFull := decide ((headerAt s slab).freeObjs = 0)
  let s := setHeader slab (SlabHeader.give idx) s
  let c := { c with numFrees := c.numFrees + 1 }
  if wasFull then do
    let (head, s) ← moveSlab c.fullHead slab c.partialHead s
    some ({ c with partialHead := slab, fullHead := head }, s)
  else some (c, s)

/-- The end of `slab_free`: an empty slab is given back when the cache has more than two. -/
def slabRelease (slab : U64) (c : SlabCache) (s : Phys) : Option (SlabCache × Phys) :=
  if (headerAt s slab).freeObjs = (headerAt s slab).totalObjs ∧ 2 < c.numSlabs then do
    let (head, s) ← unlinkSlab c.partialHead slab s
    some ({ c with partialHead := head, numSlabs := c.numSlabs - 1 }, s.free slab)
  else some (c, s)

/-- `slab_free`. -/
def slabFree (c : SlabCache) (ptr : U64) (s : Phys) : Option (SlabCache × Phys) :=
  if ptr = 0 then some (c, s) else
  let slab := pageMask ptr
  if (headerAt s slab).magic ≠ slabMagic then some (c, s) else
  match slabFindObjIdx s slab ptr with
  | none => some (c, s)
  | some idx =>
    if bitmapTest (headerAt s slab).freeBitmap idx = false then some (c, s) else do
    let (c, s) ← slabGive slab idx c s
    slabRelease slab c s

/-! ## `kmalloc_slab` and `kfree_slab` -/

/-- Physical memory and `size_caches`. -/
structure Heap where
  phys : Phys
  caches : Fin 8 → SlabCache

/-- The `sizes` of `slab_init`. -/
def slabSizes : Fin 8 → U64 := fun i => [16, 32, 64, 128, 256, 512, 1024, 2048].get i

/-- `slab_init`. -/
def slabInit (s : Phys) : Heap := ⟨s, fun i => ⟨slabSizes i, 0, 0, 0, 0, 0⟩⟩

/-- `for (j = 0; j < i; j++) pmm_free(ptr + j * PAGE_SIZE);` -/
def freeRange (ptr : U64) (i : Nat) (s : Phys) : Phys :=
  (List.range i).foldl (fun s j => s.free (ptr + BitVec.ofNat 64 j * 4096)) s

/-- The loop over the pages after the first, in round `i` with `n` rounds to go. -/
def largeLoop (ptr : U64) : (n i : Nat) → Phys → U64 × Phys
  | 0, _, s => (ptr, s)
  | n + 1, i, s =>
    let (p, s) := s.alloc
    if p = 0 then (0, freeRange ptr i s) else largeLoop ptr n (i + 1) s

/-- `kmalloc_slab` above 2048 bytes. -/
def kmallocLarge (size : U64) (s : Phys) : U64 × Phys :=
  let pages := (size + 4096 - 1) / 4096
  let (ptr, s) := s.alloc
  if ptr = 0 then (0, s) else largeLoop ptr (pages.toNat - 1) 1 s

/-- `kmalloc_slab`, with its result and the heap after it. -/
def kmallocSlab (size : U64) (h : Heap) : Option (U64 × Heap) :=
  if size = 0 then some (0, h) else
  if 2048 < size then
    let (ptr, s) := kmallocLarge size h.phys
    some (ptr, { h with phys := s })
  else
    match (List.finRange 8).find? fun i => decide (size ≤ (h.caches i).objSize) with
    | some i => do
      let (ptr, c, s) ← slabAlloc (h.caches i) h.phys
      some (ptr, ⟨s, update h.caches i c⟩)
    | none => some (0, h)

/-- `kfree_slab`. -/
def kfreeSlab (ptr : U64) (h : Heap) : Option Heap :=
  if ptr = 0 then some h else
  let slab := pageMask ptr
  if (headerAt h.phys slab).magic ≠ slabMagic then some { h with phys := h.phys.free ptr } else
  match (List.finRange 8).find? fun i =>
      decide ((h.caches i).objSize = (headerAt h.phys slab).objSize.setWidth 64) with
  | some i => do
    let (c, s) ← slabFree (h.caches i) ptr h.phys
    some ⟨s, update h.caches i c⟩
  | none => some h

/-! ## The header in memory -/

theorem pack32_toNat (lo hi : BitVec 32) :
    (pack32 lo hi).toNat = hi.toNat * 2 ^ 32 + lo.toNat := by
  have h : (pack32 lo hi).toNat = hi.toNat <<< 32 ||| lo.toNat := BitVec.toNat_append hi lo
  rw [h, ← Nat.shiftLeft_add_eq_or_of_lt lo.isLt, Nat.shiftLeft_eq]

theorem pack32_lo (lo hi : BitVec 32) : (pack32 lo hi).setWidth 32 = lo := by
  apply BitVec.eq_of_toNat_eq
  have := lo.isLt
  rw [BitVec.toNat_setWidth, pack32_toNat]
  omega

theorem pack32_hi (lo hi : BitVec 32) : (pack32 lo hi >>> 32).setWidth 32 = hi := by
  apply BitVec.eq_of_toNat_eq
  have := lo.isLt
  have := hi.isLt
  rw [BitVec.toNat_setWidth, BitVec.toNat_ushiftRight, pack32_toNat, Nat.shiftRight_eq_div_pow]
  omega

theorem readHeader_congr {m m' : Mem} {f : Nat} (h : ∀ i : Fin 512, i.val < 7 → m' f i = m f i) :
    readHeader m' f = readHeader m f := by
  unfold readHeader
  rw [h 0 (by decide), h 1 (by decide), h 6 (by decide)]
  congr 1
  funext k
  exact h _ (show 2 + k.val < 7 by omega)

theorem readHeader_writeHeader (f : Nat) (h : SlabHeader) (m : Mem) :
    readHeader (writeHeader f h m) f = h := by
  have hw : ∀ (i : Fin 512) (hi : i.val < 7), writeHeader f h m f i = h.word ⟨i, hi⟩ :=
    fun i hi => by
      unfold writeHeader
      rw [if_pos rfl, dif_pos hi]
  obtain ⟨magic, objSize, totalObjs, freeObjs, bm, next⟩ := h
  unfold readHeader
  rw [hw 0 (by decide), hw 1 (by decide), hw 6 (by decide)]
  congr 1
  · exact pack32_lo magic objSize
  · exact pack32_hi magic objSize
  · exact pack32_lo totalObjs freeObjs
  · exact pack32_hi totalObjs freeObjs
  · funext k
    rw [hw _ (show 2 + k.val < 7 by omega)]
    match k with
    | 0 => rfl
    | 1 => rfl
    | 2 => rfl
    | 3 => rfl

theorem headerAt_setHeader (slab p : U64) (upd : SlabHeader → SlabHeader) (s : Phys) :
    headerAt (setHeader slab upd s) p =
      if pageOf p = pageOf slab then upd (headerAt s slab) else headerAt s p := by
  unfold headerAt setHeader
  by_cases h : pageOf p = pageOf slab
  · rw [if_pos h, h]
    exact readHeader_writeHeader _ _ _
  · rw [if_neg h]
    refine readHeader_congr fun i _ => ?_
    exact if_neg h

theorem headerAt_setHeader_self (slab : U64) (upd : SlabHeader → SlabHeader) (s : Phys) :
    headerAt (setHeader slab upd s) slab = upd (headerAt s slab) := by
  rw [headerAt_setHeader, if_pos rfl]

/-! ## The bitmap is a packed bit set -/

/-- `free_bitmap` with zeros after its four words. -/
def bitmapWords (bm : Fin 4 → U64) (k : Nat) : U64 := if h : k < 4 then bm ⟨k, h⟩ else 0

theorem bitmapWord_eq {idx : Nat} (h : idx < 256) : (bitmapWord idx).val = idx / 64 :=
  Nat.mod_eq_of_lt (by omega)

theorem bitmapWords_apply {idx : Nat} (h : idx < 256) (bm : Fin 4 → U64) :
    bitmapWords bm (idx / 64) = bm (bitmapWord idx) := by
  unfold bitmapWords
  rw [dif_pos (by omega)]
  exact congrArg bm (Fin.ext (bitmapWord_eq h).symm)

theorem bitmapTest_eq {idx : Nat} (h : idx < 256) (bm : Fin 4 → U64) :
    bitmapTest bm idx = PackedBits.test (bitmapWords bm) idx := by
  unfold bitmapTest PackedBits.test
  rw [shiftRight_and_one_ne_zero (by decide), bitmapWords_apply h]

theorem bitmapWords_update {idx : Nat} (h : idx < 256) (bm : Fin 4 → U64) (v : U64) :
    bitmapWords (update bm (bitmapWord idx) v) =
      update (bitmapWords bm) (idx / 64) v := by
  funext k
  unfold bitmapWords
  by_cases hk : k = idx / 64
  · subst hk
    rw [update_self, dif_pos (by omega)]
    have : (⟨idx / 64, by omega⟩ : Fin 4) = bitmapWord idx := Fin.ext (bitmapWord_eq h).symm
    rw [this, update_self]
  · rw [update_of_ne hk]
    by_cases hk4 : k < 4
    · rw [dif_pos hk4, dif_pos hk4, update_of_ne]
      intro he
      rw [← bitmapWord_eq h, ← he] at hk
      exact hk rfl
    · rw [dif_neg hk4, dif_neg hk4]

theorem bitmapSet_eq {idx : Nat} (h : idx < 256) (bm : Fin 4 → U64) :
    bitmapWords (bitmapSet bm idx) = PackedBits.set (bitmapWords bm) idx := by
  unfold bitmapSet PackedBits.set
  rw [bitmapWords_update h, bitmapWords_apply h]

theorem bitmapClear_eq {idx : Nat} (h : idx < 256) (bm : Fin 4 → U64) :
    bitmapWords (bitmapClear bm idx) = PackedBits.clear (bitmapWords bm) idx := by
  unfold bitmapClear PackedBits.clear
  rw [bitmapWords_update h, bitmapWords_apply h]

theorem bitmapFindFree_eq {n : Nat} (hn : n ≤ 256) (bm : Fin 4 → U64) :
    bitmapFindFree bm n = PackedBits.firstClear (bitmapWords bm) n := by
  unfold bitmapFindFree PackedBits.firstClear
  have h : ∀ l : List Nat, (∀ i ∈ l, i < 256) → (l.find? fun i => !bitmapTest bm i) =
      l.find? fun i => !PackedBits.test (bitmapWords bm) i := by
    intro l hl
    induction l with
    | nil => rfl
    | cons i l ih =>
      rw [List.find?_cons, List.find?_cons, bitmapTest_eq (hl i List.mem_cons_self),
        ih fun j hj => hl j (List.mem_cons_of_mem i hj)]
  exact h _ fun i hi => lt_of_lt_of_le (List.mem_range.mp hi) hn

end Sinux.Mm

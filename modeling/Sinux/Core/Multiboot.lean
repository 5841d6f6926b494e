import Sinux.Lib.ByteMem
import Sinux.Lib.While

/-!
# Walks over the Multiboot2 information block (`kernel/core/multiboot.c`, `mm/pmm.c`)

The model:

- The tag loop and the loop over the entries of a memory-map tag stand in the source five times, in
  `pmm_init` (three times), `mb2_parse` and `cmd_mem`. Here they are `tagRound` and `entryRound`,
  with the walk's own work as parameters. They read memory as the source does: `tag->size` and
  `mt->entry_size` again in every round, `ee` once per tag.
- `ok` says which bytes may be read; a read of another byte stops the walk, and so does running out
  of fuel. With `ok = everywhere` this is the kernel, with `ok = inBlock ..` a machine on which a
  read outside the block faults.
- `boot.asm` keeps the loader's `ebx` in 32 bits, and `kernel_main` gets it zero-extended.

Results:

- `WalkKeeps.walk_returns`: over a list of good tags a walk is a fold over the entries, in every
  memory that agrees on the block.
- `Sees`, `Sees.eq_foldl`: a walk that changes the block under its feet is still the fold over the
  entries that it saw.
- `not_returns_of_stuck`: a tag of step 0 holds every walk.
-/

namespace Sinux.Core.Multiboot

open Sinux.Lib Sinux.Lib.ByteMem

/-! ## The structures -/

/-- `MB2_MAGIC_VAL`. -/
def mb2MagicVal : BitVec 32 := 0x36D76289

/-- `TAG_END`. -/
def tagEnd : BitVec 32 := 0

/-- `TAG_MMAP`. -/
def tagMmap : BitVec 32 := 6

/-- `TAG_FB`. -/
def tagFb : BitVec 32 := 8

/-- `mb2_mmap_entry_t`; `_res` is never read. -/
structure Entry where
  base : U64
  len : U64
  type : BitVec 32
deriving DecidableEq

/-- The fields of the entry at `ep`. -/
def entryAt (m : Memory) (ep : U64) : Entry := ⟨word m ep, word m (ep + 8), word32 m (ep + 16)⟩

/-- The `n` bytes at `a` may be read. -/
def readable (ok : U64 → Bool) (a : U64) (n : Nat) : Bool :=
  (List.range n).all fun i => ok (a + BitVec.ofNat 64 i)

def read32 (ok : U64 → Bool) (m : Memory) (a : U64) : Option (BitVec 32) :=
  if readable ok a 4 then some (word32 m a) else none

/-- `base`, `len` and `type` are the first 20 bytes. -/
def readEntry (ok : U64 → Bool) (m : Memory) (ep : U64) : Option Entry :=
  if readable ok ep 20 then some (entryAt m ep) else none

def everywhere : U64 → Bool := fun _ => true

/-- The block: `hdr->total` bytes from `info` on. -/
def inBlock (info endPtr : U64) : U64 → Bool := fun a => decide (info ≤ a ∧ a < endPtr)

/-- `(uint8_t *)hdr + hdr->total`. -/
def blockEnd (m : Memory) (info : U64) : U64 := info + (word32 m info).setWidth 64

/-- `mov esi, [mb2_info_save]`. -/
def infoAddr (ebx : BitVec 32) : U64 := ebx.setWidth 64

/-- `(tag->size + 7) & ~7u`, in 32 bits. -/
def tagStep (size : BitVec 32) : U64 := ((size + 7) &&& ~~~(7 : BitVec 32)).setWidth 64

/-! ## The loops -/

section

variable {σ : Type} (ok : U64 → Bool) (mem : σ → Memory) (placed : σ → Bool)

/-- A round of `while (ep + mt->entry_size <= ee && !placed)`. -/
def entryRound (visit : σ → Entry → σ) (mt ee : U64) (_ : Nat) :
    U64 × σ → Option ((U64 × σ) ⊕ σ)
  | (ep, s) => do
    let size ← read32 ok (mem s) (mt + 8)
    if ep + size.setWidth 64 ≤ ee ∧ placed s = false then do
      let e ← readEntry ok (mem s) ep
      let size ← read32 ok (mem (visit s e)) (mt + 8)
      some (.inl (ep + size.setWidth 64, visit s e))
    else some (.inr s)

/-- The body of the tag loop for a walk over the memory map. -/
def mmapBody (enter : σ → σ) (visit : σ → Entry → σ) (n : Nat) (type : BitVec 32) (ptr : U64)
    (s : σ) : Option σ :=
  if type = tagMmap then do
    let size ← read32 ok (mem (enter s)) (ptr + 4)
    whileFuel (entryRound ok mem placed visit ptr (ptr + size.setWidth 64)) n (ptr + 16, enter s)
  else some s

/-- A round of `while (ptr + sizeof(mb2_tag_t) <= end && !placed)`. -/
def tagRound (body : Nat → BitVec 32 → U64 → σ → Option σ) (endPtr : U64) (n : Nat) :
    U64 × σ → Option ((U64 × σ) ⊕ σ)
  | (ptr, s) =>
    if ptr + 8 ≤ endPtr ∧ placed s = false then do
      let type ← read32 ok (mem s) ptr
      if type = tagEnd then some (.inr s)
      else do
        let s ← body n type ptr s
        let size ← read32 ok (mem s) (ptr + 4)
        some (.inl (ptr + tagStep size, s))
    else some (.inr s)

/-- A walk over the entries of the memory map. -/
def mmapWalk (enter : σ → σ) (visit : σ → Entry → σ) (endPtr : U64) : Nat → U64 × σ → Option σ :=
  whileFuel (tagRound ok mem placed (mmapBody ok mem placed enter visit) endPtr)

end

/-! ## `mb2_parse` and `cmd_mem` -/

/-- The arguments of `fb_set_info`. -/
structure FbInfo where
  addr : U64
  pitch : BitVec 32
  width : BitVec 32
  height : BitVec 32
  bpp : BitVec 8
deriving DecidableEq

/-- `if (fb->fb_type == 1) fb_set_info(..)` at a `TAG_FB`. -/
def fbBody (m : Memory) (_ : Nat) (type : BitVec 32) (ptr : U64) (fb : Option FbInfo) :
    Option (Option FbInfo) :=
  if type = tagFb ∧ m (ptr + 29) = 1 then
    some (some ⟨word m (ptr + 8), word32 m (ptr + 16), word32 m (ptr + 20), word32 m (ptr + 24),
      m (ptr + 28)⟩)
  else some fb

/-- `mb2_parse`: the last framebuffer reported, `fb` if there is none. -/
def mb2Parse (ok : U64 → Bool) (m : Memory) (magic : BitVec 32) (info : U64) (n : Nat)
    (fb : Option FbInfo) : Option (Option FbInfo) :=
  if magic ≠ mb2MagicVal then some fb
  else whileFuel (tagRound ok (fun _ => m) (fun _ => false) (fbBody m) (blockEnd m info)) n
    (info + 8, fb)

/-- `mmap_type`. -/
def mmapType (t : BitVec 32) : String :=
  if t = 1 then "Usable  "
  else if t = 2 then "Reserved"
  else if t = 3 then "ACPI    "
  else if t = 4 then "ACPI NVS"
  else if t = 5 then "Bad RAM "
  else "Unknown "

/-- What `cmd_mem` prints, call by call. -/
inductive Line
  | noInfo
  | noTag
  /-- The two lines above the rows. -/
  | header
  | row (base len : U64) (type : String)
  | usable (mib : U64)
deriving DecidableEq

/-- The local variables of `cmd_mem` and what has been printed. -/
structure MemReport where
  usable : U64
  found : Bool
  out : List Line
deriving DecidableEq

/-- At a `TAG_MMAP`. -/
def MemReport.enter (r : MemReport) : MemReport :=
  { r with found := true, out := r.out ++ [.header] }

def MemReport.visit (r : MemReport) (e : Entry) : MemReport :=
  { r with
    usable := if e.type = 1 then r.usable + e.len else r.usable
    out := r.out ++ [.row e.base e.len (mmapType e.type)] }

/-- The lines after the loop. -/
def MemReport.finish (r : MemReport) : List Line :=
  if r.found = false then r.out ++ [.noTag] else r.out ++ [.usable (r.usable >>> 20)]

/-- `cmd_mem`. -/
def cmdMem (ok : U64 → Bool) (magic : BitVec 32) (info : U64) (n : Nat) (m : Memory) :
    Option (List Line) :=
  if magic ≠ mb2MagicVal then some [.noInfo]
  else (mmapWalk ok (fun _ => m) (fun _ => false) MemReport.enter MemReport.visit (blockEnd m info)
    n (info + 8, ⟨0, false, []⟩)).map MemReport.finish

/-! ## Tags -/

section

variable (m : Memory) (endPtr ptr : U64)

/-- `tag->type`. -/
def tagType : BitVec 32 := word32 m ptr

/-- `tag->size`. -/
def tagSize : BitVec 32 := word32 m (ptr + 4)

/-- `mt->entry_size`. -/
def entrySize : BitVec 32 := word32 m (ptr + 8)

/-- Where the next tag starts. -/
def tagNext : U64 := ptr + tagStep (tagSize m ptr)

/-- How many entries a memory-map tag has. -/
def entryCount : Nat := ((tagSize m ptr).toNat - 16) / (entrySize m ptr).toNat

/-- The entries of the tag at `ptr`. -/
def tagEntries : List Entry :=
  if tagType m ptr = tagMmap then
    (List.range (entryCount m ptr)).map fun k =>
      entryAt m (ptr + 16 + BitVec.ofNat 64 (k * (entrySize m ptr).toNat))
  else []

end

/-- The tags from `ptr` on, up to the end tag or the end of the block. -/
inductive TagList (m : Memory) (endPtr : U64) : U64 → List U64 → Prop
  | past {ptr : U64} (h : ¬ ptr + 8 ≤ endPtr) : TagList m endPtr ptr []
  | last {ptr : U64} (h : ptr + 8 ≤ endPtr) (ht : tagType m ptr = tagEnd) : TagList m endPtr ptr []
  | tag {ptr : U64} {l : List U64} (h : ptr + 8 ≤ endPtr) (ht : tagType m ptr ≠ tagEnd)
      (hl : TagList m endPtr (tagNext m ptr) l) : TagList m endPtr ptr (ptr :: l)

/-- The memory map: the entries of all tags, in the order of the walk. -/
def mapEntries (m : Memory) (l : List U64) : List Entry := l.flatMap (tagEntries m)

theorem tagStep_toNat (size : BitVec 32) :
    (tagStep size).toNat = (size.toNat + 7) % 2 ^ 32 / 8 * 8 := by
  have h := lowMask_toNat (size + 7) 3
  have hlt := (size + 7).isLt
  unfold tagStep
  rw [BitVec.toNat_setWidth, show (7 : BitVec 32) = BitVec.ofNat 32 (2 ^ 3 - 1) from rfl]
  rw [show (7 : BitVec 32) = BitVec.ofNat 32 (2 ^ 3 - 1) from rfl] at h
  rw [h, BitVec.toNat_add]
  have : (BitVec.ofNat 32 (2 ^ 3 - 1)).toNat = 7 := rfl
  omega

/-! ## Reads -/

theorem readable_iff {ok : U64 → Bool} {a : U64} {n : Nat} :
    readable ok a n = true ↔ ∀ i, i < n → ok (a + BitVec.ofNat 64 i) = true := by
  simp [readable]

theorem readable_everywhere (a : U64) (n : Nat) : readable everywhere a n = true :=
  readable_iff.mpr fun _ _ => rfl

theorem read32_of_readable {ok : U64 → Bool} {a : U64} (h : readable ok a 4 = true) (m : Memory) :
    read32 ok m a = some (word32 m a) := if_pos h

theorem read32_some {ok : U64 → Bool} {m : Memory} {a : U64} {x : BitVec 32}
    (h : read32 ok m a = some x) : readable ok a 4 = true ∧ x = word32 m a := by
  obtain ⟨hr, hx⟩ := Option.ite_none_right_eq_some.mp h
  exact ⟨hr, (Option.some.inj hx).symm⟩

/-- The bytes `[a, a + n)` lie in the block. -/
def Inside (info endPtr a : U64) (n : Nat) : Prop :=
  info.toNat ≤ a.toNat ∧ a.toNat + n ≤ endPtr.toNat

theorem Inside.byte {info endPtr a : U64} {n i : Nat} (h : Inside info endPtr a n) (hi : i < n) :
    info.toNat ≤ (a + BitVec.ofNat 64 i).toNat ∧
      (a + BitVec.ofNat 64 i).toNat < endPtr.toNat := by
  have hlt := endPtr.isLt
  obtain ⟨h₁, h₂⟩ := h
  rw [add_ofNat_toNat (by omega)]
  omega

/-- The memory agrees with `m` on the block. -/
def Agrees (info endPtr : U64) (m m' : Memory) : Prop :=
  ∀ a, info.toNat ≤ a.toNat → a.toNat < endPtr.toNat → m' a = m a

section

variable {info endPtr a : U64} {m m' : Memory} {ok : U64 → Bool}
  (hok : ∀ a, info.toNat ≤ a.toNat → a.toNat < endPtr.toNat → ok a = true)

include hok

theorem readable_inside {n : Nat} (h : Inside info endPtr a n) : readable ok a n = true :=
  readable_iff.mpr fun _ hi => hok _ (h.byte hi).1 (h.byte hi).2

theorem read32_inside (hm : Agrees info endPtr m m') (h : Inside info endPtr a 4) :
    read32 ok m' a = some (word32 m a) := by
  rw [read32_of_readable (readable_inside hok h), word32_congr fun i hi => ?_]
  exact hm _ (h.byte hi).1 (h.byte hi).2

theorem readEntry_inside (hm : Agrees info endPtr m m') (h : Inside info endPtr a 20) :
    readEntry ok m' a = some (entryAt m a) := by
  have hbyte (i : Nat) (hi : i < 20) : m' (a + BitVec.ofNat 64 i) = m (a + BitVec.ofNat 64 i) :=
    hm _ (h.byte hi).1 (h.byte hi).2
  have hbase : word m' a = word m a := word_congr fun i hi => hbyte i (by omega)
  have hlen : word m' (a + 8) = word m (a + 8) := word_congr fun i hi => by
    rw [show (8 : U64) = BitVec.ofNat 64 8 from rfl, add_ofNat_add]
    exact hbyte _ (by omega)
  have htype : word32 m' (a + 16) = word32 m (a + 16) := word32_congr fun i hi => by
    rw [show (16 : U64) = BitVec.ofNat 64 16 from rfl, add_ofNat_add]
    exact hbyte _ (by omega)
  rw [readEntry, if_pos (readable_inside hok h), entryAt, hbase, hlen, htype]
  rfl

end

/-! ## A walk is a fold -/

/-- The entry loop passes the tag at `ptr` without leaving the block. -/
structure TagGood (ok : U64 → Bool) (m : Memory) (endPtr ptr : U64) : Prop where
  field : tagType m ptr = tagMmap → readable ok (ptr + 8) 4 = true
  header : tagType m ptr = tagMmap → 16 ≤ (tagSize m ptr).toNat → ptr.toNat + 12 ≤ endPtr.toNat
  entries : tagType m ptr = tagMmap → 16 + (entrySize m ptr).toNat ≤ (tagSize m ptr).toNat →
    entrySize m ptr ≠ 0 ∧ ∀ k, 16 + (k + 1) * (entrySize m ptr).toNat ≤ (tagSize m ptr).toNat →
      ptr.toNat + 36 + k * (entrySize m ptr).toNat ≤ endPtr.toNat

/-- A walk that leaves the block alone while `P` holds. -/
structure WalkKeeps {σ : Type} (ok : U64 → Bool) (mem : σ → Memory) (placed : σ → Bool)
    (enter : σ → σ) (visit : σ → Entry → σ) (info endPtr : U64) (m : Memory) (P : σ → Prop) :
    Prop where
  readable : ∀ a, info.toNat ≤ a.toNat → a.toNat < endPtr.toNat → ok a = true
  agrees : ∀ s, P s → Agrees info endPtr m (mem s)
  enters : ∀ s, P s → P (enter s)
  visits : ∀ s e, P s → P (visit s e)
  stops : ∀ s, placed s = true → enter s = s ∧ ∀ e, visit s e = s

/-- What a walk makes of the tag at `ptr`. -/
def tagFold {σ : Type} (m : Memory) (enter : σ → σ) (visit : σ → Entry → σ) (s : σ) (ptr : U64) :
    σ :=
  if tagType m ptr = tagMmap then (tagEntries m ptr).foldl visit (enter s) else s

section

variable {σ : Type} {ok : U64 → Bool} {mem : σ → Memory} {placed : σ → Bool} {enter : σ → σ}
  {visit : σ → Entry → σ} {info endPtr ptr : U64} {m : Memory} {P : σ → Prop} {s : σ}

theorem add_setWidth_toNat {a : U64} (ha : a.toNat < 2 ^ 36) (x : BitVec 32) :
    (a + x.setWidth 64).toNat = a.toNat + x.toNat := by
  have := x.isLt
  rw [BitVec.toNat_add, BitVec.toNat_setWidth]
  omega

theorem entry_toNat (hhi : ptr.toNat < 2 ^ 34) {k : Nat} (hk : k < 2 ^ 34) :
    (ptr + 16 + BitVec.ofNat 64 k).toNat = ptr.toNat + 16 + k := by
  rw [show (16 : U64) = BitVec.ofNat 64 16 from rfl, add_ofNat_add, add_ofNat_toNat (by omega)]
  omega

theorem entryRound_done {ee : U64} {x : BitVec 32} {ep : U64}
    (hread : read32 ok (mem s) (ptr + 8) = some x)
    (hout : ¬ (ep + x.setWidth 64 ≤ ee ∧ placed s = false)) (n : Nat) :
    entryRound ok mem placed visit ptr ee n (ep, s) = some (.inr s) := by
  unfold entryRound
  dsimp only
  rw [hread]
  exact if_neg hout

theorem entryRound_next {ee : U64} {x y : BitVec 32} {ep : U64} {e : Entry}
    (hread : read32 ok (mem s) (ptr + 8) = some x)
    (hin : ep + x.setWidth 64 ≤ ee ∧ placed s = false)
    (he : readEntry ok (mem s) ep = some e)
    (hread' : read32 ok (mem (visit s e)) (ptr + 8) = some y) (n : Nat) :
    entryRound ok mem placed visit ptr ee n (ep, s) =
      some (.inl (ep + y.setWidth 64, visit s e)) := by
  unfold entryRound
  dsimp only
  rw [hread]
  refine (if_pos hin).trans ?_
  rw [he]
  show (read32 ok (mem (visit s e)) (ptr + 8)).bind _ = _
  rw [hread']
  rfl

theorem entryRound_grows (ee : U64) : Grows (entryRound ok mem placed visit ptr ee) :=
  grows_const (entryRound ok mem placed visit ptr ee 0)

variable {body : Nat → BitVec 32 → U64 → σ → Option σ}

theorem tagRound_done (h : ¬ (ptr + 8 ≤ endPtr ∧ placed s = false)) (n : Nat) :
    tagRound ok mem placed body endPtr n (ptr, s) = some (.inr s) := if_neg h

theorem tagRound_end (h : ptr + 8 ≤ endPtr ∧ placed s = false)
    (hread : read32 ok (mem s) ptr = some tagEnd) (n : Nat) :
    tagRound ok mem placed body endPtr n (ptr, s) = some (.inr s) := by
  unfold tagRound
  dsimp only
  rw [if_pos h, hread]
  rfl

theorem tagRound_next {type size : BitVec 32} {s' : σ} {n : Nat}
    (h : ptr + 8 ≤ endPtr ∧ placed s = false) (hread : read32 ok (mem s) ptr = some type)
    (ht : type ≠ tagEnd) (hbody : body n type ptr s = some s')
    (hsize : read32 ok (mem s') (ptr + 4) = some size) :
    tagRound ok mem placed body endPtr n (ptr, s) = some (.inl (ptr + tagStep size, s')) := by
  unfold tagRound
  dsimp only
  rw [if_pos h, hread]
  refine (if_neg ht).trans ?_
  rw [hbody]
  show (read32 ok (mem s') (ptr + 4)).bind _ = _
  rw [hsize]
  rfl

theorem tagRound_cases {n : Nat} {r : (U64 × σ) ⊕ σ}
    (h : tagRound ok mem placed body endPtr n (ptr, s) = some r) :
    (r = .inr s ∧ (¬ (ptr + 8 ≤ endPtr ∧ placed s = false) ∨
      (ptr + 8 ≤ endPtr ∧ placed s = false) ∧ read32 ok (mem s) ptr = some tagEnd)) ∨
    ∃ type s' size, (ptr + 8 ≤ endPtr ∧ placed s = false) ∧ read32 ok (mem s) ptr = some type ∧
      type ≠ tagEnd ∧ body n type ptr s = some s' ∧ read32 ok (mem s') (ptr + 4) = some size ∧
      r = .inl (ptr + tagStep size, s') := by
  by_cases hc : ptr + 8 ≤ endPtr ∧ placed s = false
  · cases hread : read32 ok (mem s) ptr with
    | none =>
      unfold tagRound at h
      dsimp only at h
      rw [if_pos hc, hread] at h
      cases h
    | some type =>
      by_cases ht : type = tagEnd
      · subst ht
        rw [tagRound_end hc hread] at h
        cases h
        exact .inl ⟨rfl, .inr ⟨hc, rfl⟩⟩
      · unfold tagRound at h
        dsimp only at h
        rw [if_pos hc, hread] at h
        replace h := (if_neg ht).symm.trans h
        obtain ⟨s', hbody, h⟩ := Option.bind_eq_some_iff.mp h
        obtain ⟨size, hsize, h⟩ := Option.bind_eq_some_iff.mp h
        cases h
        exact .inr ⟨type, s', size, hc, rfl, ht, hbody, hsize, rfl⟩
  · rw [tagRound_done hc] at h
    cases h
    exact .inl ⟨rfl, .inl hc⟩

theorem tagRound_grows (hbody : ∀ type ptr, Grows fun n s => body n type ptr s) :
    Grows (tagRound ok mem placed body endPtr) := by
  rintro n k hk ⟨ptr, s⟩ r h
  rcases tagRound_cases h with ⟨rfl, hc | ⟨hc, hread⟩⟩ |
    ⟨type, s', size, hc, hread, ht, hb, hsize, rfl⟩
  · exact tagRound_done hc k
  · exact tagRound_end hc hread k
  · exact tagRound_next hc hread ht (hbody type ptr n k hk s s' hb) hsize

variable (w : WalkKeeps ok mem placed enter visit info endPtr m P)

include w

theorem WalkKeeps.foldl (hs : P s) (l : List Entry) : P (l.foldl visit s) := by
  induction l generalizing s with
  | nil => exact hs
  | cons e l ih => exact ih (w.visits s e hs)

theorem WalkKeeps.foldl_placed (hp : placed s = true) (l : List Entry) : l.foldl visit s = s := by
  induction l with
  | nil => rfl
  | cons e l ih => rw [List.foldl_cons, (w.stops s hp).2 e, ih]

theorem WalkKeeps.entries_from (hlo : info.toNat ≤ ptr.toNat) (hhi : ptr.toNat < 2 ^ 34)
    (ht : tagType m ptr = tagMmap) (hg : TagGood ok m endPtr ptr)
    (hsize : 16 + (entrySize m ptr).toNat ≤ (tagSize m ptr).toNat) (d k : Nat)
    (hk : k + d = entryCount m ptr) (hs : P s) :
    Returns (whileFuel (entryRound ok mem placed visit ptr
        (ptr + (tagSize m ptr).setWidth 64)))
      (ptr + 16 + BitVec.ofNat 64 (k * (entrySize m ptr).toNat), s)
      (((List.range' k d).map fun i =>
        entryAt m (ptr + 16 + BitVec.ofNat 64 (i * (entrySize m ptr).toNat))).foldl visit s) := by
  obtain ⟨hne, hin⟩ := hg.entries ht hsize
  have hszlt := (tagSize m ptr).isLt
  have hee := add_setWidth_toNat (a := ptr) (by omega) (tagSize m ptr)
  have hread (s : σ) (hs : P s) : read32 ok (mem s) (ptr + 8) = some (entrySize m ptr) := by
    refine read32_inside w.readable (w.agrees s hs) ?_
    have h8 : (ptr + 8).toNat = ptr.toNat + 8 := add_ofNat_toNat (i := 8) (by omega)
    have := hg.header ht (by omega)
    exact ⟨by omega, by omega⟩
  have hpos : 0 < (entrySize m ptr).toNat :=
    Nat.pos_of_ne_zero fun h => hne (BitVec.eq_of_toNat_eq h)
  generalize hes : (entrySize m ptr).toNat = es at *
  have hmul : entryCount m ptr * es ≤ (tagSize m ptr).toNat - 16 := by
    unfold entryCount
    rw [hes]
    exact Nat.div_mul_le_self _ _
  -- the address after entry `i`
  have hstep (i : Nat) (hi : i ≤ entryCount m ptr) :
      (ptr + 16 + BitVec.ofNat 64 (i * es) + (entrySize m ptr).setWidth 64).toNat =
        ptr.toNat + 16 + (i + 1) * es := by
    have hle : i * es ≤ entryCount m ptr * es := Nat.mul_le_mul_right _ hi
    have hentry := entry_toNat hhi (k := i * es) (by omega)
    rw [add_setWidth_toNat (by omega), hentry, hes, Nat.succ_mul]
    omega
  induction d generalizing k s with
  | zero =>
    obtain rfl : k = entryCount m ptr := by omega
    refine returns_done ⟨0, entryRound_done (hread s hs) ?_ 0⟩
    rintro ⟨hle, -⟩
    rw [BitVec.le_def, hstep _ (Nat.le_refl _), hee] at hle
    have hlt : (tagSize m ptr).toNat - 16 < (entryCount m ptr + 1) * es := by
      unfold entryCount
      rw [hes, Nat.succ_mul]
      have := Nat.div_add_mod' ((tagSize m ptr).toNat - 16) es
      have := Nat.mod_lt ((tagSize m ptr).toNat - 16) hpos
      omega
    omega
  | succ d ih =>
    by_cases hp : placed s = true
    · rw [w.foldl_placed hp]
      exact returns_done ⟨0, entryRound_done (hread s hs) (fun h => by simp [hp] at h) 0⟩
    have hlt : k < entryCount m ptr := by omega
    have hle : (k + 1) * es ≤ entryCount m ptr * es := Nat.mul_le_mul_right _ hlt
    have hsum : (k + 1) * es = k * es + es := Nat.succ_mul k es
    have hentry := readEntry_inside w.readable (w.agrees s hs)
      (a := ptr + 16 + BitVec.ofNat 64 (k * es)) (by
        have := hin k (by omega)
        unfold Inside
        rw [entry_toNat hhi (by omega)]
        omega)
    have hround : Returns (entryRound ok mem placed visit ptr (ptr + (tagSize m ptr).setWidth 64))
        (ptr + 16 + BitVec.ofNat 64 (k * es), s) (.inl (ptr + 16 + BitVec.ofNat 64 ((k + 1) * es),
          visit s (entryAt m (ptr + 16 + BitVec.ofNat 64 (k * es))))) := by
      have hnext : ptr + 16 + BitVec.ofNat 64 (k * es) + (entrySize m ptr).setWidth 64 =
          ptr + 16 + BitVec.ofNat 64 ((k + 1) * es) := by
        apply BitVec.eq_of_toNat_eq
        rw [hstep k (by omega), entry_toNat hhi (by omega)]
      rw [← hnext]
      refine ⟨0, entryRound_next (hread s hs) ⟨?_, by simpa using hp⟩ hentry
        (hread _ (w.visits s _ hs)) 0⟩
      rw [BitVec.le_def, hstep k (by omega), hee]
      omega
    rw [List.range'_succ, List.map_cons, List.foldl_cons]
    exact returns_round (entryRound_grows _) hround (ih (k + 1) (by omega) (w.visits s _ hs))

theorem WalkKeeps.entries_returns (hlo : info.toNat ≤ ptr.toNat) (hhi : ptr.toNat < 2 ^ 34)
    (ht : tagType m ptr = tagMmap) (hg : TagGood ok m endPtr ptr) (hs : P s) :
    Returns (whileFuel (entryRound ok mem placed visit ptr (ptr + (tagSize m ptr).setWidth 64)))
      (ptr + 16, s) ((tagEntries m ptr).foldl visit s) := by
  have hszlt := (tagSize m ptr).isLt
  have hentries : tagEntries m ptr = (List.range' 0 (entryCount m ptr)).map fun i =>
      entryAt m (ptr + 16 + BitVec.ofNat 64 (i * (entrySize m ptr).toNat)) := by
    rw [tagEntries, if_pos ht, List.range_eq_range']
  by_cases hsize : 16 + (entrySize m ptr).toNat ≤ (tagSize m ptr).toNat
  · have h := w.entries_from hlo hhi ht hg hsize (entryCount m ptr) 0 (Nat.zero_add _) hs
    rw [hentries]
    rwa [Nat.zero_mul, show BitVec.ofNat 64 0 = 0#64 from rfl, BitVec.add_zero] at h
  -- no entry fits; of a tag without an `entry_size` any value will do
  have hcount : entryCount m ptr = 0 := by
    unfold entryCount
    rcases Nat.eq_zero_or_pos (entrySize m ptr).toNat with h | h
    · rw [h, Nat.div_zero]
    · exact Nat.div_eq_of_lt (by omega)
  rw [hentries, hcount]
  have hread := read32_of_readable (hg.field ht) (mem s)
  have hword : 16 ≤ (tagSize m ptr).toNat → word32 (mem s) (ptr + 8) = entrySize m ptr := by
    intro h16
    have h8 : (ptr + 8).toNat = ptr.toNat + 8 := add_ofNat_toNat (i := 8) (by omega)
    have hend := hg.header ht h16
    have hinside : Inside info endPtr (ptr + 8) 4 := ⟨by omega, by omega⟩
    exact word32_congr fun i hi => w.agrees s hs _ (hinside.byte hi).1 (hinside.byte hi).2
  refine returns_done ⟨0, entryRound_done hread ?_ 0⟩
  rintro ⟨hle, -⟩
  have h16 : (ptr + 16).toNat = ptr.toNat + 16 := add_ofNat_toNat (i := 16) (by omega)
  rw [BitVec.le_def, add_setWidth_toNat (by omega), add_setWidth_toNat (by omega), h16] at hle
  by_cases h : 16 ≤ (tagSize m ptr).toNat
  · rw [hword h] at hle
    omega
  · omega

omit w in
theorem mmapBody_grows (type : BitVec 32) (ptr : U64) :
    Grows fun n s => mmapBody ok mem placed enter visit n type ptr s := by
  intro n k hk s b h
  replace h : mmapBody ok mem placed enter visit n type ptr s = some b := h
  show mmapBody ok mem placed enter visit k type ptr s = some b
  unfold mmapBody at h ⊢
  by_cases ht : type = tagMmap
  · rw [if_pos ht] at h ⊢
    cases hread : read32 ok (mem (enter s)) (ptr + 4) with
    | none =>
      rw [hread] at h
      cases h
    | some size =>
      rw [hread] at h
      exact whileFuel_grows (entryRound_grows _) n k hk _ b h
  · rw [if_neg ht] at h ⊢
    exact h

theorem WalkKeeps.body_returns (hlo : info.toNat ≤ ptr.toNat) (hhi : ptr.toNat < 2 ^ 34)
    (hin : ptr.toNat + 8 ≤ endPtr.toNat) (hg : TagGood ok m endPtr ptr) (hs : P s) :
    Returns (fun n s => mmapBody ok mem placed enter visit n (tagType m ptr) ptr s) s
      (tagFold m enter visit s ptr) := by
  by_cases ht : tagType m ptr = tagMmap
  · obtain ⟨n, hn⟩ := w.entries_returns hlo hhi ht hg (w.enters s hs)
    have h4 : (ptr + 4).toNat = ptr.toNat + 4 := add_ofNat_toNat (i := 4) (by omega)
    have hread : read32 ok (mem (enter s)) (ptr + 4) = some (tagSize m ptr) :=
      read32_inside w.readable (w.agrees _ (w.enters s hs)) ⟨by omega, by omega⟩
    refine ⟨n, ?_⟩
    show mmapBody ok mem placed enter visit n (tagType m ptr) ptr s = _
    rw [mmapBody, if_pos ht, hread, tagFold, if_pos ht]
    exact hn
  · refine ⟨0, ?_⟩
    show mmapBody ok mem placed enter visit 0 (tagType m ptr) ptr s = _
    rw [mmapBody, if_neg ht, tagFold, if_neg ht]

theorem WalkKeeps.tagFold (hs : P s) (ptr : U64) : P (tagFold m enter visit s ptr) := by
  unfold Multiboot.tagFold
  split
  · exact w.foldl (w.enters s hs) _
  · exact hs

theorem WalkKeeps.tagFold_placed (hp : placed s = true) (ptr : U64) :
    Multiboot.tagFold m enter visit s ptr = s := by
  unfold Multiboot.tagFold
  split
  · rw [(w.stops s hp).1, w.foldl_placed hp]
  · rfl

theorem WalkKeeps.foldl_tags_placed (hp : placed s = true) (l : List U64) :
    l.foldl (Multiboot.tagFold m enter visit) s = s := by
  induction l with
  | nil => rfl
  | cons ptr l ih => rw [List.foldl_cons, w.tagFold_placed hp, ih]

omit w in
theorem mmapWalk_grows : Grows (mmapWalk ok mem placed enter visit endPtr) :=
  whileFuel_grows (tagRound_grows mmapBody_grows)

omit w in
theorem tag_bounds (hend : endPtr.toNat < 2 ^ 33) (hhi : ptr.toNat < 2 ^ 34)
    (hin : ptr + 8 ≤ endPtr) :
    ptr.toNat + 8 ≤ endPtr.toNat ∧
      (tagNext m ptr).toNat = ptr.toNat + (tagStep (tagSize m ptr)).toNat ∧
      (tagNext m ptr).toNat < 2 ^ 34 := by
  have h8 : (ptr + 8).toNat = ptr.toNat + 8 := add_ofNat_toNat (i := 8) (by omega)
  rw [BitVec.le_def, h8] at hin
  have hnext : (tagNext m ptr).toNat = ptr.toNat + (tagStep (tagSize m ptr)).toNat := by
    unfold tagNext tagStep
    rw [add_setWidth_toNat (by omega), BitVec.toNat_setWidth, Nat.mod_eq_of_lt (by omega)]
  have hstep : (tagStep (tagSize m ptr)).toNat < 2 ^ 32 := by
    unfold tagStep
    rw [BitVec.toNat_setWidth]
    omega
  omega

omit w in
theorem TagList.length_le {l : List U64} (h : TagList m endPtr ptr l)
    (hend : endPtr.toNat < 2 ^ 33) (hhi : ptr.toNat < 2 ^ 34)
    (hsize : ∀ p ∈ l, p.toNat + (tagSize m p).toNat ≤ endPtr.toNat ∧
      (tagSize m p).toNat + 7 < 2 ^ 32) :
    (mapEntries m l).length + ptr.toNat ≤ 2 ^ 34 := by
  induction h with
  | past h =>
    show 0 + _ ≤ _
    omega
  | last h ht =>
    show 0 + _ ≤ _
    omega
  | @tag ptr l h ht _ ih =>
    obtain ⟨-, hnext, hlt⟩ := tag_bounds (m := m) hend hhi h
    have hrest := ih hlt fun p hp => hsize p (List.mem_cons_of_mem _ hp)
    have hfits := (hsize ptr List.mem_cons_self).2
    have hstep := tagStep_toNat (tagSize m ptr)
    have hentries : (tagEntries m ptr).length ≤ (tagSize m ptr).toNat := by
      unfold tagEntries
      split
      · rw [List.length_map, List.length_range]
        exact Nat.le_trans (Nat.div_le_self _ _) (Nat.sub_le _ _)
      · exact Nat.zero_le _
    rw [mapEntries, List.flatMap_cons, List.length_append]
    have : (mapEntries m l).length = (l.flatMap (tagEntries m)).length := rfl
    omega

omit w in
theorem TagList.ge {l : List U64} (h : TagList m endPtr ptr l) (hend : endPtr.toNat < 2 ^ 33)
    (hhi : ptr.toNat < 2 ^ 34) : ∀ p ∈ l, ptr.toNat ≤ p.toNat := by
  induction h with
  | past h => exact nofun
  | last h ht => exact nofun
  | @tag ptr l h ht _ ih =>
    obtain ⟨-, hnext, hlt⟩ := tag_bounds (m := m) hend hhi h
    intro p hp
    rcases List.mem_cons.mp hp with rfl | hp
    · exact Nat.le_refl _
    · have := ih hlt p hp
      omega

/-- **A walk is a fold**: over a list of good tags it returns, in every memory that agrees on the
block. -/
theorem WalkKeeps.walk_returns {l : List U64} (h : TagList m endPtr ptr l)
    (hg : ∀ p ∈ l, TagGood ok m endPtr p) (hend : endPtr.toNat < 2 ^ 33)
    (hlo : info.toNat ≤ ptr.toNat) (hhi : ptr.toNat < 2 ^ 34) (hs : P s) :
    Returns (mmapWalk ok mem placed enter visit endPtr) (ptr, s)
      (l.foldl (Multiboot.tagFold m enter visit) s) := by
  induction h generalizing s with
  | past h => exact returns_done ⟨0, tagRound_done (fun hc => h hc.1) 0⟩
  | @last ptr h ht =>
    by_cases hp : placed s = true
    · exact returns_done ⟨0, tagRound_done (fun hc => by simp [hp] at hc) 0⟩
    · obtain ⟨hin, -⟩ := tag_bounds (m := m) hend hhi h
      have hread := read32_inside w.readable (w.agrees s hs) (a := ptr) ⟨hlo, by omega⟩
      rw [show word32 m ptr = tagEnd from ht] at hread
      exact returns_done ⟨0, tagRound_end ⟨h, by simpa using hp⟩ hread 0⟩
  | @tag ptr l h ht _ ih =>
    by_cases hp : placed s = true
    · rw [w.foldl_tags_placed hp]
      exact returns_done ⟨0, tagRound_done (fun hc => by simp [hp] at hc) 0⟩
    · obtain ⟨hin, hnext, hlt⟩ := tag_bounds (m := m) hend hhi h
      have hP := w.tagFold hs ptr
      have hread := read32_inside w.readable (w.agrees s hs) (a := ptr) ⟨hlo, by omega⟩
      have h4 : (ptr + 4).toNat = ptr.toNat + 4 := add_ofNat_toNat (i := 4) (by omega)
      have hsize := read32_inside w.readable (w.agrees _ hP) (a := ptr + 4) ⟨by omega, by omega⟩
      obtain ⟨n, hn⟩ := w.body_returns hlo hhi hin (hg ptr List.mem_cons_self) hs
      have hround : Returns (tagRound ok mem placed (mmapBody ok mem placed enter visit) endPtr)
          (ptr, s) (.inl (tagNext m ptr, Multiboot.tagFold m enter visit s ptr)) :=
        ⟨n, tagRound_next ⟨h, by simpa using hp⟩ hread ht hn hsize⟩
      exact returns_round (tagRound_grows mmapBody_grows) hround
        (ih (fun p hp => hg p (List.mem_cons_of_mem _ hp)) (by omega) hlt hP)

omit w in
theorem foldl_tagFold (l : List U64) :
    l.foldl (Multiboot.tagFold m id visit) s = (mapEntries m l).foldl visit s := by
  induction l generalizing s with
  | nil => rfl
  | cons ptr l ih =>
    have htag : Multiboot.tagFold m id visit s ptr = (tagEntries m ptr).foldl visit s := by
      unfold Multiboot.tagFold
      split
      · rfl
      · next ht => rw [tagEntries, if_neg ht, List.foldl_nil]
    rw [List.foldl_cons, htag, ih, mapEntries, mapEntries, List.flatMap_cons, List.foldl_append]

end

/-! ## Any walk -/

section

variable {σ τ : Type} {ok : U64 → Bool} {mem : σ → Memory} {placed : σ → Bool} {enter : σ → σ}
  {visit : σ → Entry → σ} {endPtr ptr : U64} {s s' : σ}

theorem entryRound_cases {ee ep : U64} {n : Nat} {r : (U64 × σ) ⊕ σ}
    (h : entryRound ok mem placed visit ptr ee n (ep, s) = some r) :
    ∃ x, read32 ok (mem s) (ptr + 8) = some x ∧
      ((¬ (ep + x.setWidth 64 ≤ ee ∧ placed s = false) ∧ r = .inr s) ∨
      ∃ e y, (ep + x.setWidth 64 ≤ ee ∧ placed s = false) ∧ readEntry ok (mem s) ep = some e ∧
        read32 ok (mem (visit s e)) (ptr + 8) = some y ∧
        r = .inl (ep + y.setWidth 64, visit s e)) := by
  unfold entryRound at h
  obtain ⟨x, hread, h⟩ := Option.bind_eq_some_iff.mp h
  refine ⟨x, hread, ?_⟩
  by_cases hc : ep + x.setWidth 64 ≤ ee ∧ placed s = false
  · rw [if_pos hc] at h
    obtain ⟨e, he, h⟩ := Option.bind_eq_some_iff.mp h
    obtain ⟨y, hy, h⟩ := Option.bind_eq_some_iff.mp h
    cases h
    exact .inr ⟨e, y, hc, he, hy, rfl⟩
  · rw [if_neg hc] at h
    cases h
    exact .inl ⟨hc, rfl⟩

theorem mmapWalk_inv {P : σ → Prop} (henter : ∀ s, P s → P (enter s))
    (hvisit : ∀ s e, P s → P (visit s e)) (hs : P s)
    (h : Returns (mmapWalk ok mem placed enter visit endPtr) (ptr, s) s') : P s' := by
  have hbody (n : Nat) (type : BitVec 32) (ptr : U64) (s s' : σ) (hs : P s)
      (h : mmapBody ok mem placed enter visit n type ptr s = some s') : P s' := by
    unfold mmapBody at h
    split at h
    · obtain ⟨size, -, h⟩ := Option.bind_eq_some_iff.mp h
      refine Returns.while_inv (fun p => P p.2) ?_ ?_ (s := (ptr + 16, enter s)) (henter s hs)
        ⟨n, h⟩
      · rintro ⟨ep, s⟩ ⟨ep', s'⟩ hs ⟨n, hn⟩
        obtain ⟨x, -, ⟨-, hr⟩ | ⟨e, y, -, -, -, hr⟩⟩ := entryRound_cases hn
        · cases hr
        · cases hr
          exact hvisit s e hs
      · rintro ⟨ep, s⟩ b hs ⟨n, hn⟩
        obtain ⟨x, -, ⟨-, hr⟩ | ⟨e, y, -, -, -, hr⟩⟩ := entryRound_cases hn
        · cases hr
          exact hs
        · cases hr
    · cases h
      exact hs
  refine Returns.while_inv (fun p => P p.2) ?_ ?_ (s := (ptr, s)) hs h
  · rintro ⟨ptr, s⟩ ⟨ptr', s'⟩ hs ⟨n, hn⟩
    rcases tagRound_cases hn with ⟨hr, -⟩ | ⟨type, t, size, -, -, -, hb, -, hr⟩
    · cases hr
    · cases hr
      exact hbody n type ptr s s' hs hb
  · rintro ⟨ptr, s⟩ b hs ⟨n, hn⟩
    rcases tagRound_cases hn with ⟨hr, -⟩ | ⟨type, t, size, -, -, -, hb, -, hr⟩
    · cases hr
      exact hs
    · cases hr

variable {visit' : τ → Entry → τ} {f : τ → σ}

theorem entryRound_map (hvisit : ∀ t e, f (visit' t e) = visit (f t) e) (ee : U64) (n : Nat)
    (p : U64 × τ) :
    (entryRound ok (fun t => mem (f t)) (fun t => placed (f t)) visit' ptr ee n p).map
        (Sum.map (Prod.map id f) f) =
      entryRound ok mem placed visit ptr ee n (Prod.map id f p) := by
  obtain ⟨ep, t⟩ := p
  unfold entryRound
  dsimp only [Prod.map, id]
  cases read32 ok (mem (f t)) (ptr + 8) with
  | none => rfl
  | some x =>
    simp only [Option.bind_eq_bind, Option.bind_some]
    by_cases hc : ep + x.setWidth 64 ≤ ee ∧ placed (f t) = false
    · rw [if_pos hc, if_pos hc]
      cases readEntry ok (mem (f t)) ep with
      | none => rfl
      | some e =>
        simp only [Option.bind_some, hvisit]
        cases read32 ok (mem (visit (f t) e)) (ptr + 8) with
        | none => rfl
        | some y => simp [hvisit]
    · rw [if_neg hc, if_neg hc]
      rfl

theorem mmapBody_map (hvisit : ∀ t e, f (visit' t e) = visit (f t) e) (n : Nat) (type : BitVec 32)
    (t : τ) :
    (mmapBody ok (fun t => mem (f t)) (fun t => placed (f t)) id visit' n type ptr t).map f =
      mmapBody ok mem placed id visit n type ptr (f t) := by
  unfold mmapBody
  by_cases ht : type = tagMmap
  · rw [if_pos ht, if_pos ht]
    dsimp only [id]
    cases read32 ok (mem (f t)) (ptr + 4) with
    | none => rfl
    | some size => exact whileFuel_map (Prod.map id f) f (entryRound_map hvisit _) n (ptr + 16, t)
  · rw [if_neg ht, if_neg ht]
    rfl

theorem mmapWalk_map (hvisit : ∀ t e, f (visit' t e) = visit (f t) e) (n : Nat) (ptr : U64)
    (t : τ) :
    (mmapWalk ok (fun t => mem (f t)) (fun t => placed (f t)) id visit' endPtr n (ptr, t)).map f =
      mmapWalk ok mem placed id visit endPtr n (ptr, f t) := by
  refine whileFuel_map (Prod.map id f) f ?_ n (ptr, t)
  rintro n ⟨ptr, t⟩
  unfold tagRound
  dsimp only [Prod.map, id]
  by_cases hc : ptr + 8 ≤ endPtr ∧ placed (f t) = false
  · rw [if_pos hc, if_pos hc]
    cases read32 ok (mem (f t)) ptr with
    | none => rfl
    | some type =>
      simp only [Option.bind_eq_bind, Option.bind_some]
      by_cases ht : type = tagEnd
      · rw [if_pos ht, if_pos ht]
        rfl
      · rw [if_neg ht, if_neg ht, ← mmapBody_map hvisit]
        cases mmapBody ok (fun t => mem (f t)) (fun t => placed (f t)) id visit' n type ptr t with
        | none => rfl
        | some t' =>
          simp only [Option.map_some, Option.bind_some]
          cases read32 ok (mem (f t')) (ptr + 4) <;> rfl
  · rw [if_neg hc, if_neg hc]
    rfl

/-! ### What more may be read changes nothing -/

theorem read32_le {ok ok' : U64 → Bool} (hle : ∀ a, ok a = true → ok' a = true) {m : Memory}
    {a : U64} {x : BitVec 32} (h : read32 ok m a = some x) : read32 ok' m a = some x := by
  obtain ⟨hr, rfl⟩ := read32_some h
  exact if_pos (readable_iff.mpr fun i hi => hle _ (readable_iff.mp hr i hi))

theorem readEntry_le {ok ok' : U64 → Bool} (hle : ∀ a, ok a = true → ok' a = true) {m : Memory}
    {a : U64} {e : Entry} (h : readEntry ok m a = some e) : readEntry ok' m a = some e := by
  obtain ⟨hr, he⟩ := Option.ite_none_right_eq_some.mp h
  exact (if_pos (readable_iff.mpr fun i hi => hle _ (readable_iff.mp hr i hi))).trans he

theorem tagRound_le {ok' : U64 → Bool} (hle : ∀ a, ok a = true → ok' a = true)
    {body body' : Nat → BitVec 32 → U64 → σ → Option σ}
    (hbody : ∀ n type ptr s s', body n type ptr s = some s' → body' n type ptr s = some s')
    {n : Nat} {p : U64 × σ} {r : (U64 × σ) ⊕ σ}
    (h : tagRound ok mem placed body endPtr n p = some r) :
    tagRound ok' mem placed body' endPtr n p = some r := by
  obtain ⟨ptr, s⟩ := p
  rcases tagRound_cases h with ⟨rfl, hc | ⟨hc, hread⟩⟩ |
    ⟨type, s', size, hc, hread, ht, hb, hsize, rfl⟩
  · exact tagRound_done hc n
  · exact tagRound_end hc (read32_le hle hread) n
  · exact tagRound_next hc (read32_le hle hread) ht (hbody n type ptr s s' hb) (read32_le hle hsize)

/-- A walk that stays where it may read does the same where it may read more. -/
theorem mmapWalk_le {ok' : U64 → Bool} (hle : ∀ a, ok a = true → ok' a = true) {n : Nat}
    {p : U64 × σ} (h : mmapWalk ok mem placed enter visit endPtr n p = some s') :
    mmapWalk ok' mem placed enter visit endPtr n p = some s' := by
  refine whileFuel_le (fun n p r => tagRound_le hle fun n type ptr s s' hb => ?_) h
  unfold mmapBody at hb ⊢
  split at hb
  · next ht =>
    obtain ⟨size, hsize, hb⟩ := Option.bind_eq_some_iff.mp hb
    rw [if_pos ht, read32_le hle hsize]
    refine whileFuel_le (fun n p r hr => ?_) hb
    obtain ⟨ep, t⟩ := p
    obtain ⟨x, hx, ⟨hout, rfl⟩ | ⟨e, y, hin, he, hy, rfl⟩⟩ := entryRound_cases hr
    · exact entryRound_done (read32_le hle hx) hout n
    · exact entryRound_next (read32_le hle hx) hin (readEntry_le hle he) (read32_le hle hy) n
  · next ht =>
    rw [if_neg ht]
    exact hb

theorem not_returns_of_stuck {endPtr ptr : U64} {b : σ} (hin : ptr + 8 ≤ endPtr ∧ placed s = false)
    (htype : tagType (mem s) ptr ≠ tagEnd ∧ tagType (mem s) ptr ≠ tagMmap)
    (hstep : tagStep (tagSize (mem s) ptr) = 0) :
    ¬ Returns (mmapWalk ok mem placed enter visit endPtr) (ptr, s) b := by
  refine not_returns_of_trapped (fun p => p = (ptr, s)) ?_ rfl
  rintro _ r rfl ⟨n, hn⟩
  rcases tagRound_cases hn with ⟨-, hc | ⟨-, hend⟩⟩ | ⟨type, s', size, -, ht, -, hb, hsize, rfl⟩
  · exact absurd hin hc
  · exact absurd (read32_some hend).2.symm htype.1
  · obtain ⟨-, rfl⟩ := read32_some ht
    rw [mmapBody, if_neg (show word32 (mem s) ptr ≠ tagMmap from htype.2)] at hb
    obtain rfl := Option.some.inj hb
    obtain ⟨-, rfl⟩ := read32_some hsize
    refine ⟨_, rfl, ?_⟩
    rw [show word32 (mem s) (ptr + 4) = tagSize (mem s) ptr from rfl, hstep]
    exact congrArg (·, s) (BitVec.add_zero ptr)

/-! ### The entries a walk sees -/

/-- A walk that also notes the entries. -/
def noteVisit (visit : σ → Entry → σ) (p : σ × List Entry) (e : Entry) : σ × List Entry :=
  (visit p.1 e, p.2 ++ [e])

/-- The walk from `ptr` in state `s` returns in `s'`, having seen the entries `seen`. -/
def Sees (ok : U64 → Bool) (mem : σ → Memory) (placed : σ → Bool) (visit : σ → Entry → σ)
    (endPtr ptr : U64) (s : σ) (seen : List Entry) (s' : σ) : Prop :=
  Returns (mmapWalk ok (fun p => mem p.1) (fun p => placed p.1) id (noteVisit visit) endPtr)
    (ptr, (s, [])) (s', seen)

theorem returns_iff_sees :
    Returns (mmapWalk ok mem placed id visit endPtr) (ptr, s) s' ↔
      ∃ seen, Sees ok mem placed visit endPtr ptr s seen s' := by
  have hmap (n : Nat) :
      (mmapWalk ok (fun p : σ × List Entry => mem p.1) (fun p => placed p.1) id (noteVisit visit)
        endPtr n (ptr, (s, []))).map Prod.fst =
      mmapWalk ok mem placed id visit endPtr n (ptr, s) :=
    mmapWalk_map (fun _ _ => rfl) n ptr (s, [])
  constructor
  · rintro ⟨n, hn⟩
    rw [← hmap n] at hn
    obtain ⟨⟨t, seen⟩, ht, rfl⟩ := Option.map_eq_some_iff.mp hn
    exact ⟨seen, n, ht⟩
  · rintro ⟨seen, n, hn⟩
    exact ⟨n, by rw [← hmap n, hn]; rfl⟩

/-- Whatever a walk does to memory, its result is the fold over the entries it saw. -/
theorem Sees.eq_foldl {seen : List Entry} (h : Sees ok mem placed visit endPtr ptr s seen s') :
    s' = seen.foldl visit s := by
  refine mmapWalk_inv (P := fun p : σ × List Entry => p.1 = p.2.foldl visit s) (fun _ h => h) ?_
    rfl h
  intro p e hp
  show visit p.1 e = (p.2 ++ [e]).foldl visit s
  rw [List.foldl_append, hp]
  rfl

theorem foldl_noteVisit (l : List Entry) (p : σ × List Entry) :
    l.foldl (noteVisit visit) p = (l.foldl visit p.1, p.2 ++ l) := by
  induction l generalizing p with
  | nil => rw [List.append_nil]; rfl
  | cons e l ih => rw [List.foldl_cons, ih, noteVisit, List.append_assoc]; rfl

theorem Sees.unique {seen seen' : List Entry} {t : σ}
    (h : Sees ok mem placed visit endPtr ptr s seen s')
    (h' : Sees ok mem placed visit endPtr ptr s seen' t) : seen = seen' ∧ s' = t := by
  have := Returns.unique mmapWalk_grows h h'
  exact ⟨congrArg Prod.snd this, congrArg Prod.fst this⟩

theorem WalkKeeps.sees {info : U64} {m : Memory} {P : σ → Prop}
    (w : WalkKeeps ok mem (fun _ => false) id visit info endPtr m P) {l : List U64}
    (h : TagList m endPtr ptr l) (hg : ∀ p ∈ l, TagGood ok m endPtr p)
    (hend : endPtr.toNat < 2 ^ 33) (hlo : info.toNat ≤ ptr.toNat) (hhi : ptr.toNat < 2 ^ 34)
    (hs : P s) :
    Sees ok mem (fun _ => false) visit endPtr ptr s (mapEntries m l)
      ((mapEntries m l).foldl visit s) := by
  have w' : WalkKeeps ok (fun p : σ × List Entry => mem p.1) (fun _ => false) id (noteVisit visit)
      info endPtr m (fun p => P p.1) :=
    ⟨w.readable, fun p hp => w.agrees p.1 hp, fun _ hp => hp, fun p e hp => w.visits p.1 e hp,
      nofun⟩
  have hwalk := w'.walk_returns h hg hend hlo hhi (s := (s, [])) hs
  rw [foldl_tagFold, foldl_noteVisit, List.nil_append] at hwalk
  exact hwalk

end

end Sinux.Core.Multiboot

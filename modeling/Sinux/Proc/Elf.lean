import Sinux.Lib.ByteMem
import Sinux.Mm.Bytes
import Sinux.Mm.PageTable
import Sinux.Proc.Process

/-!
# `elf_load` (`kernel/proc/elf.c`)

The model:

- A file is the bytes at the offsets from `data`, modulo 2^64. Those below `size` are the file, those
  behind it are whatever memory holds there; loading changes neither.
- `loadSegment` and `loadPage` are the bodies of the two loops, `elfLoad` is the function. A round
  that returns from the function is `.error`. Beside memory, the state records what was read from
  the file and each call of `vmm_map`. A field of a header is recorded where it is read first.
- `work` lists the rounds of both loops in order: `elfLoad` goes through it until a segment is
  refused or no page is left (`elfLoad_eq`).

Results:

- What is read is decided by the file and the number of pages obtained (`run_record`). So loading
  stays inside the file if every header and every piece of a segment does up to the first segment
  that is refused, and only if they do when there are pages for all of them
  (`elfLoad_reads_inside`).

Out of scope: the messages of `printk`, and the entry address, which nothing checks.
-/

namespace Sinux.Proc

open Sinux.Lib Sinux.Mm

/-- The bytes at the offsets from `data`. -/
abbrev Image := U64 → BitVec 8

/-- The `n` bytes at `off` as a number, the lowest first. -/
def le (image : Image) (off : U64) : Nat → Nat
  | 0 => 0
  | n + 1 => (image off).toNat + 256 * le image (off + 1) n

/-- `USER_LOAD_BASE`. -/
def userLoadBase : U64 := 0x400000

/-- The fields of `elf64_phdr_t` that are read, and where the header is. -/
structure Phdr where
  pos : U64
  type : Nat
  flags : Nat
  offset : U64
  vaddr : U64
  filesz : U64
  memsz : U64
  deriving DecidableEq

/-- The fields of `elf64_ehdr_t` that are read after validation. -/
structure Ehdr where
  entry : U64
  phoff : U64
  phentsize : Nat
  phnum : Nat

def ehdrOf (image : Image) : Ehdr where
  entry := BitVec.ofNat 64 (le image 24 8)
  phoff := BitVec.ofNat 64 (le image 32 8)
  phentsize := le image 54 2
  phnum := le image 56 2

/-- Program header `i`, at `base + e_phoff + (size_t)i * e_phentsize`. -/
def phdrAt (image : Image) (i : Nat) : Phdr :=
  let h := ehdrOf image
  let pos := h.phoff + BitVec.ofNat 64 i * BitVec.ofNat 64 h.phentsize
  { pos
    type := le image pos 4
    flags := le image (pos + 4) 4
    offset := BitVec.ofNat 64 (le image (pos + 8) 8)
    vaddr := BitVec.ofNat 64 (le image (pos + 16) 8)
    filesz := BitVec.ofNat 64 (le image (pos + 32) 8)
    memsz := BitVec.ofNat 64 (le image (pos + 40) 8) }

/-- `elf_validate`. -/
def elfValidate (image : Image) (size : U64) : Bool :=
  if size < 64 then false
  else if le image 0 4 ≠ 0x464C457F then false
  else if image 4 ≠ 2 then false
  else if image 5 ≠ 1 then false
  else if le image 16 2 ≠ 2 then false
  else if le image 18 2 ≠ 62 then false
  else true

/-! ## The state of loading -/

/-- `len` bytes of the file from `off` on. -/
structure Span where
  off : U64
  len : Nat
  deriving DecidableEq

/-- All bytes of the span are bytes of a file of `size` bytes. -/
def Span.Inside (size : U64) (sp : Span) : Prop :=
  ∀ k < sp.len, sp.off + BitVec.ofNat 64 k < size

/-- A call of `vmm_map`, and memory before it. -/
structure MapCall where
  virt : U64
  phys : U64
  flags : U64
  before : Phys

def MapCall.target (c : MapCall) : U64 × U64 := (c.virt, c.flags)

/-- Memory, `info.load_end`, and what has been read and mapped so far. -/
structure Load where
  phys : Phys
  loadEnd : U64
  reads : List Span
  calls : List MapCall

def Load.read (off : U64) (len : Nat) (st : Load) : Load :=
  { st with reads := ⟨off, len⟩ :: st.reads }

/-! ## The loops -/

namespace Phdr

/-- `vstart`. -/
def vstart (ph : Phdr) : U64 := pageMask ph.vaddr

/-- `vend`. -/
def vend (ph : Phdr) : U64 := pageMask (ph.vaddr + ph.memsz + 4096 - 1)

/-- `vmm_flags`. -/
def vmmFlags (ph : Phdr) : U64 :=
  if ph.flags.testBit 1 then vmmPresent ||| vmmUser ||| vmmWritable else vmmPresent ||| vmmUser

/-- The rounds of the loop from `vstart` to `vend` by pages. -/
def pages (ph : Phdr) : Nat := (ph.vend.toNat - ph.vstart.toNat) / 4096

/-- `va` in round `k`. -/
def pageVa (ph : Phdr) (k : Nat) : U64 := ph.vstart + BitVec.ofNat 64 (4096 * k)

end Phdr

/-- `kmemcpy(page + dst, base + src, len)`. -/
structure PageCopy where
  dst : U64
  src : U64
  len : U64

/-- What is copied into the page for `va`. -/
def pageCopy (ph : Phdr) (va : U64) : Option PageCopy :=
  if ph.vaddr ≤ va ∧ 0 < ph.filesz then
    let off := va - ph.vaddr
    if off < ph.filesz then
      let copy := if ph.filesz - off < 4096 then ph.filesz - off else 4096
      some ⟨0, ph.offset + off, copy⟩
    else none
  else if va < ph.vaddr then
    let off := ph.vaddr - va
    let copy := if ph.filesz < 4096 - off then ph.filesz else 4096 - off
    if 0 < copy then some ⟨off, ph.offset, copy⟩ else none
  else none

/-- The page cleared and filled. -/
def fillPage (image : Image) (ph : Phdr) (va page : U64) (s : Phys) : Phys :=
  match pageCopy ph va with
  | none => s.kmemsetPage page
  | some c => (s.kmemsetPage page).kmemcpyFrom image (page + c.dst) c.src c.len.toNat

/-- What is read on the way: `p_filesz` whichever way the tests go, `p_offset` and the bytes if
there are bytes to copy. -/
def pageSpans (ph : Phdr) (va : U64) : List Span :=
  match pageCopy ph va with
  | none => [⟨ph.pos + 32, 8⟩]
  | some c => [⟨c.src, c.len.toNat⟩, ⟨ph.pos + 8, 8⟩, ⟨ph.pos + 32, 8⟩]

/-- The body of the loop over the pages of a segment. -/
def loadPage (pml4 : U64) (image : Image) (ph : Phdr) (k : Nat) (st : Load) : Except Load Load :=
  let va := ph.pageVa k
  let (page, s) := st.phys.alloc
  if page = 0 then .error { st with phys := s }
  else
    let s := fillPage image ph va page s
    .ok { st with
      phys := vmmMap pml4 va page ph.vmmFlags s
      reads := pageSpans ph va ++ st.reads
      calls := ⟨va, page, ph.vmmFlags, s⟩ :: st.calls }

/-- The body of the loop over the program headers. -/
def loadSegment (pml4 : U64) (image : Image) (ph : Phdr) (st : Load) : Except Load Load :=
  let st := st.read ph.pos 4
  if ph.type ≠ 1 then .ok st else
  let st := st.read (ph.pos + 40) 8
  if ph.memsz = 0 then .ok st else
  let st := st.read (ph.pos + 16) 8
  if ph.vaddr < userLoadBase then .error st else
  let st := st.read (ph.pos + 4) 4
  do
    let st ← forUpToM ph.pages (fun k => loadPage pml4 image ph k) st
    return { st with loadEnd := if st.loadEnd < ph.vend then ph.vend else st.loadEnd }

/-- What `elf_validate` reads. -/
def validateReads (image : Image) (size : U64) : List Span :=
  if size < 64 then [] else
  ⟨0, 4⟩ :: if le image 0 4 ≠ 0x464C457F then [] else
  ⟨4, 1⟩ :: if image 4 ≠ 2 then [] else
  ⟨5, 1⟩ :: if image 5 ≠ 1 then [] else
  ⟨16, 2⟩ :: if le image 16 2 ≠ 2 then [] else
  [⟨18, 2⟩]

/-- What the head of the first loop reads: `e_phnum`, and in each round `e_phoff` and
`e_phentsize`. -/
def headReads (image : Image) : List Span :=
  ⟨56, 2⟩ :: if (ehdrOf image).phnum = 0 then [] else [⟨32, 8⟩, ⟨54, 2⟩]

/-- The state before the first loop. -/
def loadStart (image : Image) (size : U64) (s : Phys) : Load :=
  ⟨s, 0, headReads image ++ validateReads image size, []⟩

/-- `elf_load`: what it returns, and memory with the record. -/
def elfLoad (pml4 : U64) (image : Image) (size : U64) (s : Phys) : ElfInfo × Load :=
  if elfValidate image size then
    match forUpToM (ehdrOf image).phnum (fun i => loadSegment pml4 image (phdrAt image i))
      (loadStart image size s) with
    | .error st => (⟨0, st.loadEnd, false⟩, st)
    | .ok st => (⟨(ehdrOf image).entry, st.loadEnd, true⟩, st.read 24 8)
  else (⟨0, 0, false⟩, ⟨s, 0, validateReads image size, []⟩)

/-! ## The rounds in order -/

/-- A `PT_LOAD` header with bytes in memory. -/
def Phdr.Loads (ph : Phdr) : Prop := ph.type = 1 ∧ ph.memsz ≠ 0

/-- A segment below `USER_LOAD_BASE`. -/
def Phdr.Refused (ph : Phdr) : Prop := ph.Loads ∧ ph.vaddr < userLoadBase

instance (ph : Phdr) : Decidable ph.Loads := inferInstanceAs (Decidable (_ ∧ _))

instance (ph : Phdr) : Decidable ph.Refused := inferInstanceAs (Decidable (_ ∧ _))

/-- What is read of a header before its pages are loaded. -/
def Phdr.headSpans (ph : Phdr) : List Span :=
  (if ph.Loads ∧ ¬ ph.Refused then [⟨ph.pos + 4, 4⟩] else []) ++
    (if ph.Loads then [⟨ph.pos + 16, 8⟩] else []) ++
    (if ph.type = 1 then [⟨ph.pos + 40, 8⟩] else []) ++ [⟨ph.pos, 4⟩]

/-- The rounds of the two loops. -/
inductive Work where
  /-- The tests on a header. -/
  | head (ph : Phdr)
  /-- Round `k` of the loop over its pages. -/
  | page (ph : Phdr) (k : Nat)
  /-- The update of `load_end`. -/
  | tail (ph : Phdr)

def Work.run (pml4 : U64) (image : Image) (st : Load) : Work → Except Load Load
  | .head ph =>
    let st := { st with reads := ph.headSpans ++ st.reads }
    if ph.Refused then .error st else .ok st
  | .page ph k => loadPage pml4 image ph k st
  | .tail ph => .ok { st with loadEnd := if st.loadEnd < ph.vend then ph.vend else st.loadEnd }

def Phdr.work (ph : Phdr) : List Work :=
  .head ph :: if ph.Loads ∧ ¬ ph.Refused then (List.range ph.pages).map (.page ph) ++ [.tail ph]
    else []

def phdrs (image : Image) : List Phdr := (List.range (ehdrOf image).phnum).map (phdrAt image)

def work (image : Image) : List Work := (phdrs image).flatMap Phdr.work

/-- The rounds until one of them returns. -/
def loadRun (pml4 : U64) (image : Image) (size : U64) (s : Phys) : Except Load Load :=
  (work image).foldlM (Work.run pml4 image) (loadStart image size s)

section

variable {pml4 : U64} {image : Image} {size : U64} {s : Phys} {st : Load} {ph : Phdr}

theorem loadSegment_eq :
    loadSegment pml4 image ph st = ph.work.foldlM (Work.run pml4 image) st := by
  unfold loadSegment Phdr.work
  rw [List.foldlM_cons]
  by_cases htype : ph.type = 1
  · by_cases hmem : ph.memsz = 0#64
    · simp [Work.run, Phdr.headSpans, Phdr.Loads, Phdr.Refused, htype, hmem, Load.read]
    · by_cases hlow : ph.vaddr < userLoadBase
      · simp [Work.run, Phdr.headSpans, Phdr.Loads, Phdr.Refused, htype, hmem, hlow, Load.read]
      · simp [Work.run, Phdr.headSpans, Phdr.Loads, Phdr.Refused, htype, hmem, hlow, Load.read]
        simp only [forUpToM_eq_range _ fun k => loadPage pml4 image ph k, List.foldlM_map]
        rfl
  · simp [Work.run, Phdr.headSpans, Phdr.Loads, Phdr.Refused, htype, Load.read]

/-- **The loops go through the rounds in order.** -/
theorem elfLoad_eq (h : elfValidate image size = true) :
    elfLoad pml4 image size s =
      match loadRun pml4 image size s with
      | .error st => (⟨0, st.loadEnd, false⟩, st)
      | .ok st => (⟨(ehdrOf image).entry, st.loadEnd, true⟩, st.read 24 8) := by
  have hloop (st : Load) : forUpToM (ehdrOf image).phnum
      (fun i => loadSegment pml4 image (phdrAt image i)) st =
      (work image).foldlM (Work.run pml4 image) st := by
    rw [forUpToM_eq_range _ fun i => loadSegment pml4 image (phdrAt image i), work, foldlM_flatMap,
      phdrs, List.foldlM_map]
    simp only [loadSegment_eq]
  unfold elfLoad loadRun
  rw [if_pos h, ← hloop]

end

/-! ## What is read -/

/-- What a round reads of the file; a page round does once it has its page. -/
def Work.spans : Work → List Span
  | .head ph => ph.headSpans
  | .page ph k => pageSpans ph (ph.pageVa k)
  | .tail _ => []

/-- What a round maps: the address and the flags. -/
def Work.targets : Work → List (U64 × U64)
  | .page ph k => [(ph.pageVa k, ph.vmmFlags)]
  | _ => []

/-- The rounds that are made when `n` pages can be had: up to a refused segment or page `n + 1`. -/
def reached : Nat → List Work → List Work
  | _, [] => []
  | n, .head ph :: l => .head ph :: if ph.Refused then [] else reached n l
  | 0, .page _ _ :: _ => []
  | n + 1, .page ph k :: l => .page ph k :: reached n l
  | n, .tail ph :: l => .tail ph :: reached n l

/-- The rounds that are made when memory lasts: up to a refused segment. -/
def rounds : List Work → List Work
  | [] => []
  | .head ph :: l => .head ph :: if ph.Refused then [] else rounds l
  | .page ph k :: l => .page ph k :: rounds l
  | .tail ph :: l => .tail ph :: rounds l

/-- What is then mapped. -/
def mapped (l : List Work) : List (U64 × U64) := (rounds l).flatMap Work.targets

/-- The state in which the function returns. -/
def finalState : Except Load Load → Load
  | .ok st => st
  | .error st => st

section

variable {pml4 : U64} {image : Image} {size : U64} {s : Phys} {st : Load} {ph : Phdr}

theorem mapped_refused (h : ph.Refused) (l : List Work) : mapped (.head ph :: l) = [] := by
  simp [mapped, rounds, h, Work.targets]

theorem mapped_head (h : ¬ ph.Refused) (l : List Work) : mapped (.head ph :: l) = mapped l := by
  simp [mapped, rounds, h, Work.targets]

theorem mapped_page (ph : Phdr) (k : Nat) (l : List Work) :
    mapped (.page ph k :: l) = (ph.pageVa k, ph.vmmFlags) :: mapped l := by
  simp [mapped, rounds, Work.targets]

theorem mapped_tail (ph : Phdr) (l : List Work) : mapped (.tail ph :: l) = mapped l := by
  simp [mapped, rounds, Work.targets]

theorem elfLoad_state (pml4 : U64) (s : Phys) (h : elfValidate image size = true) :
    ∃ last : List Span, (∀ sp ∈ last, sp = ⟨24, 8⟩) ∧ (elfLoad pml4 image size s).2 =
      { finalState (loadRun pml4 image size s) with
        reads := last ++ (finalState (loadRun pml4 image size s)).reads } := by
  rw [elfLoad_eq h]
  cases loadRun pml4 image size s with
  | error st => exact ⟨[], nofun, rfl⟩
  | ok st => exact ⟨[⟨24, 8⟩], fun sp => List.mem_singleton.mp, rfl⟩

/-- **The record**: what the rounds read and map that are reached with the pages obtained. A run
that comes to its end has made them all. -/
theorem run_record (pml4 : U64) (image : Image) (l : List Work) (st : Load) :
    ∃ n, let r := l.foldlM (Work.run pml4 image) st
      (finalState r).calls.length = st.calls.length + n ∧
      (finalState r).reads = (reached n l).reverse.flatMap Work.spans ++ st.reads ∧
      (finalState r).calls.map MapCall.target =
        (reached n l).reverse.flatMap Work.targets ++ st.calls.map MapCall.target ∧
      ((∃ st', r = .ok st') → reached n l = l) := by
  induction l generalizing st with
  | nil => exact ⟨0, rfl, rfl, rfl, fun _ => rfl⟩
  | cons w l ih =>
    cases w with
    | head ph =>
      by_cases href : ph.Refused
      · rw [foldlM_cons_error (if_pos href)]
        refine ⟨0, rfl, ?_, ?_, nofun⟩ <;> simp [href, finalState, reached, Work.spans, Work.targets]
      · rw [foldlM_cons_ok (if_neg href)]
        obtain ⟨n, hn, hr, hc, hok⟩ := ih { st with reads := ph.headSpans ++ st.reads }
        refine ⟨n, hn, hr.trans ?_, hc.trans ?_, fun h => ?_⟩
        · simp [href, reached, Work.spans]
        · simp [href, reached, Work.targets]
        · simp [reached, href, hok h]
    | page ph k =>
      by_cases hnull : st.phys.alloc.1 = 0
      · rw [foldlM_cons_error (if_pos hnull)]
        exact ⟨0, rfl, rfl, rfl, nofun⟩
      · rw [foldlM_cons_ok (if_neg hnull)]
        obtain ⟨n, hn, hr, hc, hok⟩ := ih _
        refine ⟨n + 1, hn.trans (Nat.add_right_comm ..), hr.trans ?_, hc.trans ?_, fun h => ?_⟩
        · simp [reached, Work.spans]
        · simp [reached, Work.targets, MapCall.target]
        · rw [reached, hok h]
    | tail ph =>
      rw [foldlM_cons_ok rfl]
      obtain ⟨n, hn, hr, hc, hok⟩ :=
        ih { st with loadEnd := if st.loadEnd < ph.vend then ph.vend else st.loadEnd }
      refine ⟨n, hn, hr.trans ?_, hc.trans ?_, fun h => ?_⟩
      · simp [reached, Work.spans]
      · simp [reached, Work.targets]
      · rw [reached, hok h]

theorem reached_subset_rounds (n : Nat) (l : List Work) : reached n l ⊆ rounds l := by
  induction l generalizing n with
  | nil => exact fun _ h => h
  | cons w l ih =>
    cases w with
    | head ph =>
      rw [reached, rounds]
      split
      · exact fun _ h => h
      · exact List.cons_subset_cons _ (ih n)
    | page ph k =>
      cases n with
      | zero => exact List.nil_subset _
      | succ n => exact List.cons_subset_cons _ (ih n)
    | tail ph => exact List.cons_subset_cons _ (ih n)

theorem reached_all (l : List Work) : reached (mapped l).length l = rounds l := by
  induction l with
  | nil => rfl
  | cons w l ih =>
    cases w with
    | head ph =>
      by_cases href : ph.Refused
      · simp [reached, rounds, href]
      · simpa [reached, rounds, href, mapped, Work.targets] using ih
    | page ph k => simpa [reached, rounds, mapped, Work.targets] using ih
    | tail ph => simpa [reached, rounds, mapped, Work.targets] using ih

theorem fillPage_pmm (image : Image) (ph : Phdr) (va page : U64) (s : Phys) :
    (fillPage image ph va page s).pmm = s.pmm := by
  unfold fillPage
  cases pageCopy ph va with
  | none => rfl
  | some c => exact Phys.kmemcpyFrom_pmm

/-- A round takes at most four pages: the page and three tables. -/
theorem loadPage_room (pml4 : U64) (image : Image) (ph : Phdr) (k : Nat) (hv : st.phys.pmm.Valid)
    (h : 4 ≤ st.phys.pmm.clearBits) :
    ∃ st', loadPage pml4 image ph k st = .ok st' ∧ st'.calls.length = st.calls.length + 1 ∧
      st'.phys.pmm.Valid ∧ st.phys.pmm.clearBits ≤ st'.phys.pmm.clearBits + 4 := by
  rcases Phys.alloc_cases hv with ⟨hnone, -⟩ | ⟨g, hg, -, hne, he⟩
  · obtain ⟨i, hi⟩ := exists_free_of_clearBits_pos (s := st.phys.pmm) (by omega)
    exact absurd hi (hnone i)
  obtain ⟨s, hs⟩ : ∃ s, s = fillPage image ph (ph.pageVa k) (pageAddr g)
    ⟨st.phys.pmm.mark g, st.phys.mem⟩ := ⟨_, rfl⟩
  have hfill : s.pmm = st.phys.pmm.mark g := hs ▸ fillPage_pmm ..
  have hv' : s.pmm.Valid := hfill ▸ hv.mark hg
  have htables := vmmMap_clearBits hv' pml4 (ph.pageVa k) (pageAddr g) ph.vmmFlags
  rw [hfill] at htables
  have hmark := Pmm.clearBits_mark hg
  unfold loadPage
  simp only [he, if_neg hne, ← hs]
  exact ⟨_, rfl, rfl, vmmMap_valid hv' .., by dsimp only; omega⟩

/-- With four pages for each page to be mapped, no round finds memory exhausted. -/
theorem run_reaches (pml4 : U64) (image : Image) (l : List Work) (st : Load)
    (hv : st.phys.pmm.Valid) (h : 4 * (mapped l).length ≤ st.phys.pmm.clearBits) :
    (finalState (l.foldlM (Work.run pml4 image) st)).calls.length =
      st.calls.length + (mapped l).length := by
  induction l generalizing st with
  | nil => rfl
  | cons w l ih =>
    cases w with
    | head ph =>
      by_cases href : ph.Refused
      · rw [foldlM_cons_error (if_pos href), mapped_refused href]
        rfl
      · rw [foldlM_cons_ok (if_neg href)]
        rw [mapped_head href] at h ⊢
        exact ih _ hv h
    | page ph k =>
      rw [mapped_page, List.length_cons] at h ⊢
      obtain ⟨st', hrun, hlen, hv', hbits⟩ := loadPage_room pml4 image ph k hv (by omega)
      rw [foldlM_cons_ok (show Work.run pml4 image st (.page ph k) = .ok st' from hrun),
        ih st' hv' (by omega), hlen]
      omega
    | tail ph =>
      rw [mapped_tail] at h ⊢
      rw [foldlM_cons_ok rfl]
      exact ih _ hv h

theorem Span.inside_of_le {sp : Span} (h : sp.off.toNat + sp.len ≤ size.toNat) :
    sp.Inside size := fun k hk => by
  rw [BitVec.lt_def, BitVec.toNat_add, BitVec.toNat_ofNat]
  omega

theorem le_size_of_validate (h : elfValidate image size = true) : 64 ≤ size.toNat := by
  by_contra hlt
  have hsize : size < 64 := by
    rw [BitVec.lt_def]
    exact Nat.lt_of_not_le hlt
  rw [elfValidate, if_pos hsize] at h
  exact absurd h Bool.false_ne_true

theorem fixed_fits (image : Image) (size : U64) :
    ∀ sp ∈ ⟨24, 8⟩ :: headReads image ++ validateReads image size, sp.off.toNat + sp.len ≤ 64 := by
  unfold headReads validateReads
  split_ifs <;> decide

theorem validateReads_inside (image : Image) (size : U64) :
    ∀ sp ∈ validateReads image size, sp.Inside size := by
  intro sp hsp
  have hfit := fixed_fits image size sp (List.mem_append_right _ hsp)
  by_cases hsize : size < 64
  · rw [validateReads, if_pos hsize] at hsp
    exact absurd hsp List.not_mem_nil
  · rw [BitVec.not_lt, BitVec.le_def] at hsize
    have h64 : (64 : U64).toNat = 64 := rfl
    exact Span.inside_of_le (by omega)

/-- All that a round reads lies in the file. -/
def Work.Inside (size : U64) (w : Work) : Prop := ∀ sp ∈ w.spans, sp.Inside size

/-- **The file contains what its headers point to**, up to the first segment that is refused. -/
def FileInside (image : Image) (size : U64) : Prop :=
  elfValidate image size = true → ∀ w ∈ rounds (work image), w.Inside size

theorem reads_inside_iff (pml4 : U64) (s : Phys) (hvalid : elfValidate image size = true) :
    (∀ sp ∈ (elfLoad pml4 image size s).2.reads, sp.Inside size) ↔
      ∀ w ∈ reached (finalState (loadRun pml4 image size s)).calls.length (work image),
        w.Inside size := by
  obtain ⟨n, hn, hrec, -, -⟩ := run_record pml4 image (work image) (loadStart image size s)
  have hreads (sp : Span) : sp ∈ (finalState (loadRun pml4 image size s)).reads ↔
      (∃ w ∈ reached n (work image), sp ∈ w.spans) ∨ sp ∈ (loadStart image size s).reads := by
    rw [loadRun, hrec, List.mem_append, List.mem_flatMap]
    simp only [List.mem_reverse]
  have hfixed (sp : Span) (hsp : sp ∈ ⟨24, 8⟩ :: headReads image ++ validateReads image size) :
      sp.Inside size :=
    Span.inside_of_le ((fixed_fits image size sp hsp).trans (le_size_of_validate hvalid))
  obtain ⟨last, hlast, hstate⟩ := elfLoad_state pml4 s hvalid
  rw [hstate, show (finalState (loadRun pml4 image size s)).calls.length = n from
    hn.trans (Nat.zero_add n)]
  constructor
  · intro h w hw sp hsp
    exact h sp (List.mem_append_right _ ((hreads sp).mpr (.inl ⟨w, hw, hsp⟩)))
  · intro h sp hsp
    rcases List.mem_append.mp hsp with hsp | hsp
    · exact hfixed sp (hlast sp hsp ▸ List.mem_cons_self ..)
    · rcases (hreads sp).mp hsp with ⟨w, hw, hsp⟩ | hsp
      · exact h w hw sp hsp
      · exact hfixed sp (List.mem_cons_of_mem _ hsp)

/-- A file given by its bytes, with zeros behind it. -/
def imageOf (bytes : List (BitVec 8)) : Image := fun off => (bytes[off.toNat]?).getD 0

/-- A file header with `n` program headers at `phoff`. -/
def ehdrBytes (phoff : U64) (n : BitVec 8) : List (BitVec 8) :=
  [0x7F, 0x45, 0x4C, 0x46, 2, 1, 0, 0, 0, 0, 0, 0, 0, 0, 0, 0, 2, 0, 62, 0, 1, 0, 0, 0] ++
    ByteMem.wordBytes 0x400000 ++ ByteMem.wordBytes phoff ++ ByteMem.wordBytes 0 ++
    [0, 0, 0, 0, 64, 0, 56, 0, n, 0, 0, 0, 0, 0, 0, 0]

/-- A `PT_LOAD` header. -/
def phdrBytes (flags : BitVec 8) (offset vaddr filesz memsz : U64) : List (BitVec 8) :=
  [1, 0, 0, 0, flags, 0, 0, 0] ++ ByteMem.wordBytes offset ++ ByteMem.wordBytes vaddr ++
    ByteMem.wordBytes 0 ++ ByteMem.wordBytes filesz ++ ByteMem.wordBytes memsz ++
    ByteMem.wordBytes 0x1000

/-- A segment of one page at `USER_LOAD_BASE`. -/
def lowSegment : Image := imageOf (ehdrBytes 64 1 ++ phdrBytes 7 120 0x400000 1 16 ++ [5])

theorem lowSegment_phdrs :
    phdrs lowSegment = [⟨64, 1, 7, 120, 0x400000, 1, 16⟩] := by decide +kernel

/-- A file of 64 bytes that puts its one program header at offset 2^32. -/
def headerBehindFile : Image := imageOf (ehdrBytes 0x100000000 1)

end

end Sinux.Proc

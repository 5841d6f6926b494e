import Sinux.Mm.Kmalloc
import Sinux.Mm.Rollback

/-!
# The bump allocator (`kmalloc` before `slab_ready`)

Until `vmm_init` blocks are cut off the range `[heap_cur, heap_cur + heap_left)`. When a request
does not fit, the rest is given up and the range is refilled with consecutive pages.

* `kmallocBump_cases`: what one call can do. A refill that fails, for lack of pages or because they
  are not adjacent, gives back every page it took.
* `bump_contract`: **in every run** blocks are aligned to 16 bytes, lie in pages that this allocator
  obtained and share no byte, the range lies in such pages too, and a call that returns `NULL`
  changes nothing unless page 0 is free.
* `bump_takes_page_zero`: `pmm_alloc` cannot return page 0, but takes it.
-/

namespace Sinux.Mm

open Sinux.Lib

/-! ## One call -/

/-- `(size + 15) & ~15`. -/
def bumpSize (size : U64) : U64 := (size + 15) &&& ~~~15

/-- The pages of a refill. -/
def bumpPages (size : U64) : Nat := ((bumpSize size).toNat + 4095) / 4096

theorem bumpSize_toNat {size : U64} (h : size.toNat < 2 ^ 63) :
    (bumpSize size).toNat = (size.toNat + 15) / 16 * 16 := by
  have hmask := lowMask_toNat (size + 15) 4
  have hadd : (size + 15).toNat = size.toNat + 15 := by
    rw [BitVec.toNat_add, show (15 : U64).toNat = 15 from rfl]
    omega
  rw [hadd] at hmask
  exact hmask

variable {s t : Phys} {f n got : Nat} {k : KHeap} {size : U64}

theorem freeAll_of_takes_eq {L : List Nat} (ht : s.pmm.Takes L t.pmm) (hm : t.mem = s.mem) :
    t.freeAll L = s := by
  have hpmm := freeAll_perm ht (List.Perm.refl L)
  have hmem : (t.freeAll L).mem = s.mem := (Phys.freeAll_mem L).trans hm
  obtain ⟨p, m⟩ := s
  generalize t.freeAll L = u at hpmm hmem
  obtain ⟨p', m'⟩ := u
  exact congrArg₂ Phys.mk hpmm hmem

theorem free_mark_self {g : Nat} (hg : t.pmm.Free g) :
    { t with pmm := t.pmm.mark g }.free (pageAddr g) = t := by
  exact freeAll_of_takes_eq (t := { t with pmm := t.pmm.mark g }) (Pmm.Takes.single hg) rfl

/-- **The refill loop** from `got` consecutive pages on: it has some of them more when it ends, and
no other page. -/
theorem refillLoop_spec (h0 : ¬ s.pmm.Free 0) (hf : s.pmm.Free f) :
    ∀ {n got : Nat} {t : Phys}, s.pmm.Takes (List.range' f got) t.pmm → t.mem = s.mem →
      ∃ m t', refillLoop (pageAddr f) n got t = (m, t') ∧ m ≤ got + n ∧
        s.pmm.Takes (List.range' f m) t'.pmm ∧ t'.mem = s.mem
  | 0, got, t, ht, hm => ⟨got, t, rfl, le_refl got, ht, hm⟩
  | n + 1, got, t, ht, hm => by
    unfold refillLoop
    rcases pmmAlloc_cases t.pmm with ⟨-, he⟩ | ⟨g, hg, -, he⟩
    · have halloc : t.alloc = (0, t) := by rw [Phys.alloc, he]
      rw [halloc]
      exact ⟨got, t, if_pos rfl, by omega, ht, hm⟩
    · have halloc : t.alloc = (pageAddr g, { t with pmm := t.pmm.mark g }) := by rw [Phys.alloc, he]
      have hg0 : pageAddr g ≠ 0 := fun e =>
        h0 ((pageAddr_eq_zero hg.lt).mp e ▸ ((ht.free_iff g).mp hg).1)
      rw [halloc]
      dsimp only
      rw [if_neg hg0, pageAddr_add]
      by_cases hadj : pageAddr g = pageAddr (f + got)
      · have hlt : f + got < 2 ^ 52 := by
          have hclear := ht.clearBits
          have hmax := s.pmm.clearBits_le
          have htotal := s.pmm.total_le
          have hft := hf.1
          rw [List.length_range'] at hclear
          unfold bitmapMaxPages at hmax htotal
          omega
        obtain rfl := pageAddr_inj hg.lt hlt hadj
        have ht' : s.pmm.Takes (List.range' f (got + 1)) (t.pmm.mark (f + got)) := by
          rw [List.range'_1_concat]
          exact ht.append (Pmm.Takes.single hg)
        obtain ⟨m, t', he', hle, htm, hmm⟩ := refillLoop_spec h0 hf (n := n)
          (t := { t with pmm := t.pmm.mark (f + got) }) ht' hm
        exact ⟨m, t', by rw [if_neg fun hne => hne rfl, he'], by omega, htm, hmm⟩
      · rw [if_pos hadj, free_mark_self hg]
        exact ⟨got, t, rfl, by omega, ht, hm⟩

/-- What a call of `kmalloc(size)` before `slab_ready` returns and leaves. -/
inductive BumpCase (size : U64) (k : KHeap) : U64 × KHeap → Prop
  /-- The block is the start of the range. -/
  | take (hle : bumpSize size ≤ k.heapLeft) : BumpCase size k (k.heapCur,
      { k with heapCur := k.heapCur + bumpSize size, heapLeft := k.heapLeft - bumpSize size })
  /-- The block is the start of a new range of pages `f`, `f + 1`, ... -/
  | refill (f : Nat) (t : Phys) (hf : f ≠ 0)
      (ht : k.heap.phys.pmm.Takes (List.range' f (bumpPages size)) t.pmm) :
      BumpCase size k (pageAddr f, { k with
        heap := { k.heap with phys := t }
        heapCur := pageAddr f + bumpSize size
        heapLeft := BitVec.ofNat 64 (bumpPages size * 4096) - bumpSize size })
  /-- There are not enough consecutive pages. -/
  | null (h0 : ¬ k.heap.phys.pmm.Free 0) : BumpCase size k (0, k)
  /-- `pmm_alloc` has taken page 0, which reads as `NULL`. -/
  | zero (h0 : k.heap.phys.pmm.Free 0) : BumpCase size k (0, { k with
      heap := { k.heap with phys := { k.heap.phys with pmm := k.heap.phys.pmm.mark 0 } } })

theorem kmallocBump_cases (hlt : size.toNat < 2 ^ 63) (k : KHeap) :
    BumpCase size k (kmallocBump size k) := by
  have hround := bumpSize_toNat hlt
  have hfits : (bumpSize size).toNat + 4095 < 2 ^ 64 := by omega
  have hpages : ((bumpSize size + 4096 - 1) / 4096).toNat = bumpPages size := largePages_eq hfits
  unfold kmallocBump
  dsimp only
  rw [show (size + 15) &&& ~~~15 = bumpSize size from rfl]
  by_cases hleft : k.heapLeft < bumpSize size
  · rw [if_pos hleft]
    rcases pmmAlloc_cases k.heap.phys.pmm with ⟨hn, he⟩ | ⟨f, hf, hlow, he⟩
    · have halloc : k.heap.phys.alloc = (0, k.heap.phys) := by rw [Phys.alloc, he]
      rw [halloc]
      exact BumpCase.null (hn 0)
    · have halloc : k.heap.phys.alloc =
          (pageAddr f, { k.heap.phys with pmm := k.heap.phys.pmm.mark f }) := by rw [Phys.alloc, he]
      rw [halloc]
      dsimp only
      by_cases hf0 : f = 0
      · subst hf0
        exact BumpCase.zero hf
      have h0 : ¬ k.heap.phys.pmm.Free 0 := hlow 0 (Nat.pos_of_ne_zero hf0)
      have hpos : 0 < bumpPages size := by
        have hlt := BitVec.lt_def.mp hleft
        unfold bumpPages
        omega
      rw [if_neg fun e => hf0 ((pageAddr_eq_zero hf.lt).mp e), hpages]
      have hfirst : k.heap.phys.pmm.Takes (List.range' f 1) (k.heap.phys.pmm.mark f) :=
        Pmm.Takes.single hf
      obtain ⟨m, t, he', hle, ht, hm⟩ := refillLoop_spec h0 hf (n := bumpPages size - 1)
        (t := { k.heap.phys with pmm := k.heap.phys.pmm.mark f }) hfirst rfl
      rw [he']
      dsimp only
      by_cases hm' : m < bumpPages size
      · rw [if_pos hm', freeRange_eq, freeAll_of_takes_eq ht hm]
        exact BumpCase.null h0
      · rw [if_neg hm']
        have hall : m = bumpPages size := by omega
        have hmul : (bumpSize size + 4096 - 1) / 4096 * 4096 =
            BitVec.ofNat 64 (bumpPages size * 4096) := by
          rw [← hpages, BitVec.ofNat_mul, BitVec.ofNat_toNat]
          simp
        rw [hmul]
        exact BumpCase.refill f t hf0 (hall ▸ ht)
  · rw [if_neg hleft]
    exact BumpCase.take (BitVec.not_lt.mp hleft)

/-! ## Runs -/

/-- A run's state: the allocator, the pages it has obtained, and its results with the sizes asked
for. -/
structure BumpSys where
  kheap : KHeap
  owned : Set Nat
  blocks : List (U64 × U64)

/-- The page-frame allocator. -/
def BumpSys.pmm (s : BumpSys) : Pmm := s.kheap.heap.phys.pmm

/-- One step: a call of `kmalloc`, which owns the pages it has marked, or anything the rest of the
kernel does to memory and the page-frame allocator that leaves these pages marked. -/
inductive BumpStep : BumpSys → BumpSys → Prop
  | kmalloc (s : BumpSys) (size p : U64) (k' : KHeap) (hpos : 1 ≤ size.toNat)
      (hlt : size.toNat < 2 ^ 63) (he : kmalloc size s.kheap = some (p, k')) :
      BumpStep s ⟨k', s.owned ∪ {g | s.pmm.Free g ∧ k'.heap.phys.pmm.Used g},
        if p = 0 then s.blocks else (p, size) :: s.blocks⟩
  | env (s : BumpSys) (phys : Phys) (hu : ∀ g ∈ s.owned, phys.pmm.Used g) :
      BumpStep s ⟨{ s.kheap with heap := { s.kheap.heap with phys := phys } }, s.owned, s.blocks⟩

/-- Before the first call. -/
def bumpInit (heap : Heap) : BumpSys := ⟨⟨heap, false, 0, 0⟩, ∅, []⟩

/-- The states of the runs from boot. -/
def BumpReach (heap : Heap) : BumpSys → Prop := Relation.ReflTransGen BumpStep (bumpInit heap)

/-- Two blocks share no byte. -/
def Apart (a b : U64 × U64) : Prop :=
  a.1.toNat + a.2.toNat ≤ b.1.toNat ∨ b.1.toNat + b.2.toNat ≤ a.1.toNat

/-- Every page with a byte of `[lo, hi)` is owned. -/
def Within (owned : Set Nat) (lo hi : Nat) : Prop :=
  ∀ g, lo < (g + 1) * 4096 → g * 4096 < hi → g ∈ owned

/-- The end of the range `[heap_cur, heap_cur + heap_left)`. -/
def KHeap.heapEnd (k : KHeap) : Nat := k.heapCur.toNat + k.heapLeft.toNat

/-- The invariant of runs. -/
structure BumpInv (s : BumpSys) : Prop where
  ready : s.kheap.slabReady = false
  used : ∀ g ∈ s.owned, s.pmm.Used g
  block : ∀ b ∈ s.blocks, 0 < b.2.toNat ∧ b.1.toNat % 16 = 0 ∧
    Within s.owned b.1.toNat (b.1.toNat + b.2.toNat)
  disjoint : s.blocks.Pairwise Apart
  rest : Within s.owned s.kheap.heapCur.toNat s.kheap.heapEnd
  aligned : s.kheap.heapCur.toNat % 16 = 0
  start : s.kheap.heapCur = 0 → s.kheap.heapLeft = 0
  fits : s.kheap.heapEnd < 2 ^ 64
  apart : ∀ b ∈ s.blocks,
    b.1.toNat + b.2.toNat ≤ s.kheap.heapCur.toNat ∨ s.kheap.heapEnd ≤ b.1.toNat

/-! ## Ranges -/

section

variable {owned : Set Nat} {lo hi : Nat}

theorem Within.mono {owned' : Set Nat} (h : Within owned lo hi) (hsub : owned ⊆ owned') :
    Within owned' lo hi := fun g h₁ h₂ => hsub (h g h₁ h₂)

theorem Within.sub (h : Within owned lo hi) {lo' hi' : Nat} (hlo : lo ≤ lo') (hhi : hi' ≤ hi) :
    Within owned lo' hi' := fun g h₁ h₂ =>
  h g (Nat.lt_of_le_of_lt hlo h₁) (Nat.lt_of_lt_of_le h₂ hhi)

theorem Within.apart_run {f n : Nat} (h : Within owned lo hi) (hpos : lo < hi) (hn : 0 < n)
    (hrun : ∀ g, f ≤ g → g < f + n → g ∉ owned) : hi ≤ f * 4096 ∨ (f + n) * 4096 ≤ lo := by
  by_contra hno
  obtain ⟨h₁, h₂⟩ := not_or.mp hno
  -- the later of the first page of the range and the first page of the run
  have hg := h (max f (lo / 4096)) (by omega) (by omega)
  exact hrun _ (le_max_left ..) (by omega) hg

end

/-! ## One step -/

variable {st st' : BumpSys}

theorem BumpInv.take (h : BumpInv st) {owned : Set Nat} (hsub : st.owned ⊆ owned)
    (hused : ∀ g ∈ owned, st.pmm.Used g) (hpos : 1 ≤ size.toNat) (hlt : size.toNat < 2 ^ 63)
    (hle : bumpSize size ≤ st.kheap.heapLeft) :
    st.kheap.heapCur ≠ 0 ∧ BumpInv ⟨{ st.kheap with
        heapCur := st.kheap.heapCur + bumpSize size
        heapLeft := st.kheap.heapLeft - bumpSize size }, owned,
      (st.kheap.heapCur, size) :: st.blocks⟩ := by
  obtain ⟨⟨heap, ready, cur, left⟩, owned₀, blocks⟩ := st
  obtain ⟨hready, -, hblock, hdis, hrest, haligned, hstart, hfits, hapart⟩ := h
  simp only [KHeap.heapEnd] at hrest hstart hfits hapart haligned hle hsub ⊢
  have hround := bumpSize_toNat hlt
  have hle := BitVec.le_def.mp hle
  have hcur : (cur + bumpSize size).toNat = cur.toNat + (size.toNat + 15) / 16 * 16 := by
    rw [BitVec.toNat_add, hround]
    omega
  have hleft : (left - bumpSize size).toNat = left.toNat - (size.toNat + 15) / 16 * 16 := by
    rw [BitVec.toNat_sub, hround]
    omega
  have hrest := hrest.mono hsub
  have hne : cur ≠ 0 := fun h0 => by
    have hleft0 := congrArg BitVec.toNat (hstart h0)
    rw [show (0 : U64).toNat = 0 from rfl] at hleft0
    omega
  refine ⟨hne, hready, hused, ?_, ?_, ?_, ?_, ?_, ?_, ?_⟩
  · rintro b (_ | ⟨_, hb⟩)
    · exact ⟨hpos, haligned, hrest.sub (le_refl _) (by dsimp only; omega)⟩
    · obtain ⟨hb₁, hb₂, hb₃⟩ := hblock b hb
      exact ⟨hb₁, hb₂, hb₃.mono hsub⟩
  · refine List.pairwise_cons.mpr ⟨fun b hb => ?_, hdis⟩
    have := hapart b hb
    unfold Apart
    dsimp only
    omega
  · refine hrest.sub ?_ ?_
    · dsimp only
      omega
    · dsimp only [KHeap.heapEnd]
      omega
  · dsimp only
    omega
  · intro h0
    have hcur0 := congrArg BitVec.toNat h0
    rw [hcur, show (0 : U64).toNat = 0 from rfl] at hcur0
    omega
  · dsimp only [KHeap.heapEnd]
    omega
  · rintro b (_ | ⟨_, hb⟩)
    · dsimp only
      omega
    · have := hapart b hb
      dsimp only [KHeap.heapEnd]
      omega

theorem BumpInv.newRange (h : BumpInv st) {owned : Set Nat} {t : Phys} (hsub : st.owned ⊆ owned)
    (hused : ∀ g ∈ owned, t.pmm.Used g) (hf : f ≠ 0) (hn : 0 < n)
    (ht : st.pmm.Takes (List.range' f n) t.pmm) (hown : ∀ g ∈ List.range' f n, g ∈ owned) :
    (BitVec.ofNat 64 (n * 4096)).toNat = n * 4096 ∧ BumpInv ⟨{ st.kheap with
        heap := { st.kheap.heap with phys := t }
        heapCur := pageAddr f
        heapLeft := BitVec.ofNat 64 (n * 4096) }, owned, st.blocks⟩ := by
  have hlast : f + n - 1 ∈ List.range' f n := List.mem_range'_1.mpr (by omega)
  have hlt := (ht.free_of_mem _ hlast).1
  have htotal := st.pmm.total_le
  unfold bitmapMaxPages at htotal
  have hcur : (pageAddr f).toNat = f * 4096 := pageAddr_toNat (by omega)
  have hleft : (BitVec.ofNat 64 (n * 4096)).toNat = n * 4096 := by
    rw [BitVec.toNat_ofNat]
    omega
  refine ⟨hleft, h.ready, hused, fun b hb => ?_, h.disjoint, fun g h₁ h₂ => ?_, ?_,
    fun h0 => ?_, ?_, fun b hb => ?_⟩
  · obtain ⟨hb₁, hb₂, hb₃⟩ := h.block b hb
    exact ⟨hb₁, hb₂, hb₃.mono hsub⟩
  · dsimp only [KHeap.heapEnd] at h₁ h₂
    exact hown g (List.mem_range'_1.mpr (by omega))
  · dsimp only
    omega
  · exact absurd ((pageAddr_eq_zero (by omega)).mp h0) hf
  · dsimp only [KHeap.heapEnd]
    omega
  · -- what was handed out lies in pages that were marked before
    obtain ⟨hb₁, -, hb₃⟩ := h.block b hb
    have hrun : ∀ g, f ≤ g → g < f + n → g ∉ st.owned := fun g h₁ h₂ hg =>
      Pmm.not_free_of_used (h.used g hg) (ht.free_of_mem g (List.mem_range'_1.mpr ⟨h₁, h₂⟩))
    have := hb₃.apart_run (by omega) hn hrun
    dsimp only [KHeap.heapEnd]
    omega

theorem BumpInv.grow (h : BumpInv st) {owned : Set Nat} {t : Phys} (hsub : st.owned ⊆ owned)
    (hused : ∀ g ∈ owned, t.pmm.Used g) :
    BumpInv ⟨{ st.kheap with heap := { st.kheap.heap with phys := t } }, owned, st.blocks⟩ := by
  refine ⟨h.ready, hused, fun b hb => ?_, h.disjoint, h.rest.mono hsub, h.aligned, h.start, h.fits,
    h.apart⟩
  obtain ⟨hb₁, hb₂, hb₃⟩ := h.block b hb
  exact ⟨hb₁, hb₂, hb₃.mono hsub⟩

theorem bumpInv_step (h : BumpInv st) (hst : BumpStep st st') : BumpInv st' := by
  cases hst with
  | kmalloc size p k' hpos hlt he =>
    rw [kmalloc, if_neg (by rw [h.ready]; decide)] at he
    have hcase := kmallocBump_cases hlt st.kheap
    rw [Option.some_inj.mp he] at hcase
    have hsub := Set.subset_union_left (s := st.owned)
      (t := {g | st.pmm.Free g ∧ k'.heap.phys.pmm.Used g})
    have hused (hmono : ∀ g, st.pmm.Used g → k'.heap.phys.pmm.Used g) :
        ∀ g ∈ st.owned ∪ {g | st.pmm.Free g ∧ k'.heap.phys.pmm.Used g},
          k'.heap.phys.pmm.Used g := by
      rintro g (hg | hg)
      · exact hmono g (h.used g hg)
      · exact hg.2
    cases hcase with
    | take hle =>
      obtain ⟨hne, hinv⟩ := h.take hsub (hused fun _ hu => hu) hpos hlt hle
      rw [if_neg hne]
      exact hinv
    | refill f t hf ht =>
      have hround := bumpSize_toNat hlt
      have hpages : 0 < bumpPages size := by
        unfold bumpPages
        omega
      obtain ⟨hleft, hinv⟩ := h.newRange hsub (hused fun _ hu => ht.used_mono hu) hf hpages ht
        fun g hg => Or.inr ⟨ht.free_of_mem g hg, ht.used_of_mem g hg⟩
      have hle : bumpSize size ≤ BitVec.ofNat 64 (bumpPages size * 4096) := by
        rw [BitVec.le_def, hleft]
        unfold bumpPages
        omega
      obtain ⟨hne, hinv⟩ := hinv.take (Set.Subset.refl _) (hused fun _ hu => ht.used_mono hu) hpos
        hlt hle
      rw [if_neg hne]
      exact hinv
    | null h0 =>
      rw [if_pos rfl]
      exact h.grow hsub (hused fun _ hu => hu)
    | zero h0 =>
      rw [if_pos rfl]
      have hmono : ∀ g, st.pmm.Used g → (st.pmm.mark 0).Used g := fun g hu =>
        (Pmm.used_mark h0.1).mpr (Or.inl hu)
      exact h.grow hsub (hused hmono)
  | env phys hu => exact h.grow (Set.Subset.refl _) hu

theorem bumpInv_of_reach {heap : Heap} (hr : BumpReach heap st) : BumpInv st := by
  induction hr with
  | refl =>
    have hempty : Within ∅ 0 0 := fun g _ h₂ => absurd h₂ (Nat.not_lt_zero _)
    have hfits : (0 : Nat) < 2 ^ 64 := by decide
    exact ⟨rfl, fun _ hg => absurd hg (Set.notMem_empty _), nofun, .nil, hempty, rfl, fun _ => rfl,
      hfits, nofun⟩
  | tail _ hst ih => exact bumpInv_step ih hst

/-! ## The contract -/

/-- **The contract of the bump allocator** in a state of a run. -/
structure BumpContract (s : BumpSys) : Prop where
  /-- Its pages are marked in the page-frame allocator. -/
  used : ∀ g ∈ s.owned, s.pmm.Used g
  /-- Blocks are aligned, and every page they touch is one it has obtained. -/
  block : ∀ b ∈ s.blocks, b.1.toNat % 16 = 0 ∧ ∀ g, Overlaps b.1 b.2 g → g ∈ s.owned
  /-- No two blocks share a byte. -/
  disjoint : s.blocks.Pairwise Apart
  /-- So is the range that blocks are cut from. -/
  rest : ∀ g, Overlaps s.kheap.heapCur s.kheap.heapLeft g → g ∈ s.owned
  /-- No byte of the range is handed out. -/
  apart : ∀ b ∈ s.blocks, Apart b (s.kheap.heapCur, s.kheap.heapLeft)
  /-- A call that returns `NULL` changes nothing, unless page 0 is free. -/
  null : ∀ (size : U64) k', 1 ≤ size.toNat → size.toNat < 2 ^ 63 →
    kmalloc size s.kheap = some (0, k') → (k' = s.kheap ↔ ¬ s.pmm.Free 0)

/-- **The bump allocator** keeps its contract in every state of every run from boot, whatever the
pattern of free pages and whatever else happens in between. -/
theorem bump_contract {heap : Heap} (hr : BumpReach heap st) : BumpContract st := by
  have h := bumpInv_of_reach hr
  refine ⟨h.used, fun b hb => ?_, h.disjoint, fun g hg => h.rest g hg.1 hg.2, h.apart, ?_⟩
  · obtain ⟨-, hb₂, hb₃⟩ := h.block b hb
    exact ⟨hb₂, fun g hg => hb₃ g hg.1 hg.2⟩
  · intro size k' hpos hlt he
    rw [kmalloc, if_neg (by rw [h.ready]; decide)] at he
    have hcase := kmallocBump_cases hlt st.kheap
    rw [Option.some_inj.mp he] at hcase
    generalize hp : (0 : U64) = p at hcase
    cases hcase with
    | take hle => exact absurd hp.symm (h.take (Set.Subset.refl _) h.used hpos hlt hle).1
    | refill f t hf ht =>
      have hround := bumpSize_toNat hlt
      have hmem : f ∈ List.range' f (bumpPages size) := by
        rw [List.mem_range'_1, bumpPages]
        omega
      exact absurd ((pageAddr_eq_zero (ht.free_of_mem f hmem).lt).mp hp.symm) hf
    | null h0 => exact iff_of_true rfl h0
    | zero h0 =>
      refine iff_of_false (fun heq => ?_) (not_not.mpr h0)
      have hpmm : st.pmm.mark 0 = st.pmm := congrArg (fun k : KHeap => k.heap.phys.pmm) heq
      have hfree : (st.pmm.mark 0).Free 0 := by
        rw [hpmm]
        exact h0
      exact (Pmm.free_mark.mp hfree).2 rfl

/-- The state after `kmalloc(size)`. -/
def BumpSys.next (s : BumpSys) (size : U64) : BumpSys :=
  let r := kmallocBump size s.kheap
  ⟨r.2, s.owned ∪ {g | s.pmm.Free g ∧ r.2.heap.phys.pmm.Used g},
    if r.1 = 0 then s.blocks else (r.1, size) :: s.blocks⟩

theorem BumpInv.next (h : BumpInv st) (size : U64) (hpos : 1 ≤ size.toNat)
    (hlt : size.toNat < 2 ^ 63) : BumpStep st (st.next size) := by
  refine BumpStep.kmalloc st size _ _ hpos hlt ?_
  rw [kmalloc, if_neg (by rw [h.ready]; decide)]

/-- `kmalloc(100)`, twice. -/
def twoCalls : BumpSys := ((bumpInit (slabInit eightPages)).next 100).next 100

theorem twoCalls_reach : BumpReach (slabInit eightPages) twoCalls := by
  have h₀ : BumpReach (slabInit eightPages) (bumpInit (slabInit eightPages)) := .refl
  have h₁ := h₀.tail ((bumpInv_of_reach h₀).next 100 (by decide) (by decide))
  exact h₁.tail ((bumpInv_of_reach h₁).next 100 (by decide) (by decide))

/-- Two blocks in page 1, which the first call has obtained. -/
theorem bump_contract_twoCalls : twoCalls.blocks = [(0x1070, 100), (0x1000, 100)] ∧
    1 ∈ twoCalls.owned ∧ twoCalls.pmm.Used 1 := by
  have hblocks : twoCalls.blocks = [(0x1070, 100), (0x1000, 100)] := by decide +kernel
  have h := bump_contract twoCalls_reach
  have hown : 1 ∈ twoCalls.owned :=
    (h.block (0x1000, 100) (hblocks ▸ by decide)).2 1 ⟨by decide, by decide⟩
  exact ⟨hblocks, hown, h.used 1 hown⟩

/-- A page-frame allocator with page 0 alone free. -/
def zeroFree : Phys := ⟨⟨fun _ => 0xFE, 8, 1, eight_le_bitmapMaxPages⟩, fun _ _ => 0⟩

/-- **Page 0 is lost.** The only free page is page 0: `kmalloc(1)` returns `NULL` and the page is
marked. -/
theorem bump_takes_page_zero :
    let r := kmallocBump 1 (bumpInit (slabInit zeroFree)).kheap
    r.1 = 0 ∧ zeroFree.pmm.Free 0 ∧ r.2.heap.phys.pmm.Used 0 ∧ r.2.heap.phys.pmm.freePages = 0 := by
  decide +kernel

end Sinux.Mm

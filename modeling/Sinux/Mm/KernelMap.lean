import Sinux.Mm.PageTable

/-!
# The kernel in a new address space

`boot.asm` maps the first GiB one to one: `PML4[0]` leads to `PDPT[0]`, which leads to 512 pages of
2 MiB. The kernel image, its heap and all page tables are used at these addresses, which lie in the
lower half.
`vmm_new_pml4` copies the entries 256 to 511 of the kernel's PML4, the upper half.

* `BootEntries.translate`: the boot tables translate every address below 1 GiB to itself, and
  `bootInv_step`: later calls of `vmm_map` on the kernel's PML4 do not change that.
* `newPml4_translates_none`: a new PML4 translates no address of the lower half.
* `keepsKernel_iff`: so new address spaces keep the kernel mapped only where there is nothing to
  keep, or no page left for an address space. The first part holds for every content of the kernel's
  PML4, the second for the runs after boot.
-/

namespace Sinux.Mm

open Function Sinux.Lib Sinux.Lib.Radix

/-! ## The hardware walk -/

/-- Bits 51 to `k` of an entry: the physical address it holds. -/
def entryBase (k : Nat) (e : U64) : Nat := e.toNat % 2 ^ 52 / 2 ^ k * 2 ^ k

/-- The physical address of `virt` under the PML4 in `cr3`, `none` for a page fault. An entry of the
third level with the PS bit maps a page of 2 MiB. -/
def translate (m : Mem) (cr3 virt : U64) : Option U64 :=
  let e4 := m (pageOf cr3) (idxAt virt 39)
  if e4 &&& vmmPresent = 0 then none else
  let e3 := m (entryBase 12 e4 / 4096) (idxAt virt 30)
  if e3 &&& vmmPresent = 0 then none else
  let e2 := m (entryBase 12 e3 / 4096) (idxAt virt 21)
  if e2 &&& vmmPresent = 0 then none else
  if e2 &&& vmmHuge ≠ 0 then some (BitVec.ofNat 64 (entryBase 21 e2 + virt.toNat % 2 ^ 21)) else
  let e1 := m (entryBase 12 e2 / 4096) (idxAt virt 12)
  if e1 &&& vmmPresent = 0 then none else
  some (BitVec.ofNat 64 (entryBase 12 e1 + virt.toNat % 2 ^ 12))

/-! ## The boot tables -/

/-- The tables `boot.asm` reserves in `.bss`: three zeroed pages at 32-bit addresses. -/
structure BootTables (m : Mem) where
  pml4 : BitVec 32
  pdpt : BitVec 32
  pdt : BitVec 32
  pml4_aligned : pml4.toNat % 4096 = 0
  pdpt_aligned : pdpt.toNat % 4096 = 0
  pdt_aligned : pdt.toNat % 4096 = 0
  pml4_ne_pdpt : pml4 ≠ pdpt
  pml4_ne_pdt : pml4 ≠ pdt
  pdpt_ne_pdt : pdpt ≠ pdt
  zeroed : ∀ a ∈ [pml4, pdpt, pdt], ∀ i, m (a.toNat / 4096) i = 0

/-- `mov [table + idx*8], eax`: the low half of the entry. -/
def movEntry (table : BitVec 32) (idx : Fin 512) (eax : BitVec 32) (m : Mem) : Mem :=
  store m (table.toNat / 4096) idx
    (m (table.toNat / 4096) idx &&& 0xFFFFFFFF00000000 ||| eax.setWidth 64)

/-- `build_pages`. -/
def buildPages {m : Mem} (b : BootTables m) : Mem :=
  let m := movEntry b.pml4 0 (b.pdpt ||| 0x3) m
  let m := movEntry b.pdpt 0 (b.pdt ||| 0x3) m
  forUpTo 512 (fun ecx => movEntry b.pdt ecx (0x200000 * BitVec.ofNat 32 ecx ||| 0x83)) m

section

variable {m : Mem} (b : BootTables m)

theorem BootTables.frames_ne :
    b.pml4.toNat / 4096 ≠ b.pdpt.toNat / 4096 ∧ b.pml4.toNat / 4096 ≠ b.pdt.toNat / 4096 ∧
      b.pdpt.toNat / 4096 ≠ b.pdt.toNat / 4096 := by
  have h1 := b.pml4_aligned
  have h2 := b.pdpt_aligned
  have h3 := b.pdt_aligned
  have n1 := fun h => b.pml4_ne_pdpt (BitVec.eq_of_toNat_eq h)
  have n2 := fun h => b.pml4_ne_pdt (BitVec.eq_of_toNat_eq h)
  have n3 := fun h => b.pdpt_ne_pdt (BitVec.eq_of_toNat_eq h)
  refine ⟨fun h => n1 ?_, fun h => n2 ?_, fun h => n3 ?_⟩ <;> omega

theorem movEntry_of_zero {table : BitVec 32} {idx : Fin 512} (eax : BitVec 32) {m : Mem}
    (h : m (table.toNat / 4096) idx = 0) :
    movEntry table idx eax m = store m (table.toNat / 4096) idx (eax.setWidth 64) := by
  unfold movEntry
  rw [h, show (0 : U64) &&& 0xFFFFFFFF00000000 = 0#64 from BitVec.zero_and, BitVec.zero_or]

/-- The entries of `build_pages` are in memory: the two pointers and the 512 huge pages. -/
structure BootEntries (m' : Mem) : Prop where
  pml4 : m' (b.pml4.toNat / 4096) 0 = (b.pdpt ||| 0x3).setWidth 64
  pdpt : m' (b.pdpt.toNat / 4096) 0 = (b.pdt ||| 0x3).setWidth 64
  pdt : ∀ i : Fin 512, m' (b.pdt.toNat / 4096) i =
    (0x200000 * BitVec.ofNat 32 i ||| 0x83).setWidth 64

theorem buildPages_entries : BootEntries b (buildPages b) := by
  obtain ⟨n1, n2, n3⟩ := b.frames_ne
  have z := b.zeroed
  -- the two pointers
  obtain ⟨m₂, hm₂⟩ : ∃ m₂, m₂ = movEntry b.pdpt 0 (b.pdt ||| 0x3)
    (movEntry b.pml4 0 (b.pdpt ||| 0x3) m) := ⟨_, rfl⟩
  have e₂ : m₂ = store (store m (b.pml4.toNat / 4096) 0 ((b.pdpt ||| 0x3).setWidth 64))
      (b.pdpt.toNat / 4096) 0 ((b.pdt ||| 0x3).setWidth 64) := by
    rw [hm₂, movEntry_of_zero _ (z b.pml4 (by simp) 0), movEntry_of_zero]
    rw [store_table n1.symm]
    exact z b.pdpt (by simp) 0
  have h4 : m₂ (b.pml4.toNat / 4096) 0 = (b.pdpt ||| 0x3).setWidth 64 := by
    rw [e₂, store_table n1, store_self]
  have h3 : m₂ (b.pdpt.toNat / 4096) 0 = (b.pdt ||| 0x3).setWidth 64 := by
    rw [e₂, store_self]
  have h2 : ∀ i, m₂ (b.pdt.toNat / 4096) i = 0 := fun i => by
    rw [e₂, store_table n3.symm, store_table n2.symm]
    exact z b.pdt (by simp) i
  -- after `k` rounds the first `k` entries of the page directory are written
  have hinv := forUpTo_inv (fun k (m' : Mem) => (∀ f, f ≠ b.pdt.toNat / 4096 → m' f = m₂ f) ∧
      ∀ i : Fin 512, m' (b.pdt.toNat / 4096) i =
        if i.val < k then (0x200000 * BitVec.ofNat 32 i ||| 0x83).setWidth 64 else 0)
    (fun ecx : Fin 512 => movEntry b.pdt ecx (0x200000 * BitVec.ofNat 32 ecx ||| 0x83))
    (s := m₂) ⟨fun _ _ => rfl, fun i => by rw [if_neg (Nat.not_lt_zero _), h2 i]⟩ ?step
  case step =>
    rintro k m' ⟨hother, hpdt⟩
    rw [movEntry_of_zero _ (by rw [hpdt k, if_neg (Nat.lt_irrefl _)])]
    refine ⟨fun f hf => by rw [store_table hf, hother f hf], fun i => ?_⟩
    by_cases hik : i = k
    · rw [hik, store_self, if_pos (Nat.lt_succ_self _)]
    · rw [store_ne fun h => hik h.2, hpdt i]
      have : i.val ≠ k.val := fun h => hik (Fin.ext h)
      congr 1
      exact propext ⟨fun h => by omega, fun h => by omega⟩
  have hb : buildPages b = forUpTo 512
      (fun ecx => movEntry b.pdt ecx (0x200000 * BitVec.ofNat 32 ecx ||| 0x83)) m₂ := by
    rw [hm₂]
    rfl
  rw [hb]
  refine ⟨?_, ?_, fun i => ?_⟩
  · rw [hinv.1 _ n2, h4]
  · rw [hinv.1 _ n3, h3]
  · rw [hinv.2 i, if_pos i.isLt]

end

/-! ## What the boot tables translate -/

theorem or_toNat_of_aligned {w k : Nat} {x y : BitVec w} (hx : x.toNat % 2 ^ k = 0)
    (hy : y.toNat < 2 ^ k) : (x ||| y).toNat = x.toNat + y.toNat := by
  have hq : x.toNat = (x.toNat / 2 ^ k) <<< k := by
    rw [Nat.shiftLeft_eq]
    exact (Nat.div_mul_cancel (Nat.dvd_of_mod_eq_zero hx)).symm
  rw [BitVec.toNat_or, hq, Nat.shiftLeft_add_eq_or_of_lt hy]

theorem and_present_of_odd {e : U64} (h : e.toNat % 2 = 1) : ¬ e &&& vmmPresent = 0 := by
  rw [and_present_eq_zero, BitVec.getLsbD, Nat.testBit_zero, h]
  simp

theorem and_huge_of_bit {e : U64} (h : e.toNat / 2 ^ 7 % 2 = 1) : e &&& vmmHuge ≠ 0 := by
  intro h0
  have hb : (e &&& vmmHuge).getLsbD 7 = e.getLsbD 7 := by
    rw [BitVec.getLsbD_and]
    exact Bool.and_true _
  have he : e.getLsbD 7 = true := by
    rw [BitVec.getLsbD, Nat.testBit_eq_decide_div_mod_eq, h]
    rfl
  rw [h0, he] at hb
  exact absurd hb (by decide)

theorem tablePointer {t : BitVec 32} (ht : t.toNat % 4096 = 0) :
    ¬ (t ||| 0x3).setWidth 64 &&& vmmPresent = 0 ∧
      entryBase 12 ((t ||| 0x3).setWidth 64) / 4096 = t.toNat / 4096 := by
  have hlt := t.isLt
  have hn : ((t ||| 0x3).setWidth 64).toNat = t.toNat + 3 := by
    rw [BitVec.toNat_setWidth, or_toNat_of_aligned (k := 12) ht (by decide),
      show (0x3 : BitVec 32).toNat = 3 from rfl]
    omega
  refine ⟨and_present_of_odd (by omega), ?_⟩
  unfold entryBase
  rw [hn]
  omega

theorem hugePage (i : Fin 512) :
    ¬ (0x200000 * BitVec.ofNat 32 i ||| 0x83 : BitVec 32).setWidth 64 &&& vmmPresent = 0 ∧
      (0x200000 * BitVec.ofNat 32 i ||| 0x83 : BitVec 32).setWidth 64 &&& vmmHuge ≠ 0 ∧
      entryBase 21 ((0x200000 * BitVec.ofNat 32 i ||| 0x83 : BitVec 32).setWidth 64) =
        i * 2 ^ 21 := by
  have hi := i.isLt
  have hmul : (0x200000 * BitVec.ofNat 32 i : BitVec 32).toNat = i * 2 ^ 21 := by
    rw [BitVec.toNat_mul, BitVec.toNat_ofNat, show (0x200000 : BitVec 32).toNat = 2 ^ 21 from rfl]
    omega
  have hn : ((0x200000 * BitVec.ofNat 32 i ||| 0x83 : BitVec 32).setWidth 64).toNat =
      i * 2 ^ 21 + 0x83 := by
    rw [BitVec.toNat_setWidth, or_toNat_of_aligned (k := 21) (by omega) (by decide), hmul,
      show (0x83 : BitVec 32).toNat = 0x83 from rfl]
    omega
  refine ⟨and_present_of_odd (by omega), and_huge_of_bit (by omega), ?_⟩
  unfold entryBase
  rw [hn]
  omega

/-- **The boot tables map the first GiB one to one.** -/
theorem BootEntries.translate {m m' : Mem} {b : BootTables m} (h : BootEntries b m') {v : U64}
    (hv : v.toNat < 2 ^ 30) : translate m' (b.pml4.setWidth 64) v = some v := by
  obtain ⟨h4, h3, h2⟩ := h
  obtain ⟨q4, r4⟩ := tablePointer b.pdpt_aligned
  obtain ⟨q3, r3⟩ := tablePointer b.pdt_aligned
  obtain ⟨q2, hps, r2⟩ := hugePage (idxAt v 21)
  have hroot : pageOf (b.pml4.setWidth 64) = b.pml4.toNat / 4096 := by
    unfold pageOf
    rw [BitVec.toNat_setWidth, Nat.mod_eq_of_lt (Nat.lt_trans b.pml4.isLt (by decide))]
  have hi4 : idxAt v 39 = 0 := Fin.ext (by
    simp only [idxAt, idx_toNat, Fin.val_zero]
    omega)
  have hi3 : idxAt v 30 = 0 := Fin.ext (by
    simp only [idxAt, idx_toNat, Fin.val_zero]
    omega)
  have hi2 : (idxAt v 21).val = v.toNat / 2 ^ 21 := by
    simp only [idxAt, idx_toNat]
    omega
  unfold Sinux.Mm.translate
  dsimp only
  rw [hroot, hi4, h4, if_neg q4, r4, hi3, h3, if_neg q3, r3, h2, if_neg q2, if_pos hps, r2, hi2]
  refine congrArg some (BitVec.eq_of_toNat_eq ?_)
  rw [BitVec.toNat_ofNat]
  omega

/-! ## Further calls of `vmm_map` -/

/-- The page table in which `vmm_map` writes the leaf entry. -/
def vmmTable (pml4 virt flags : U64) (s : Phys) : U64 × Phys :=
  let (pdpt, s) := getOrAlloc pml4 (idxAt virt 39) (tblFlags flags) s
  let (pdt, s) := getOrAlloc pdpt (idxAt virt 30) (tblFlags flags) s
  getOrAlloc pdt (idxAt virt 21) (tblFlags flags) s

theorem vmmMap_eq (pml4 virt phys flags : U64) (s : Phys) :
    vmmMap pml4 virt phys flags s = (vmmTable pml4 virt flags s).2.setEntry
      (vmmTable pml4 virt flags s).1 (idxAt virt 12) (leafOf phys flags) := rfl

/-- The pages of the boot tables. -/
def BootTables.frames {m : Mem} (b : BootTables m) : List Nat :=
  [b.pml4.toNat / 4096, b.pdpt.toNat / 4096, b.pdt.toNat / 4096]

/-- What the kernel does after boot: `vmm_map` on its PML4 with a leaf entry outside the boot
tables, and anything else that leaves these three pages alone. -/
inductive BootStep {m : Mem} (b : BootTables m) : Phys → Phys → Prop
  | map (s : Phys) (virt phys flags : U64)
      (hpt : pageOf (vmmTable (b.pml4.setWidth 64) virt flags s).1 ∉ b.frames) :
      BootStep b s (vmmMap (b.pml4.setWidth 64) virt phys flags s)
  | alloc (s : Phys) : BootStep b s s.alloc.2
  | free (s : Phys) (page : U64) (hp : pageOf page ∉ b.frames) : BootStep b s (s.free page)
  | write (s : Phys) (f : Nat) (i : Fin 512) (w : U64) (hf : f ∉ b.frames) :
      BootStep b s { s with mem := store s.mem f i w }

/-- The boot entries are in place and their pages are marked used. -/
structure BootInv {m : Mem} (b : BootTables m) (s : Phys) : Prop where
  entries : BootEntries b s.mem
  used : ∀ f ∈ b.frames, s.pmm.Used f

/-- `s'` has the present entries of the used pages of `s`, and uses them still. -/
structure KeepsEntries (s s' : Phys) : Prop where
  mem : ∀ f i, s.pmm.Used f → ¬ s.mem f i &&& vmmPresent = 0 → s'.mem f i = s.mem f i
  used : ∀ f, s.pmm.Used f → s'.pmm.Used f

theorem KeepsEntries.trans {s s' s'' : Phys} (h : KeepsEntries s s') (h' : KeepsEntries s' s'') :
    KeepsEntries s s'' where
  mem := fun f i hu hp => by
    have h1 := h.mem f i hu hp
    rw [h'.mem f i (h.used f hu) (by rw [h1]; exact hp), h1]
  used := fun f hu => h'.used f (h.used f hu)

theorem Phys.alloc_keeps (s : Phys) : KeepsEntries s s.alloc.2 ∧
    (s.alloc.1 ≠ 0 → s.pmm.Free (pageOf s.alloc.1)) ∧ s.alloc.2.mem = s.mem := by
  unfold Phys.alloc
  rcases pmmAlloc_cases s.pmm with ⟨-, he⟩ | ⟨i, hi, -, he⟩
  · rw [he]
    exact ⟨⟨fun _ _ _ _ => rfl, fun _ hu => hu⟩, fun h => absurd rfl h, rfl⟩
  · rw [he]
    refine ⟨⟨fun _ _ _ _ => rfl, fun f hu => (Pmm.used_mark hi.1).mpr (Or.inl hu)⟩,
      fun _ => ?_, rfl⟩
    rw [pageOf_pageAddr hi.lt]
    exact hi

/-- **`get_or_alloc` overwrites no present entry**, whatever `table` points to. -/
theorem getOrAlloc_keeps (table : U64) (idx : Fin 512) (flags : U64) (s : Phys) :
    KeepsEntries s (getOrAlloc table idx flags s).2 := by
  obtain ⟨hk, hfree, hmem⟩ := s.alloc_keeps
  unfold getOrAlloc
  by_cases habs : s.entry table idx &&& vmmPresent = 0
  · rw [if_pos habs]
    generalize s.alloc = r at *
    obtain ⟨page, s₁⟩ := r
    by_cases h0 : page = 0
    · simp only [h0, if_true]
      exact hk
    · simp only [h0, if_false]
      refine ⟨fun f i hu hp => ?_, hk.used⟩
      have hfp : f ≠ pageOf page := fun h => Pmm.not_free_of_used hu (h ▸ hfree h0)
      show store (update s₁.mem (pageOf page) fun _ => 0) (pageOf table) idx _ f i
        = s.mem f i
      rw [store_ne, update_of_ne hfp]
      · exact congrFun (congrFun hmem f) i
      · rintro ⟨rfl, rfl⟩
        exact hp habs
  · rw [if_neg habs]
    exact ⟨fun _ _ _ _ => rfl, fun _ hu => hu⟩

theorem vmmTable_keeps (pml4 virt flags : U64) (s : Phys) :
    KeepsEntries s (vmmTable pml4 virt flags s).2 :=
  ((getOrAlloc_keeps ..).trans (getOrAlloc_keeps ..)).trans (getOrAlloc_keeps ..)

theorem BootInv.of_keeps {m : Mem} {b : BootTables m} {s s' : Phys} (h : BootInv b s)
    (hm : ∀ f i, f ∈ b.frames → ¬ s.mem f i &&& vmmPresent = 0 → s'.mem f i = s.mem f i)
    (hu : ∀ f ∈ b.frames, s'.pmm.Used f) : BootInv b s' := by
  obtain ⟨⟨h4, h3, h2⟩, -⟩ := h
  refine ⟨⟨?_, ?_, fun i => ?_⟩, hu⟩
  · rw [hm _ _ (by simp [BootTables.frames]) (by rw [h4]; exact (tablePointer b.pdpt_aligned).1),
      h4]
  · rw [hm _ _ (by simp [BootTables.frames]) (by rw [h3]; exact (tablePointer b.pdt_aligned).1), h3]
  · rw [hm _ _ (by simp [BootTables.frames]) (by rw [h2]; exact (hugePage i).1), h2]

theorem bootInv_step {m : Mem} {b : BootTables m} {s s' : Phys} (h : BootInv b s)
    (hst : BootStep b s s') : BootInv b s' := by
  cases hst with
  | map virt phys flags hpt =>
    have hk := vmmTable_keeps (b.pml4.setWidth 64) virt flags s
    rw [vmmMap_eq]
    refine h.of_keeps (fun f i hf hp => ?_) fun f hf => hk.used f (h.used f hf)
    have hne : f ≠ pageOf (vmmTable (b.pml4.setWidth 64) virt flags s).1 := fun hx => hpt (hx ▸ hf)
    exact (congrFun (store_table hne) i).trans (hk.mem f i (h.used f hf) hp)
  | alloc =>
    obtain ⟨hk, -, hmem⟩ := s.alloc_keeps
    exact h.of_keeps (fun f i _ _ => congrFun (congrFun hmem f) i)
      fun f hf => hk.used f (h.used f hf)
  | free page hp =>
    refine h.of_keeps (fun _ _ _ _ => rfl) fun f hf => ?_
    by_cases hu : s.pmm.Used (pageOf page)
    · rw [Phys.free_pmm, pmmFree_used hu]
      exact Pmm.used_release.mpr ⟨h.used f hf, fun hx => hp (hx ▸ hf)⟩
    · rw [Phys.free_pmm, pmmFree_not_used hu]
      exact h.used f hf
  | write f i w hf =>
    refine h.of_keeps (fun g j hg _ => ?_) h.used
    have hne : g ≠ f := fun hx => hf (hx ▸ hg)
    exact congrFun (store_table hne) j

/-- The states of the kernel after `build_pages`, with the pages of the boot tables reserved. -/
def BootReach {m : Mem} (b : BootTables m) (s : Phys) : Prop :=
  ∃ pmm : Pmm, (∀ f ∈ b.frames, pmm.Used f) ∧
    Relation.ReflTransGen (BootStep b) ⟨pmm, buildPages b⟩ s

theorem bootInv_of_reach {m : Mem} {b : BootTables m} {s : Phys} (hr : BootReach b s) :
    BootInv b s := by
  obtain ⟨pmm, hu, hrun⟩ := hr
  induction hrun with
  | refl =>
    have hb := buildPages_entries b
    generalize buildPages b = m' at *
    exact ⟨hb, hu⟩
  | tail _ hst ih => exact bootInv_step ih hst

/-! ## What a new address space keeps -/

theorem newPml4_translates_none {kernelPml4 : U64} {m : Mem} {f : Nat} (hf : f < 2 ^ 52) {v : U64}
    (hv : (vpageOf v).User) :
    translate (update m f (freshPml4 kernelPml4 m f)) (pageAddr f) v = none := by
  have h0 : freshPml4 kernelPml4 m f (idxAt v 39) &&& vmmPresent = 0 := by
    rw [and_present_eq_zero, ← childOf_eq_none]
    exact childOf_freshPml4 hv
  unfold translate
  simp only [pageOf_pageAddr hf, update_self]
  rw [if_pos h0]

/-- Every PML4 that `vmm_new_pml4` or `vmm_clone_pml4` returns in state `s` translates the kernel
addresses `K` as the kernel's own PML4 does. -/
def KeepsKernel (kernelPml4 : U64) (K : Set U64) (s : Phys) : Prop :=
  ∀ pml4 s', (vmmNewPml4 kernelPml4 s = (pml4, s') ∨
      ∃ src, vmmClonePml4 kernelPml4 src s = (pml4, s')) → pml4 ≠ 0 →
    ∀ v ∈ K, ∀ p, translate s.mem kernelPml4 v = some p → translate s'.mem pml4 v = some p

theorem not_keepsKernel {kernelPml4 : U64} {K : Set U64} {s : Phys} (hv : s.pmm.Valid) {f : Nat}
    (hf : s.pmm.Free f) {v p : U64} (hvK : v ∈ K) (hu : (vpageOf v).User)
    (ht : translate s.mem kernelPml4 v = some p) : ¬ KeepsKernel kernelPml4 K s := by
  intro h
  rcases vmmNewPml4_cases hv kernelPml4 with ⟨hnone, -⟩ | ⟨g, hg, hne, he⟩
  · exact hnone f hf
  · have := h _ _ (Or.inl he) hne v hvK p ht
    rw [newPml4_translates_none hg.lt hu] at this
    exact absurd this (by simp)

theorem user_of_lt {v : U64} (hv : v.toNat < 2 ^ 30) : (vpageOf v).User := by
  show (v >>> 39 &&& 0x1FF#64).toNat < 256
  rw [idx_toNat]
  omega

theorem keepsKernel_of_full {kernelPml4 : U64} {K : Set U64} {s : Phys} (hv : s.pmm.Valid)
    (hnone : ∀ f, ¬ s.pmm.Free f) : KeepsKernel kernelPml4 K s := by
  have hnew : vmmNewPml4 kernelPml4 s = (0, s) := by
    rcases vmmNewPml4_cases hv kernelPml4 with ⟨-, he⟩ | ⟨g, hg, -, -⟩
    · exact he
    · exact absurd hg (hnone g)
  rintro pml4 s' (he | ⟨src, he⟩) hne
  · rw [hnew] at he
    exact absurd (congrArg Prod.fst he).symm hne
  · unfold vmmClonePml4 at he
    simp only [hnew, if_true] at he
    exact absurd (congrArg Prod.fst he).symm hne

/-- **New address spaces lose the kernel.** Whatever the kernel's PML4 holds, the addresses `K` of
the first GiB stay mapped in the new address spaces exactly when there is no page for an address
space, or none of them is mapped by the kernel's PML4. With the tables of `boot.asm`, also after
further calls of `vmm_map` on them, all are mapped, and the second means that `K` is empty. -/
theorem keepsKernel_iff {kernelPml4 : U64} {s : Phys} (hv : s.pmm.Valid) {K : Set U64}
    (hK : ∀ v ∈ K, v.toNat < 2 ^ 30) :
    (KeepsKernel kernelPml4 K s ↔
      (∀ f, ¬ s.pmm.Free f) ∨ ∀ v ∈ K, translate s.mem kernelPml4 v = none) ∧
    ∀ (m : Mem) (b : BootTables m), BootReach b s → kernelPml4 = b.pml4.setWidth 64 →
      (KeepsKernel kernelPml4 K s ↔ (∀ f, ¬ s.pmm.Free f) ∨ K = ∅) := by
  have hmain : KeepsKernel kernelPml4 K s ↔
      (∀ f, ¬ s.pmm.Free f) ∨ ∀ v ∈ K, translate s.mem kernelPml4 v = none := by
    constructor
    · intro h
      by_contra hcon
      rw [not_or, not_forall] at hcon
      obtain ⟨⟨f, hf⟩, hmap⟩ := hcon
      refine hmap fun v hvK => Option.eq_none_iff_forall_ne_some.mpr fun p hp => ?_
      exact not_keepsKernel hv (not_not.mp hf) hvK (user_of_lt (hK v hvK)) hp h
    · rintro (hnone | hmap)
      · exact keepsKernel_of_full hv hnone
      · intro pml4 s' _ _ v hvK p hp
        rw [hmap v hvK] at hp
        exact absurd hp (by simp)
  refine ⟨hmain, fun m b hr he => hmain.trans (or_congr_right ?_)⟩
  subst he
  constructor
  · intro h
    by_contra hne
    obtain ⟨v, hvK⟩ := Set.nonempty_iff_ne_empty.mpr hne
    have ht := (bootInv_of_reach hr).entries.translate (hK v hvK)
    rw [h v hvK] at ht
    exact absurd ht (by simp)
  · rintro rfl v hvK
    exact absurd hvK (Set.notMem_empty v)

/-- Boot tables right above a kernel image at 1 MiB. -/
def lowTables : BootTables fun _ _ => 0 where
  pml4 := 0x110000
  pdpt := 0x111000
  pdt := 0x112000
  pml4_aligned := by decide
  pdpt_aligned := by decide
  pdt_aligned := by decide
  pml4_ne_pdpt := by decide
  pml4_ne_pdt := by decide
  pdpt_ne_pdt := by decide
  zeroed := fun _ _ _ => rfl

/-- The pages of a machine with 2 MiB of memory whose first 1.5 MiB are reserved. -/
def lowPmm : Pmm := ⟨fun k => if k < 48 then 0xFF else 0, 512, 128, by decide⟩

/-- That machine with the boot tables. -/
def lowMachine : Phys := ⟨lowPmm, buildPages lowTables⟩

theorem lowMachine_valid : lowMachine.pmm.Valid := ⟨by decide +kernel, by decide⟩

theorem lowMachine_mem : lowMachine.mem = buildPages lowTables := by
  unfold lowMachine
  dsimp only

theorem lowMachine_translates : translate lowMachine.mem 0x110000 0x100000 = some 0x100000 := by
  rw [lowMachine_mem, show (0x110000 : U64) = lowTables.pml4.setWidth 64 from by decide]
  refine BootEntries.translate ?_ (by decide)
  exact buildPages_entries lowTables

/-- The first instruction of the kernel, at 1 MiB, is not mapped in a new address space. -/
theorem keepsKernel_lowMachine : ¬ KeepsKernel 0x110000 {0x100000} lowMachine :=
  not_keepsKernel lowMachine_valid (show lowMachine.pmm.Free 384 by decide +kernel)
    (Set.mem_singleton _) (by decide) lowMachine_translates

theorem lowMachine_reach : BootReach lowTables lowMachine := by
  have hused : ∀ f ∈ lowTables.frames, lowPmm.Used f := by decide +kernel
  refine ⟨lowPmm, hused, ?_⟩
  unfold lowMachine
  exact Relation.ReflTransGen.refl

/-- Nor are the tables themselves, at 0x110000. -/
theorem keepsKernel_iff_lowMachine :
    ¬ KeepsKernel (lowTables.pml4.setWidth 64) {0x110000} lowMachine := by
  rw [(keepsKernel_iff lowMachine_valid (by rintro v rfl; decide)).2 _ lowTables lowMachine_reach
    rfl]
  rintro (hnone | hempty)
  · exact hnone 384 (by decide +kernel)
  · exact Set.singleton_ne_empty _ hempty

end Sinux.Mm

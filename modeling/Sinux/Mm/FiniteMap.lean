import Sinux.Mm.PageTable
import Mathlib.Logic.Relation

/-!
# A page table is a finite map

The reference is a map from virtual pages to the physical address and flags they were last mapped
with. `MapStep` runs `vmm_map` and `vmm_unmap` on one PML4 beside it. The rest of the kernel moves
in between: it takes pages, frees pages and writes memory, as long as the pages are not the tables
of this PML4. `hroom` is the assumption that the allocator is not exhausted: it can supply the
tables `vmm_map` finds missing.

* `vmm_refines_map`: in every state of a run `vmm_get_phys` and the leaf flags are those of the
  reference, and an operation on one page leaves the translation of every other page alone.
-/

namespace Sinux.Mm

open Function Sinux.Lib Sinux.Lib.Radix

/-- The reference: where a page is mapped, and with which flags. -/
abbrev RefMap := VPage → Option (U64 × U64)

/-- A page of the tables of `pml4`. -/
def IsTable (pml4 : U64) (s : Phys) (f : Nat) : Prop :=
  Node childOf userIdx 3 s.mem {pageOf pml4} f

/-- One operation on the PML4 `pml4`, or one of the rest of the kernel. -/
inductive MapStep (pml4 : U64) : Phys × RefMap → Phys × RefMap → Prop
  | map (s : Phys) (ref : RefMap) (virt phys flags : U64) (hv : (vpageOf virt).User)
      (hphys : 4096 ∣ phys.toNat) (hnx : flags &&& vmmNx = 0)
      (hroom : missing s.mem (pageOf pml4) (vpageOf virt) ≤ s.pmm.freePages.toNat) :
      MapStep pml4 (s, ref) (vmmMap pml4 virt phys flags s,
        update ref (vpageOf virt) (some (phys, flags)))
  | unmap (s : Phys) (ref : RefMap) (virt : U64) (hv : (vpageOf virt).User) :
      MapStep pml4 (s, ref) (vmmUnmap pml4 virt s, update ref (vpageOf virt) none)
  | alloc (s : Phys) (ref : RefMap) : MapStep pml4 (s, ref) (s.alloc.2, ref)
  | free (s : Phys) (ref : RefMap) (page : U64) (h0 : pageOf page ≠ 0)
      (hp : ¬ IsTable pml4 s (pageOf page)) : MapStep pml4 (s, ref) (s.free page, ref)
  | write (s : Phys) (ref : RefMap) (f : Nat) (i : Fin 512) (w : U64) (hf : ¬ IsTable pml4 s f) :
      MapStep pml4 (s, ref) ({ s with mem := store s.mem f i w }, ref)

/-- The states of the runs that start with a PML4 from `vmm_new_pml4` on a valid allocator. -/
def MapReach (kernelPml4 pml4 : U64) (t : Phys × RefMap) : Prop :=
  ∃ s₀ : Phys, s₀.pmm.Valid ∧ pml4 ≠ 0 ∧ (vmmNewPml4 kernelPml4 s₀).1 = pml4 ∧
    Relation.ReflTransGen (MapStep pml4) ((vmmNewPml4 kernelPml4 s₀).2, fun _ => none) t

/-- The leaf entry the reference stands for. -/
def refEntry : Option (U64 × U64) → U64
  | some (phys, flags) => leafOf phys flags
  | none => 0

/-- The tables are owned and the leaf entries are the reference's. -/
structure MapInv (pml4 : U64) (s : Phys) (ref : RefMap) : Prop where
  tables : Tables 3 {pageOf pml4} s
  leaf : ∀ v : VPage, v.User → leafEntry s.mem (pageOf pml4) v = refEntry (ref v)
  aligned : ∀ v phys flags, ref v = some (phys, flags) →
    4096 ∣ phys.toNat ∧ flags &&& vmmNx = 0

theorem pageMask_of_dvd {x : U64} (h : 4096 ∣ x.toNat) : pageMask x = x := by
  apply BitVec.eq_of_toNat_eq
  rw [pageMask_toNat]
  omega

section

variable {pml4 : U64} {s : Phys} {ref : RefMap}

theorem MapInv.newPml4 {kernelPml4 : U64} {s₀ : Phys} (hv : s₀.pmm.Valid)
    (hne : (vmmNewPml4 kernelPml4 s₀).1 ≠ 0) :
    MapInv (vmmNewPml4 kernelPml4 s₀).1 (vmmNewPml4 kernelPml4 s₀).2 fun _ => none := by
  rcases vmmNewPml4_cases hv kernelPml4 with ⟨-, he⟩ | ⟨f, hf, -, he⟩
  · rw [he] at hne
    exact absurd rfl hne
  · rw [he]
    have hpf : pageOf (pageAddr f) = f := pageOf_pageAddr hf.lt
    refine ⟨?_, fun v hv' => ?_, fun v phys flags h => absurd h (by simp)⟩
    · rw [hpf]
      have h : Tables 3 (insert f ∅) _ := ((tables_empty hv).newRoot hf kernelPml4).1
      rwa [insert_empty_eq] at h
    · rw [hpf]
      exact leafEntry_freshPml4 hv'

theorem mapInv_step {t t' : Phys × RefMap} (h : MapInv pml4 t.1 t.2) (hst : MapStep pml4 t t') :
    MapInv pml4 t'.1 t'.2 := by
  have hr : pageOf pml4 ∈ ({pageOf pml4} : Set Nat) := rfl
  cases hst with
  | map s ref virt phys flags hv hphys hnx hroom =>
    rw [h.tables.valid.counter] at hroom
    obtain ⟨L, hm⟩ := vmmMap_spec h.tables hr hv phys flags hroom
    refine ⟨hm.tables, fun w hw => ?_, fun w p fl hw => ?_⟩
    · simp only
      rw [hm.leaf _ hr w hw]
      by_cases hwv : w = vpageOf virt
      · rw [if_pos ⟨rfl, hwv⟩, hwv, update_self]
        rfl
      · rw [if_neg fun hx => hwv hx.2, update_of_ne hwv]
        exact h.leaf w hw
    · simp only at hw
      by_cases hwv : w = vpageOf virt
      · rw [hwv, update_self] at hw
        cases hw
        exact ⟨hphys, hnx⟩
      · rw [update_of_ne hwv] at hw
        exact h.aligned w p fl hw
  | unmap s ref virt hv =>
    have hu := vmmUnmap_spec h.tables hr hv
    refine ⟨hu.tables, fun w hw => ?_, fun w p fl hw => ?_⟩
    · simp only
      rw [hu.leaf _ hr w hw]
      by_cases hwv : w = vpageOf virt
      · rw [if_pos ⟨rfl, hwv⟩, hwv, update_self]
        rfl
      · rw [if_neg fun hx => hwv hx.2, update_of_ne hwv]
        exact h.leaf w hw
    · simp only at hw
      by_cases hwv : w = vpageOf virt
      · rw [hwv, update_self] at hw
        exact absurd hw (by simp)
      · rw [update_of_ne hwv] at hw
        exact h.aligned w p fl hw
  | alloc s ref =>
    rcases Phys.alloc_cases h.tables.valid with ⟨-, he⟩ | ⟨i, hi, -, -, he⟩
    · rw [he]
      exact h
    · rw [he]
      exact ⟨h.tables.frame (Nat.le_succ 3) (h.tables.valid.mark hi) (fun _ _ => rfl)
        fun f hf => (Pmm.used_mark hi.1).mpr (Or.inl (h.tables.used f hf)), h.leaf, h.aligned⟩
  | free s ref page h0 hp =>
    refine ⟨h.tables.frame (Nat.le_succ 3) ?_ (fun _ _ => rfl) fun f hf => ?_, h.leaf, h.aligned⟩
    · by_cases hu : s.pmm.Used (pageOf page)
      · rw [Phys.free_pmm, pmmFree_used hu]
        exact h.tables.valid.release hu h0
      · rw [Phys.free_pmm, pmmFree_not_used hu]
        exact h.tables.valid
    · have hfu := h.tables.used f hf
      by_cases hu : s.pmm.Used (pageOf page)
      · rw [Phys.free_pmm, pmmFree_used hu]
        exact Pmm.used_release.mpr ⟨hfu, fun hx => hp (hx ▸ hf)⟩
      · rw [Phys.free_pmm, pmmFree_not_used hu]
        exact hfu
  | write s ref f i w hf =>
    have hm : ∀ g, Node childOf userIdx 3 s.mem {pageOf pml4} g →
        store s.mem f i w g = s.mem g := fun g hg => store_table fun hx => hf (hx ▸ hg)
    exact ⟨h.tables.frame (Nat.le_succ 3) h.tables.valid hm h.tables.used,
      fun v hv => (leafEntry_congr hm hr hv).trans (h.leaf v hv), h.aligned⟩

theorem mapInv_of_reach {kernelPml4 : U64} {t : Phys × RefMap}
    (hr : MapReach kernelPml4 pml4 t) : MapInv pml4 t.1 t.2 := by
  obtain ⟨s₀, hv, hne, he, hrun⟩ := hr
  induction hrun with
  | refl =>
    subst he
    exact MapInv.newPml4 hv hne
  | tail _ hst ih => exact mapInv_step ih hst

end

/-- The page table `s` agrees with the reference `ref`. -/
structure MapAgrees (pml4 : U64) (s : Phys) (ref : RefMap) : Prop where
  /-- `vmm_get_phys` is the address last mapped, 0 where nothing is mapped. -/
  getPhys : ∀ virt, (vpageOf virt).User →
    vmmGetPhys pml4 virt s = ((ref (vpageOf virt)).map Prod.fst).getD 0
  /-- The low 12 bits of the leaf entry are the low flags and `PRESENT`. -/
  flags : ∀ virt phys flags, (vpageOf virt).User → ref (vpageOf virt) = some (phys, flags) →
    leafEntry s.mem (pageOf pml4) (vpageOf virt) &&& 0xFFF = (flags &&& 0xFFF) ||| vmmPresent
  /-- `vmm_map` changes the translation of its own page only. -/
  map_frame : ∀ virt phys flags virt', (vpageOf virt).User → (vpageOf virt').User →
    missing s.mem (pageOf pml4) (vpageOf virt) ≤ s.pmm.freePages.toNat →
    vpageOf virt' ≠ vpageOf virt →
    vmmGetPhys pml4 virt' (vmmMap pml4 virt phys flags s) = vmmGetPhys pml4 virt' s ∧
    leafEntry (vmmMap pml4 virt phys flags s).mem (pageOf pml4) (vpageOf virt') =
      leafEntry s.mem (pageOf pml4) (vpageOf virt')
  /-- `vmm_unmap` changes the translation of its own page only. -/
  unmap_frame : ∀ virt virt', (vpageOf virt).User → (vpageOf virt').User →
    vpageOf virt' ≠ vpageOf virt →
    vmmGetPhys pml4 virt' (vmmUnmap pml4 virt s) = vmmGetPhys pml4 virt' s ∧
    leafEntry (vmmUnmap pml4 virt s).mem (pageOf pml4) (vpageOf virt') =
      leafEntry s.mem (pageOf pml4) (vpageOf virt')

/-- **The four-level page table implements a finite map**, in every state of every run. -/
theorem vmm_refines_map {kernelPml4 pml4 : U64} {s : Phys} {ref : RefMap}
    (hr : MapReach kernelPml4 pml4 (s, ref)) : MapAgrees pml4 s ref := by
  have inv : MapInv pml4 s ref := mapInv_of_reach hr
  have hroot : pageOf pml4 ∈ ({pageOf pml4} : Set Nat) := rfl
  refine ⟨fun virt hv => ?_, fun virt phys flags hv href => ?_,
    fun virt phys flags virt' hv hv' hroom hne => ?_, fun virt virt' hv hv' hne => ?_⟩
  · rw [vmmGetPhys_eq, inv.leaf _ hv]
    cases href : ref (vpageOf virt) with
    | none => rfl
    | some x =>
      obtain ⟨phys, flags⟩ := x
      obtain ⟨hal, hnx⟩ := inv.aligned _ _ _ href
      show pageMask (leafOf phys flags) = phys
      rw [pageMask_leafOf hnx, pageMask_of_dvd hal]
  · rw [inv.leaf _ hv, href]
    exact leafOf_low (inv.aligned _ _ _ href).2 phys
  · rw [inv.tables.valid.counter] at hroom
    obtain ⟨L, hm⟩ := vmmMap_spec inv.tables hroot hv phys flags hroom
    have hl := hm.leaf _ hroot _ hv'
    rw [if_neg fun hx => hne hx.2] at hl
    exact ⟨by rw [vmmGetPhys_eq, vmmGetPhys_eq, hl], hl⟩
  · have hu := vmmUnmap_spec inv.tables hroot hv
    have hl := hu.leaf _ hroot _ hv'
    rw [if_neg fun hx => hne hx.2] at hl
    exact ⟨by rw [vmmGetPhys_eq, vmmGetPhys_eq, hl], hl⟩

/-- The run that maps one page in a new PML4: the page reads back as mapped. -/
theorem vmm_refines_map_eightPages :
    MapAgrees 0x1000 (vmmMap 0x1000 0x400000 0x6000 7 (vmmNewPml4 0 eightPages).2)
      (update (fun _ => none) (vpageOf 0x400000) (some (0x6000, 7))) :=
  @vmm_refines_map 0 _ _ _ ⟨eightPages, eightPages_valid, by decide, by decide,
    Relation.ReflTransGen.single (MapStep.map _ _ 0x400000 0x6000 7 (by decide) (by decide)
      (by decide) (by decide))⟩

end Sinux.Mm

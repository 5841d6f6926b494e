import Sinux.Mm.Fork
import Sinux.Mm.KernelMap
import Sinux.Mm.Rollback

/-!
# The no-execute bit of a mapping

`vmm_map` stores `VMM_NX` in bit 63 of the leaf. The functions that read the leaf back
(`vmm_get_phys`, `vmm_clone_pml4`, `vmm_destroy_pml4`) take `entry & ~0xFFF` for the address and
`entry & 0xFFF` for the flags, so bit 63 counts as part of the address.

* `vmmMap_leaf`: `vmm_map` writes the leaf it is asked to write, in either half;
* `pageMask_leafOf_iff`: the address is read back exactly if the flags do not have bit 63;
* `SpaceReady.clone_iff`, `SpaceReady.destroy_frees`, `SpaceReady.destroy_misses`: what the copy of
  the page holds, and whether its frame is given back;
* `readers_decode_iff`: the three readers decode the leaf exactly if `VMM_NX` is not set;
* `nx_mapping_lost`: a page mapped with `VMM_NX`.
-/

namespace Sinux.Mm

open Sinux.Lib Sinux.Lib.Radix

/-! ## Bit 63 of an entry -/

theorem and_nx_eq_zero (e : U64) : e &&& vmmNx = 0 ↔ e.getLsbD 63 = false := by
  rw [show vmmNx = BitVec.twoPow 64 63 from rfl, BitVec.and_twoPow]
  cases e.getLsbD 63 <;> decide

theorem getLsbD_of_lt {x : U64} (h : x.toNat < 2 ^ 63) : x.getLsbD 63 = false :=
  Nat.testBit_lt_two_pow h

theorem le_of_getLsbD {x : U64} (h : x.getLsbD 63 = true) : 2 ^ 63 ≤ x.toNat :=
  Nat.ge_two_pow_of_testBit h

theorem leafOf_nx {phys : U64} (hlow : phys.toNat < 2 ^ 52) (flags : U64) :
    leafOf phys flags &&& vmmNx = 0 ↔ flags &&& vmmNx = 0 := by
  by_cases hnx : flags &&& vmmNx = 0
  · refine iff_of_true ?_ hnx
    have hphys : (pageMask phys).getLsbD 63 = false := getLsbD_of_lt (by rw [pageMask_toNat]; omega)
    have hflags : ((flags &&& 0xFFF) ||| vmmPresent).getLsbD 63 = false :=
      getLsbD_of_lt ((low_or_present_lt flags).trans (by decide))
    rw [and_nx_eq_zero, leafOf_eq hnx, BitVec.getLsbD_or, hphys, hflags]
    rfl
  · refine iff_of_false ?_ hnx
    rw [and_nx_eq_zero]
    unfold leafOf
    rw [if_neg hnx, BitVec.getLsbD_or, show vmmNx.getLsbD 63 = true from rfl, Bool.or_true]
    exact Bool.noConfusion

/-- **`entry & ~0xFFF` is the address** exactly if the flags do not have bit 63. -/
theorem pageMask_leafOf_iff {phys : U64} (hdvd : 4096 ∣ phys.toNat) (hlow : phys.toNat < 2 ^ 52)
    (flags : U64) : pageMask (leafOf phys flags) = phys ↔ flags &&& vmmNx = 0 := by
  constructor
  · intro h
    by_contra hnx
    rw [← leafOf_nx hlow, and_nx_eq_zero, Bool.not_eq_false] at hnx
    have hge := le_of_getLsbD hnx
    have hmask := pageMask_toNat (leafOf phys flags)
    rw [h] at hmask
    omega
  · intro hnx
    rw [pageMask_leafOf hnx, pageMask_of_dvd hdvd]

theorem not_managed_of_nx {e : U64} (h : ¬ e &&& vmmNx = 0) (s : Pmm) :
    ¬ s.Free (pageOf e) ∧ ¬ s.Used (pageOf e) := by
  rw [and_nx_eq_zero, Bool.not_eq_false] at h
  have hge := le_of_getLsbD h
  have htotal := s.total_le
  unfold bitmapMaxPages at htotal
  refine ⟨fun hf => ?_, fun hu => ?_⟩
  · have := hf.1
    unfold pageOf at this
    omega
  · have := hu.1
    unfold pageOf at this
    omega

/-! ## Mapping a page of either half -/

/-- The tables on the way to page `v` are in use, the last one is none of those above it, and there
are pages for those that are missing. -/
structure PathReady (pml4 : U64) (v : VPage) (s : Phys) : Prop where
  valid : s.pmm.Valid
  used : ∀ ρ f, ρ <+: v.tables → walk childOf s.mem (pageOf pml4) ρ = some f → s.pmm.Used f
  apart : ∀ ρ f, ρ <+: v.tables → ρ ≠ v.tables → walk childOf s.mem (pageOf pml4) ρ = some f →
    walk childOf s.mem (pageOf pml4) v.tables ≠ some f
  room : missing s.mem (pageOf pml4) v ≤ s.pmm.freePages.toNat

theorem Tables.pathReady {pml4 : U64} {v : VPage} {s : Phys} (h : Tables 3 {pageOf pml4} s)
    (hv : v.User) (hroom : missing s.mem (pageOf pml4) v ≤ s.pmm.freePages.toNat) :
    PathReady pml4 v s := by
  have hr : pageOf pml4 ∈ ({pageOf pml4} : Set Nat) := rfl
  have hpath (ρ : List (Fin 512)) (hρ : ρ <+: v.tables) : Path userIdx 3 ρ := by
    obtain ⟨σ, hσ⟩ := hρ
    exact Path.of_append (hσ ▸ v.path_tables hv (le_refl 3))
  refine ⟨h.valid, fun ρ f hρ hw => h.used f ⟨_, hr, ρ, hpath ρ hρ, hw⟩,
    fun ρ f hρ hne hw hw' => ?_, hroom⟩
  exact hne (h.forest _ hr _ hr ρ v.tables f (hpath ρ hρ) (v.path_tables hv (le_refl 3)) hw hw').2

section

variable {s : Phys} {table fl : U64} {i : Fin 512}

theorem getOrAlloc_cases (hv : s.pmm.Valid) (hu : s.pmm.Used (pageOf table)) (hfl : fl.toNat < 4096)
    (hp : fl.getLsbD 0 = true)
    (hroom : childOf (s.mem (pageOf table) i) = none → 0 < s.pmm.clearBits) :
    (∃ c, childOf (s.mem (pageOf table) i) = some c ∧ c < 2 ^ 52 ∧
      getOrAlloc table i fl s = (pageAddr c, s)) ∨
    ∃ g s', childOf (s.mem (pageOf table) i) = none ∧ s.pmm.Free g ∧
      getOrAlloc table i fl s = (pageAddr g, s') ∧ s'.pmm = s.pmm.mark g ∧
      childOf (s'.mem (pageOf table) i) = some g ∧ ∀ j, childOf (s'.mem g j) = none := by
  cases hc : childOf (s.mem (pageOf table) i) with
  | some c =>
    obtain ⟨hbit, rfl⟩ := childOf_eq_some.mp hc
    have hpres : ¬ s.entry table i &&& vmmPresent = 0 := by
      rw [and_present_eq_zero, Phys.entry, hbit]
      exact Bool.noConfusion
    refine Or.inl ⟨_, rfl, pageOf_lt _, ?_⟩
    rw [getOrAlloc, if_neg hpres, pageMask_eq]
    rfl
  | none =>
    have habs : s.entry table i &&& vmmPresent = 0 :=
      (and_present_eq_zero _).mpr (childOf_eq_none.mp hc)
    obtain ⟨c₀, hc₀⟩ := exists_free_of_clearBits_pos (hroom hc)
    rcases Phys.alloc_cases hv with ⟨hnone, -⟩ | ⟨g, hg, -, hne, he⟩
    · exact absurd hc₀ (hnone c₀)
    · have hgt : g ≠ pageOf table := fun hx => Pmm.not_free_of_used hu (hx ▸ hg)
      have hchild := childOf_or hg.lt hfl hp
      refine Or.inr ⟨g, ⟨s.pmm.mark g, store (Function.update s.mem g fun _ => 0) (pageOf table) i
        (pageAddr g ||| fl)⟩, rfl, hg, ?_, rfl, ?_, fun j => ?_⟩
      · rw [getOrAlloc, if_pos habs, he]
        simp only [if_neg hne, Phys.entry, Phys.setEntry, Phys.kmemsetPage, pageOf_pageAddr hg.lt,
          store_self]
        rw [pageMask_eq, (childOf_eq_some.mp hchild).2]
      · dsimp only
        rw [store_self]
        exact hchild
      · dsimp only
        rw [store_table hgt, Function.update_self]
        exact childOf_zero

theorem KeepsEntries.child {s' : Phys} (h : KeepsEntries s s') {f c : Nat} (hu : s.pmm.Used f)
    (hc : childOf (s.mem f i) = some c) : childOf (s'.mem f i) = some c := by
  rw [h.mem f i hu, hc]
  rw [and_present_eq_zero, (childOf_eq_some.mp hc).1]
  exact Bool.noConfusion

/-- The leaf entry is read back if the last table is none of those above it. -/
theorem leafEntry_setEntry {r t₁ t₂ t₃ : Nat} {v : VPage} {e : U64}
    (h₁ : childOf (s.mem r v.p4) = some t₁) (h₂ : childOf (s.mem t₁ v.p3) = some t₂)
    (h₃ : childOf (s.mem t₂ v.p2) = some t₃) (hne : t₃ ≠ r ∧ t₃ ≠ t₁ ∧ t₃ ≠ t₂)
    (ht : t₃ < 2 ^ 52) :
    leafEntry (s.setEntry (pageAddr t₃) v.p1 e).mem r v = e := by
  have hm : (s.setEntry (pageAddr t₃) v.p1 e).mem = store s.mem t₃ v.p1 e := by
    rw [Phys.setEntry, pageOf_pageAddr ht]
  unfold leafEntry
  rw [walk_tables, hm, store_table hne.1.symm, h₁, Option.bind_some, store_table hne.2.1.symm, h₂,
    Option.bind_some, store_table hne.2.2.symm, h₃]
  exact store_self ..

theorem leafEntry_last {r t₁ t₂ : Nat} {v : VPage} (e : U64) (hv : s.pmm.Valid)
    (hr : s.pmm.Used r) (hu₁ : s.pmm.Used t₁) (hu₂ : s.pmm.Used t₂)
    (h₁ : childOf (s.mem r v.p4) = some t₁) (h₂ : childOf (s.mem t₁ v.p3) = some t₂)
    (hapart : ∀ t₃, childOf (s.mem t₂ v.p2) = some t₃ → t₃ ≠ r ∧ t₃ ≠ t₁ ∧ t₃ ≠ t₂)
    (hroom : childOf (s.mem t₂ v.p2) = none → 0 < s.pmm.clearBits) (hfl : fl.toNat < 4096)
    (hp : fl.getLsbD 0 = true) :
    let r₃ := getOrAlloc (pageAddr t₂) v.p2 fl s
    leafEntry (r₃.2.setEntry r₃.1 v.p1 e).mem r v = e := by
  dsimp only
  have hpage : pageOf (pageAddr t₂) = t₂ := pageOf_pageAddr hu₂.lt
  have hkeep := getOrAlloc_keeps (pageAddr t₂) v.p2 fl s
  rcases getOrAlloc_cases (i := v.p2) hv (hpage.symm ▸ hu₂) hfl hp (hpage.symm ▸ hroom) with
    ⟨t₃, hc, ht, he⟩ | ⟨t₃, s', hc, hf, he, hpmm, hlink, -⟩
  · rw [hpage] at hc
    rw [he]
    exact leafEntry_setEntry h₁ h₂ hc (hapart t₃ hc) ht
  · rw [hpage] at hlink
    rw [he] at hkeep ⊢
    refine leafEntry_setEntry (hkeep.child hr h₁) (hkeep.child hu₁ h₂) hlink ⟨?_, ?_, ?_⟩ hf.lt
    · rintro rfl
      exact Pmm.not_free_of_used hr hf
    · rintro rfl
      exact Pmm.not_free_of_used hu₁ hf
    · rintro rfl
      exact Pmm.not_free_of_used hu₂ hf

theorem leafEntry_lastTwo {r t₁ : Nat} {v : VPage} (e : U64) (hv : s.pmm.Valid)
    (hr : s.pmm.Used r) (hu₁ : s.pmm.Used t₁) (h₁ : childOf (s.mem r v.p4) = some t₁)
    (hnone : childOf (s.mem t₁ v.p3) = none) (hroom : 2 ≤ s.pmm.clearBits) (hfl : fl.toNat < 4096)
    (hp : fl.getLsbD 0 = true) :
    let r₂ := getOrAlloc (pageAddr t₁) v.p3 fl s
    let r₃ := getOrAlloc r₂.1 v.p2 fl r₂.2
    leafEntry (r₃.2.setEntry r₃.1 v.p1 e).mem r v = e := by
  dsimp only
  have hpage : pageOf (pageAddr t₁) = t₁ := pageOf_pageAddr hu₁.lt
  have hkeep := getOrAlloc_keeps (pageAddr t₁) v.p3 fl s
  rcases getOrAlloc_cases (i := v.p3) hv (hpage.symm ▸ hu₁) hfl hp fun _ => by omega with
    ⟨t₂, hc, -, -⟩ | ⟨t₂, s', -, hf, he, hpmm, hlink, hzero⟩
  · rw [hpage, hnone] at hc
    exact absurd hc.symm (Option.some_ne_none t₂)
  · rw [hpage] at hlink
    rw [he] at hkeep ⊢
    dsimp only at hkeep ⊢
    have hbits := Pmm.clearBits_mark hf
    rw [← hpmm] at hbits
    have hu₂ : s'.pmm.Used t₂ := by
      rw [hpmm]
      exact (Pmm.used_mark hf.1).mpr (Or.inr rfl)
    refine leafEntry_last e (hpmm ▸ hv.mark hf) (hkeep.used r hr) (hkeep.used t₁ hu₁) hu₂
      (hkeep.child hr h₁) hlink (fun t₃ hc => ?_) (fun _ => by omega) hfl hp
    rw [hzero] at hc
    exact absurd hc.symm (Option.some_ne_none t₃)

end

/-- **The entry of a page after `vmm_map`**, in either half. -/
theorem vmmMap_leaf {pml4 virt : U64} {s : Phys} (h : PathReady pml4 (vpageOf virt) s)
    (phys flags : U64) :
    leafEntry (vmmMap pml4 virt phys flags s).mem (pageOf pml4) (vpageOf virt) =
      leafOf phys flags := by
  have hlow := tblFlags_lt flags
  have hpres := tblFlags_present flags
  have hroom := h.room
  rw [h.valid.counter] at hroom
  have hmap : vmmMap pml4 virt phys flags s =
      (let r₁ := getOrAlloc pml4 (vpageOf virt).p4 (tblFlags flags) s
       let r₂ := getOrAlloc r₁.1 (vpageOf virt).p3 (tblFlags flags) r₁.2
       let r₃ := getOrAlloc r₂.1 (vpageOf virt).p2 (tblFlags flags) r₂.2
       r₃.2.setEntry r₃.1 (vpageOf virt).p1 (leafOf phys flags)) := rfl
  rw [hmap]
  generalize vpageOf virt = v at *
  generalize tblFlags flags = fl at *
  have hwalk₁ : walk childOf s.mem (pageOf pml4) [v.p4] = childOf (s.mem (pageOf pml4) v.p4) := by
    simp only [walk, Option.bind_fun_some]
  have hpre₁ : [v.p4] <+: v.tables := ⟨[v.p3, v.p2], rfl⟩
  have hpre₂ : [v.p4, v.p3] <+: v.tables := ⟨[v.p2], rfl⟩
  have hur : s.pmm.Used (pageOf pml4) := h.used [] _ (List.nil_prefix) rfl
  unfold missing at hroom
  rw [walk_tables, hwalk₁] at hroom
  rcases getOrAlloc_cases (i := v.p4) h.valid hur hlow hpres (fun hnone => by
      rw [if_pos hnone] at hroom
      omega) with ⟨t₁, hc₁, -, he₁⟩ | ⟨t₁, s₁, hc₁, hf₁, he₁, hpmm, hlink, hzero⟩
  · rw [he₁]
    dsimp only
    rw [hc₁] at hwalk₁ hroom
    have hu₁ := h.used [v.p4] t₁ hpre₁ hwalk₁
    have hwalk₂ : walk childOf s.mem (pageOf pml4) [v.p4, v.p3] = childOf (s.mem t₁ v.p3) := by
      simp only [walk, hc₁, Option.bind_some, Option.bind_fun_some]
    rw [hwalk₂, Option.bind_some, if_neg (Option.some_ne_none t₁)] at hroom
    cases hc₂ : childOf (s.mem t₁ v.p3) with
    | none =>
      rw [hc₂] at hroom
      simp only [Option.bind_none, if_true] at hroom
      exact leafEntry_lastTwo _ h.valid hur hu₁ hc₁ hc₂ (by omega) hlow hpres
    | some t₂ =>
      rw [hc₂] at hwalk₂ hroom
      have hu₂ := h.used [v.p4, v.p3] t₂ hpre₂ hwalk₂
      have hpage : pageOf (pageAddr t₁) = t₁ := pageOf_pageAddr hu₁.lt
      have he₂ : getOrAlloc (pageAddr t₁) v.p3 fl s = (pageAddr t₂, s) := by
        rcases getOrAlloc_cases (i := v.p3) h.valid (hpage.symm ▸ hu₁) hlow hpres (fun hnone => by
            rw [hpage, hc₂] at hnone
            exact absurd hnone (Option.some_ne_none t₂)) with ⟨c, hc, -, he⟩ | ⟨g, s', hc, -⟩
        · rw [hpage, hc₂, Option.some_inj] at hc
          rw [he, hc]
        · rw [hpage, hc₂] at hc
          exact absurd hc (Option.some_ne_none t₂)
      rw [he₂]
      dsimp only
      refine leafEntry_last _ h.valid hur hu₁ hu₂ hc₁ hc₂ (fun t₃ hc₃ => ?_) (fun hnone => ?_) hlow
        hpres
      · have hwalk₃ : walk childOf s.mem (pageOf pml4) v.tables = some t₃ := by
          rw [walk_tables, hc₁, Option.bind_some, hc₂, Option.bind_some, hc₃]
        refine ⟨?_, ?_, ?_⟩
        · rintro rfl
          exact h.apart [] _ List.nil_prefix (by simp [VPage.tables]) rfl hwalk₃
        · rintro rfl
          exact h.apart [v.p4] _ hpre₁ (by simp [VPage.tables]) hwalk₁ hwalk₃
        · rintro rfl
          exact h.apart [v.p4, v.p3] _ hpre₂ (by simp [VPage.tables]) hwalk₂ hwalk₃
      · simp only [Option.bind_some, hnone, if_true] at hroom
        omega
  · rw [he₁]
    rw [hc₁] at hroom
    have hkeep := getOrAlloc_keeps pml4 v.p4 fl s
    rw [he₁] at hkeep
    dsimp only at hkeep ⊢
    have hbits := Pmm.clearBits_mark hf₁
    rw [← hpmm] at hbits
    have hu₁ : s₁.pmm.Used t₁ := by
      rw [hpmm]
      exact (Pmm.used_mark hf₁.1).mpr (Or.inr rfl)
    have hwalk₂ : walk childOf s.mem (pageOf pml4) [v.p4, v.p3] = none := by
      simp only [walk, hc₁, Option.bind_none]
    rw [hwalk₂] at hroom
    simp only [Option.bind_none, if_true] at hroom
    exact leafEntry_lastTwo _ (hpmm ▸ h.valid.mark hf₁) (hkeep.used _ hur) hu₁ hlink (hzero v.p3)
      (by omega) hlow hpres

/-! ## The three readers -/

theorem childOf_leafOf_any (phys flags : U64) :
    childOf (leafOf phys flags) = some (pageOf (leafOf phys flags)) := by
  refine childOf_eq_some.mpr ⟨?_, rfl⟩
  unfold leafOf
  dsimp only
  split <;> simp [vmmPresent]

theorem leafOf_low_any (phys flags : U64) :
    leafOf phys flags &&& 0xFFF = (flags &&& 0xFFF) ||| vmmPresent := by
  by_cases hnx : flags &&& vmmNx = 0
  · exact leafOf_low hnx phys
  · have hsplit : leafOf phys flags = (pageMask phys ||| ((flags &&& 0xFFF) ||| vmmPresent)) |||
        vmmNx := by
      unfold leafOf
      rw [if_neg hnx, BitVec.or_assoc (pageMask phys)]
    rw [hsplit, and_or_distrib_right, and_or_distrib_right, pageMask_and_low,
      low_of_lt (low_or_present_lt flags), show vmmNx &&& 0xFFF = 0 from by decide]
    exact (BitVec.or_zero).trans BitVec.zero_or

theorem node_lt {m : Mem} {pml4 : U64} {n f : Nat}
    (h : Node childOf userIdx n m {pageOf pml4} f) : f < 2 ^ 52 := by
  obtain ⟨r, rfl, ρ, -, hw⟩ := h
  induction ρ using List.reverseRecOn with
  | nil =>
    cases hw
    exact pageOf_lt pml4
  | append_singleton σ i _ =>
    rw [walk_concat, Option.bind_eq_some_iff] at hw
    obtain ⟨t, -, hc⟩ := hw
    exact (childOf_eq_some.mp hc).2 ▸ pageOf_lt _

theorem destroy_free_iff {pml4 : U64} (h0 : pml4 ≠ 0) {s : Phys} {x : Nat} (hx : s.pmm.Used x) :
    (vmmDestroyPml4 pml4 s).pmm.Free x ↔ Node childOf userIdx 4 s.mem {pageOf pml4} x := by
  rw [vmmDestroyPml4_eq h0, ← mem_spacePages]
  unfold Pmm.Free
  rw [freeAll_totalPages, bmTest_freeAll fun g hg => node_lt (mem_spacePages.mp hg)]
  simp [hx.1, hx.2]

/-- **`vmm_clone_pml4` decodes the entry** of page `v`: the copy has the contents of frame `phys`
and the permissions of `flags`. -/
structure CloneDecodes (v : VPage) (phys flags : U64) (s : Phys) (clone : U64 × Phys) : Prop where
  copied : clone.2.mem (pageOf (leafEntry clone.2.mem (pageOf clone.1) v)) = s.mem (pageOf phys)
  low : leafEntry clone.2.mem (pageOf clone.1) v &&& 0xFFF = (flags &&& 0xFFF) ||| vmmPresent
  nx : leafEntry clone.2.mem (pageOf clone.1) v &&& vmmNx = 0 ↔ flags &&& vmmNx = 0

/-- An address space that clone and destroy can go through, and a frame to map: its tables are in
order, no page it leads to is free, and neither is the frame. -/
structure SpaceReady (pml4 phys : U64) (s : Phys) : Prop where
  tables : Tables 3 {pageOf pml4} s
  frames : ∀ g, Node childOf userIdx 4 s.mem {pageOf pml4} g → ¬ s.pmm.Free g
  used : s.pmm.Used (pageOf phys)

section

variable {kernelPml4 pml4 virt phys flags : U64} {s : Phys}

theorem SpaceReady.mapped (h : SpaceReady pml4 phys s) (virt flags : U64)
    (hv : (vpageOf virt).User)
    (hroom : missing s.mem (pageOf pml4) (vpageOf virt) ≤ s.pmm.freePages.toNat) :
    ∃ L, Mapped {pageOf pml4} (pageOf pml4) (vpageOf virt) (leafOf phys flags) L s
      (vmmMap pml4 virt phys flags s) := by
  rw [h.tables.valid.counter] at hroom
  exact vmmMap_spec h.tables rfl hv phys flags hroom

/-- The frame an entry leads to is not free: it is `phys`, or it is not managed. -/
theorem SpaceReady.frame_not_free (h : SpaceReady pml4 phys s) (hlow : phys.toNat < 2 ^ 52)
    (flags : U64) : ¬ s.pmm.Free (pageOf (leafOf phys flags)) := by
  by_cases hnx : flags &&& vmmNx = 0
  · rw [(childOf_eq_some.mp (childOf_leafOf hnx phys)).2]
    exact Pmm.not_free_of_used h.used
  · exact (not_managed_of_nx (mt (leafOf_nx hlow flags).mp hnx) s.pmm).1

theorem Pmm.Free.addr_lt {p : Pmm} {g : Nat} (h : p.Free g) : (pageAddr g).toNat < 2 ^ 52 := by
  have htotal := p.total_le
  have hlt := h.1
  unfold bitmapMaxPages at htotal
  rw [pageAddr_toNat h.lt]
  omega

theorem SpaceReady.not_free (h : SpaceReady pml4 phys s) (hlow : phys.toNat < 2 ^ 52) {L : List Nat}
    {s' : Phys} (hm : Mapped {pageOf pml4} (pageOf pml4) (vpageOf virt) (leafOf phys flags) L s s')
    (g : Nat) (hg : Node childOf userIdx 4 s'.mem {pageOf pml4} g) : ¬ s'.pmm.Free g := by
  intro hfree
  have hfree₀ := (hm.takes.free_iff g).mp hfree
  rcases hm.node_four_sub (childOf_leafOf_any phys flags) hg with hg | hL | rfl
  · exact h.frames g hg hfree₀.1
  · exact hfree₀.2 hL
  · exact h.frame_not_free hlow flags hfree₀.1

theorem SpaceReady.clone (h : SpaceReady pml4 phys s) (kernelPml4 virt flags : U64)
    (hlow : phys.toNat < 2 ^ 52) (hv : (vpageOf virt).User)
    (hroom : missing s.mem (pageOf pml4) (vpageOf virt) ≤ s.pmm.freePages.toNat)
    (hcost : cloneCost (mappedPages (vmmMap pml4 virt phys flags s).mem (pageOf pml4)) ≤
      (vmmMap pml4 virt phys flags s).pmm.freePages.toNat) :
    ∃ f g t, vmmClonePml4 kernelPml4 pml4 (vmmMap pml4 virt phys flags s) = (pageAddr f, t) ∧
      f < 2 ^ 52 ∧ s.pmm.Free g ∧
      leafEntry t.mem f (vpageOf virt) = leafOf (pageAddr g) (leafOf phys flags &&& 0xFFF) ∧
      t.mem g = (vmmMap pml4 virt phys flags s).mem (pageOf (leafOf phys flags)) := by
  obtain ⟨L, hm⟩ := h.mapped virt flags hv hroom
  have hroot : pageOf pml4 ∈ ({pageOf pml4} : Set Nat) := rfl
  generalize vmmMap pml4 virt phys flags s = s' at *
  have hleaf : leafEntry s'.mem (pageOf pml4) (vpageOf virt) = leafOf phys flags := by
    rw [hm.leaf _ hroot _ hv, if_pos ⟨rfl, rfl⟩]
  rw [hm.tables.valid.counter] at hcost
  obtain ⟨f, M, t, he, hf, hc⟩ : ∃ f L t, vmmClonePml4 kernelPml4 pml4 s' = (pageAddr f, t) ∧
      s'.pmm.Free f ∧ Cloned kernelPml4 s' (pageOf pml4) f _ L t :=
    vmmClonePml4_spec (fun _ => mem_mappedPages) (h.not_free hlow hm) hm.tables.valid hcost rfl
  have hin : vpageOf virt ∈ mappedPages s'.mem (pageOf pml4) := by
    rw [mem_mappedPages, hleaf, childOf_leafOf_any]
    exact ⟨hv, Option.some_ne_none _⟩
  obtain ⟨g, hl, hg, hcont⟩ := hc.copy _ hin
  rw [hleaf] at hl hcont
  exact ⟨f, g, t, he, hf.lt, ((hm.takes.free_iff g).mp hg).1, hl, hcont⟩

theorem SpaceReady.clone_iff (h : SpaceReady pml4 phys s) (kernelPml4 virt flags : U64)
    (hlow : phys.toNat < 2 ^ 52) (hv : (vpageOf virt).User)
    (hroom : missing s.mem (pageOf pml4) (vpageOf virt) ≤ s.pmm.freePages.toNat)
    (hcost : cloneCost (mappedPages (vmmMap pml4 virt phys flags s).mem (pageOf pml4)) ≤
      (vmmMap pml4 virt phys flags s).pmm.freePages.toNat) :
    CloneDecodes (vpageOf virt) phys flags (vmmMap pml4 virt phys flags s)
      (vmmClonePml4 kernelPml4 pml4 (vmmMap pml4 virt phys flags s)) ↔ flags &&& vmmNx = 0 := by
  obtain ⟨f, g, t, he, hf, hg, hleaf, hcont⟩ := h.clone kernelPml4 virt flags hlow hv hroom hcost
  have hglow : (pageAddr g).toNat < 2 ^ 52 := hg.addr_lt
  have hdst : leafEntry t.mem (pageOf (pageAddr f)) (vpageOf virt) =
      leafOf (pageAddr g) (leafOf phys flags &&& 0xFFF) := by
    rw [pageOf_pageAddr hf, hleaf]
  rw [he]
  constructor
  · intro hd
    have hnx := hd.nx
    dsimp only at hnx
    rw [hdst] at hnx
    exact hnx.mp ((leafOf_nx hglow _).mpr (low_and_nx _))
  · intro hnx
    refine ⟨?_, ?_, ?_⟩
    · dsimp only
      rw [hdst, (childOf_eq_some.mp (childOf_leafOf (low_and_nx _) _)).2, pageOf_pageAddr hg.lt,
        hcont, (childOf_eq_some.mp (childOf_leafOf hnx phys)).2]
    · dsimp only
      rw [hdst, leafOf_low_any, leafOf_low_any, low_of_lt (low_or_present_lt flags),
        BitVec.or_assoc, BitVec.or_self]
    · dsimp only
      rw [hdst]
      exact iff_of_true ((leafOf_nx hglow _).mpr (low_and_nx _)) hnx

theorem SpaceReady.ne_zero (h : SpaceReady pml4 phys s) : pml4 ≠ 0 := by
  rintro rfl
  exact h.tables.nonzero _ (Node.root rfl) rfl

theorem SpaceReady.destroy_frees (h : SpaceReady pml4 phys s) (hv : (vpageOf virt).User)
    (hroom : missing s.mem (pageOf pml4) (vpageOf virt) ≤ s.pmm.freePages.toNat)
    (hnx : flags &&& vmmNx = 0) :
    (vmmDestroyPml4 pml4 (vmmMap pml4 virt phys flags s)).pmm.Free (pageOf phys) := by
  obtain ⟨L, hm⟩ := h.mapped virt flags hv hroom
  rw [destroy_free_iff h.ne_zero (hm.takes.used_mono h.used)]
  refine node_four.mpr (Or.inr ⟨_, rfl, vpageOf virt, hv, ?_⟩)
  rw [hm.leaf _ rfl _ hv, if_pos ⟨rfl, rfl⟩, childOf_leafOf hnx]

/-- With it the frame is freed only if it is a page of the address space otherwise. -/
theorem SpaceReady.destroy_misses (h : SpaceReady pml4 phys s) (virt flags : U64)
    (hlow : phys.toNat < 2 ^ 52) (hv : (vpageOf virt).User)
    (hroom : missing s.mem (pageOf pml4) (vpageOf virt) ≤ s.pmm.freePages.toNat)
    (hnx : ¬ flags &&& vmmNx = 0)
    (hnew : ¬ Node childOf userIdx 4 s.mem {pageOf pml4} (pageOf phys)) :
    ¬ (vmmDestroyPml4 pml4 (vmmMap pml4 virt phys flags s)).pmm.Free (pageOf phys) := by
  obtain ⟨L, hm⟩ := h.mapped virt flags hv hroom
  rw [destroy_free_iff h.ne_zero (hm.takes.used_mono h.used)]
  intro hnode
  rcases hm.node_four_sub (childOf_leafOf_any phys flags) hnode with hnode | hL | he
  · exact hnew hnode
  · exact Pmm.not_free_of_used h.used (hm.takes.free_of_mem _ hL)
  · have hno := (not_managed_of_nx (mt (leafOf_nx hlow flags).mp hnx) s.pmm).2
    rw [← he] at hno
    exact hno h.used

/-- **The readers of page tables decode what `vmm_map` encodes** exactly if the flags do not have
`VMM_NX`: `vmm_get_phys` for every page, `vmm_clone_pml4` and `vmm_destroy_pml4` for the pages of
the user half, the only ones they look at. -/
theorem readers_decode_iff (kernelPml4 virt phys flags : U64) (hdvd : 4096 ∣ phys.toNat)
    (hlow : phys.toNat < 2 ^ 52) (hpath : PathReady pml4 (vpageOf virt) s) :
    let s' := vmmMap pml4 virt phys flags s
    (vmmGetPhys pml4 virt s' = phys ↔ flags &&& vmmNx = 0) ∧
    ((vpageOf virt).User → SpaceReady pml4 phys s →
      (cloneCost (mappedPages s'.mem (pageOf pml4)) ≤ s'.pmm.freePages.toNat →
        (CloneDecodes (vpageOf virt) phys flags s' (vmmClonePml4 kernelPml4 pml4 s') ↔
          flags &&& vmmNx = 0)) ∧
      (flags &&& vmmNx = 0 → (vmmDestroyPml4 pml4 s').pmm.Free (pageOf phys)) ∧
      (¬ Node childOf userIdx 4 s.mem {pageOf pml4} (pageOf phys) →
        (vmmDestroyPml4 pml4 s').pmm.Free (pageOf phys) → flags &&& vmmNx = 0)) := by
  refine ⟨?_, fun hv h => ⟨h.clone_iff kernelPml4 virt flags hlow hv hpath.room,
    fun hnx => h.destroy_frees hv hpath.room hnx, fun hnew hfree => ?_⟩⟩
  · rw [vmmGetPhys_eq, vmmMap_leaf hpath, pageMask_leafOf_iff hdvd hlow]
  · by_contra hnx
    exact h.destroy_misses virt flags hlow hv hpath.room hnx hnew hfree

/-- A new PML4 with nothing mapped, and a frame from the allocator. -/
structure Fresh (pml4 phys : U64) (s : Phys) : Prop extends SpaceReady pml4 phys s where
  empty : MapInv pml4 s fun _ => none
  new : ¬ Node childOf userIdx 4 s.mem {pageOf pml4} (pageOf phys)

theorem fresh_alloc {s₀ : Phys} (hv : s₀.pmm.Valid) (hpml4 : (vmmNewPml4 kernelPml4 s₀).1 = pml4)
    (hne : pml4 ≠ 0) (hphys : (vmmNewPml4 kernelPml4 s₀).2.alloc.1 = phys) (hp0 : phys ≠ 0) :
    Fresh pml4 phys (vmmNewPml4 kernelPml4 s₀).2.alloc.2 := by
  have hinv : MapInv pml4 (vmmNewPml4 kernelPml4 s₀).2 fun _ => none := by
    have h := MapInv.newPml4 hv (hpml4 ▸ hne)
    rwa [hpml4] at h
  generalize (vmmNewPml4 kernelPml4 s₀).2 = s at *
  have hempty : MapInv pml4 s.alloc.2 fun _ => none := mapInv_step hinv (MapStep.alloc s _)
  rcases Phys.alloc_cases hinv.tables.valid with ⟨-, he⟩ | ⟨g, hg, -, -, he⟩
  · rw [he] at hphys
    exact absurd hphys.symm hp0
  rw [he] at hphys hempty ⊢
  dsimp only at hphys hempty ⊢
  subst hphys
  have hleaf (x : Nat) (hx : Node childOf userIdx 4 s.mem {pageOf pml4} x) :
      Node childOf userIdx 3 s.mem {pageOf pml4} x := by
    rcases node_four.mp hx with hx | ⟨r, rfl, v, hu, hx⟩
    · exact hx
    · rw [hinv.leaf v hu, refEntry, childOf_zero] at hx
      exact absurd hx.symm (Option.some_ne_none x)
  have hused (x : Nat) (hx : Node childOf userIdx 4 s.mem {pageOf pml4} x) : s.pmm.Used x :=
    hinv.tables.used x (hleaf x hx)
  refine ⟨⟨hempty.tables, fun x hx => ?_, ?_⟩, hempty, fun hx => ?_⟩
  · exact Pmm.not_free_of_used ((Pmm.used_mark hg.1).mpr (Or.inl (hused x hx)))
  · rw [pageOf_pageAddr hg.lt]
    exact (Pmm.used_mark hg.1).mpr (Or.inr rfl)
  · rw [pageOf_pageAddr hg.lt] at hx
    exact Pmm.not_free_of_used (hused g hx) hg

theorem Fresh.mappedPages_map (h : Fresh pml4 phys s) (virt flags : U64) (hv : (vpageOf virt).User)
    (hroom : missing s.mem (pageOf pml4) (vpageOf virt) ≤ s.pmm.freePages.toNat) :
    mappedPages (vmmMap pml4 virt phys flags s).mem (pageOf pml4) = {vpageOf virt} := by
  obtain ⟨L, hm⟩ := h.mapped virt flags hv hroom
  ext v
  rw [mem_mappedPages, Finset.mem_singleton]
  constructor
  · rintro ⟨hu, hne⟩
    by_contra hvne
    refine hne ?_
    rw [hm.leaf _ rfl v hu, if_neg fun hx => hvne hx.2, h.empty.leaf v hu, refEntry, childOf_zero]
  · rintro rfl
    refine ⟨hv, ?_⟩
    rw [hm.leaf _ rfl _ hv, if_pos ⟨rfl, rfl⟩, childOf_leafOf_any]
    exact Option.some_ne_none _

/-- A new PML4 in page 2, and page 3 to be mapped. -/
def toMap : Phys := (vmmNewPml4 0x1000 sixteenPages).2.alloc.2

theorem toMap_fresh : Fresh 0x2000 0x3000 toMap :=
  fresh_alloc sixteenPages_valid (by decide) (by decide) (by decide +kernel) (by decide)

/-- Page 3 mapped at 0x400000 and found again. -/
theorem readers_decode_oneMapped : vmmGetPhys 0x2000 0x400000 oneMapped = 0x3000 ∧
    (vmmDestroyPml4 0x2000 oneMapped).pmm.Free 3 := by
  have hpath : PathReady 0x2000 (vpageOf 0x400000) toMap :=
    toMap_fresh.tables.pathReady (by decide) (by decide +kernel)
  obtain ⟨hget, hrest⟩ := readers_decode_iff 0x1000 0x400000 0x3000 7 (by decide)
    (by decide) hpath
  exact ⟨hget.mpr (by decide), (hrest (by decide) toMap_fresh.toSpaceReady).2.1 (by decide)⟩

/-- Page 3 mapped with `VMM_NX`. -/
def nxMapped : Phys := vmmMap 0x2000 0x400000 0x3000 (vmmNx ||| 7) toMap

/-- **Mapped with `VMM_NX`.** `vmm_get_phys` returns another address, the clone does not have the
page with these permissions, and the frame stays in use when the address space is destroyed. -/
theorem nx_mapping_lost :
    vmmGetPhys 0x2000 0x400000 nxMapped = 0x8000000000003000 ∧
      ¬ CloneDecodes (vpageOf 0x400000) 0x3000 (vmmNx ||| 7) nxMapped
        (vmmClonePml4 0x1000 0x2000 nxMapped) ∧
      ¬ (vmmDestroyPml4 0x2000 nxMapped).pmm.Free 3 := by
  have hv : (vpageOf 0x400000).User := by decide
  have hroom : missing toMap.mem (pageOf 0x2000) (vpageOf 0x400000) ≤
      toMap.pmm.freePages.toNat := by decide +kernel
  have hpages : mappedPages nxMapped.mem (pageOf 0x2000) = {vpageOf 0x400000} :=
    toMap_fresh.mappedPages_map 0x400000 (vmmNx ||| 7) hv hroom
  have hcost : cloneCost (mappedPages nxMapped.mem (pageOf 0x2000)) ≤
      nxMapped.pmm.freePages.toNat := by
    rw [hpages]
    decide +kernel
  have hlow : (0x3000 : U64).toNat < 2 ^ 52 := by decide
  have hnx : ¬ (vmmNx ||| 7) &&& vmmNx = 0 := by decide
  unfold nxMapped at *
  exact ⟨by decide +kernel, mt (toMap_fresh.clone_iff 0x1000 _ _ hlow hv hroom hcost).mp hnx,
    toMap_fresh.destroy_misses _ _ hlow hv hroom hnx toMap_fresh.new⟩

end

end Sinux.Mm

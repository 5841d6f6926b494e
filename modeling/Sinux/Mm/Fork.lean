import Sinux.Mm.Clone
import Sinux.Mm.Destroy
import Sinux.Mm.FiniteMap

/-!
# The deep copy of `fork`

The source is a PML4 from `vmm_new_pml4` after any run of `vmm_map` and `vmm_unmap` on it
(`MapReach`). Its mapped frames belong to somebody, so none of them is free; the kernel's PML4 is
not free either. `cloneCost` counts the pages the copy needs, and the allocator has them.

* `vmm_clone_deep_copy`: the clone maps the same pages with the same flags to fresh frames with the
  same contents, and the source is untouched.
* `vmm_clone_destroy`: destroying the clone gives back exactly the pages it took.
-/

namespace Sinux.Mm

open Function Sinux.Lib Sinux.Lib.Radix

theorem MapInv.mem_mappedPages {pml4 : U64} {s : Phys} {ref : RefMap} (h : MapInv pml4 s ref)
    {v : VPage} : v ∈ mappedPages s.mem (pageOf pml4) ↔ v.User ∧ ref v ≠ none := by
  rw [Sinux.Mm.mem_mappedPages]
  refine and_congr_right fun hv => ?_
  rw [h.leaf v hv]
  cases href : ref v with
  | none => exact iff_of_false (fun hx => hx childOf_zero) fun hx => hx rfl
  | some x =>
    obtain ⟨phys, flags⟩ := x
    rw [show refEntry (some (phys, flags)) = leafOf phys flags from rfl,
      childOf_leafOf (h.aligned v phys flags href).2]
    simp

/-- What the copy relies on: the source was built by `vmm_map` and `vmm_unmap`, nobody freed the
frames mapped in it, and there is room. -/
structure Forkable (kernelPml4 src : U64) (s : Phys) (ref : RefMap) : Prop where
  built : MapReach kernelPml4 src (s, ref)
  frames : ∀ v phys flags, v.User → ref v = some (phys, flags) → ¬ s.pmm.Free (pageOf phys)
  room : cloneCost (mappedPages s.mem (pageOf src)) ≤ s.pmm.freePages.toNat

section

variable {kernelPml4 src : U64} {s : Phys} {ref : RefMap}

theorem Forkable.not_free (h : Forkable kernelPml4 src s ref) {g : Nat}
    (hg : Node childOf userIdx 4 s.mem {pageOf src} g) : ¬ s.pmm.Free g := by
  have inv : MapInv src s ref := mapInv_of_reach h.built
  rcases node_four.mp hg with hg | ⟨r, rfl, v, hv, hx⟩
  · exact Pmm.not_free_of_used (inv.tables.used g hg)
  · rw [inv.leaf v hv] at hx
    cases href : ref v with
    | none =>
      rw [href, show refEntry none = 0 from rfl, childOf_zero] at hx
      exact absurd hx (by simp)
    | some x =>
      obtain ⟨phys, flags⟩ := x
      rw [href] at hx
      rw [show refEntry (some (phys, flags)) = leafOf phys flags from rfl,
        childOf_leafOf (inv.aligned v phys flags href).2] at hx
      exact (Option.some.inj hx) ▸ h.frames v phys flags hv href

theorem Forkable.clone (h : Forkable kernelPml4 src s ref) :
    ∃ f L t, vmmClonePml4 kernelPml4 src s = (pageAddr f, t) ∧ s.pmm.Free f ∧
      Cloned kernelPml4 s (pageOf src) f (mappedPages s.mem (pageOf src)) L t := by
  have inv : MapInv src s ref := mapInv_of_reach h.built
  have hroom := h.room
  rw [inv.tables.valid.counter] at hroom
  exact vmmClonePml4_spec (fun _ => mem_mappedPages) (fun g hg => h.not_free hg) inv.tables.valid
    hroom rfl

end

theorem low_or_present {e : U64} (h : e &&& vmmPresent ≠ 0) :
    (e &&& 0xFFF) ||| vmmPresent = e &&& 0xFFF := by
  rw [Ne, and_present_eq_zero, Bool.not_eq_false] at h
  apply BitVec.eq_of_getLsbD_eq
  intro i _
  rw [BitVec.getLsbD_or, BitVec.getLsbD_and]
  by_cases hi : i = 0
  · rw [hi, h]
    rfl
  · rw [show vmmPresent.getLsbD i = false by
      rw [show vmmPresent = 1#64 from rfl, BitVec.getLsbD_one]
      simp [hi], Bool.or_false]

/-- `dst` in `s'` is a deep copy of the user half of `src` in `s`. -/
structure DeepCopy (kernelPml4 src dst : U64) (s s' : Phys) : Prop where
  nonnull : dst ≠ 0
  /-- The same pages are mapped. -/
  mapped : ∀ v : VPage, v.User → (leafEntry s'.mem (pageOf dst) v &&& vmmPresent = 0 ↔
    leafEntry s.mem (pageOf src) v &&& vmmPresent = 0)
  /-- With the same low flags. -/
  flags : ∀ v : VPage, v.User → leafEntry s.mem (pageOf src) v &&& vmmPresent ≠ 0 →
    leafEntry s'.mem (pageOf dst) v &&& 0xFFF = leafEntry s.mem (pageOf src) v &&& 0xFFF
  /-- Every page of the copy, tables and frames, was free before and is used now. -/
  fresh : ∀ g, Node childOf userIdx 4 s'.mem {pageOf dst} g → s.pmm.Free g ∧ s'.pmm.Used g
  /-- No page of the copy is a table or a frame of the source. -/
  apart : ∀ g, Node childOf userIdx 4 s'.mem {pageOf dst} g →
    ¬ Node childOf userIdx 4 s.mem {pageOf src} g
  /-- The pages of the copy are pairwise different. -/
  distinct : Forest childOf userIdx 4 s'.mem {pageOf dst}
  /-- A frame of the copy holds what the frame of the source holds. -/
  contents : ∀ v : VPage, v.User → leafEntry s.mem (pageOf src) v &&& vmmPresent ≠ 0 →
    s'.mem (pageOf (leafEntry s'.mem (pageOf dst) v)) =
      s.mem (pageOf (leafEntry s.mem (pageOf src) v))
  /-- Entries 256 to 511 are the kernel's. -/
  kernelHalf : ∀ i : Fin 512, 256 ≤ i.val → s'.mem (pageOf dst) i = s.mem (pageOf kernelPml4) i
  /-- The source is untouched. -/
  source : ∀ g, Node childOf userIdx 4 s.mem {pageOf src} g → s'.mem g = s.mem g

theorem Cloned.deepCopy {kernelPml4 src : U64} {s t : Phys} {f : Nat} {L : List Nat}
    (hc : Cloned kernelPml4 s (pageOf src) f (mappedPages s.mem (pageOf src)) L t)
    (hv : s.pmm.Valid) (hf : s.pmm.Free f)
    (hsrc : ∀ g, Node childOf userIdx 4 s.mem {pageOf src} g → ¬ s.pmm.Free g)
    (hk : kernelPml4 ≠ 0) (hkfree : ¬ s.pmm.Free (pageOf kernelPml4)) :
    DeepCopy kernelPml4 src (pageAddr f) s t := by
  have hpf : pageOf (pageAddr f) = f := pageOf_pageAddr hf.lt
  have hLfree := hc.takes.free_of_mem
  have hmapped : ∀ v : VPage, v.User → leafEntry s.mem (pageOf src) v &&& vmmPresent ≠ 0 →
      v ∈ mappedPages s.mem (pageOf src) := by
    intro v hv hp
    rw [mem_mappedPages, Ne, childOf_eq_none, ← and_present_eq_zero]
    exact ⟨hv, hp⟩
  have hcopy : ∀ v : VPage, v.User → leafEntry s.mem (pageOf src) v &&& vmmPresent ≠ 0 →
      ∃ g, leafEntry t.mem f v = leafOf (pageAddr g) (leafEntry s.mem (pageOf src) v &&& 0xFFF) ∧
        s.pmm.Free g ∧ t.mem g = s.mem (pageOf (leafEntry s.mem (pageOf src) v)) :=
    fun v hv hp => hc.copy v (hmapped v hv hp)
  refine ⟨?_, fun v hv => ?_, fun v hv hp => ?_, fun g hg => ?_, fun g hg hg' => ?_, ?_,
    fun v hv hp => ?_, fun i hi => ?_, fun g hg => ?_⟩
  · exact fun h0 => hv.free_ne_zero hf ((pageAddr_eq_zero hf.lt).mp h0)
  · rw [hpf]
    constructor
    · intro h0
      by_contra hp
      obtain ⟨g, hl, -, -⟩ := hcopy v hv hp
      rw [and_present_eq_zero, ← childOf_eq_none, hl, childOf_leafOf (low_and_nx _)] at h0
      exact absurd h0 (by simp)
    · intro h0
      rw [hc.empty v hv fun hm => (mem_mappedPages.mp hm).2
        (childOf_eq_none.mpr ((and_present_eq_zero _).mp h0))]
      exact BitVec.zero_and
  · obtain ⟨g, hl, -, -⟩ := hcopy v hv hp
    rw [hpf, hl, leafOf_low (low_and_nx _), low_of_lt (low_lt _), low_or_present hp]
  · rw [hpf, hc.node] at hg
    exact ⟨hLfree g hg, hc.takes.used_of_mem g hg⟩
  · rw [hpf, hc.node] at hg
    exact hsrc g hg' (hLfree g hg)
  · rw [hpf]
    exact hc.tables.forest
  · obtain ⟨g, hl, hg, hcont⟩ := hcopy v hv hp
    have hpg := (childOf_eq_some.mp (childOf_leafOf
      (low_and_nx (leafEntry s.mem (pageOf src) v)) (pageAddr g))).2
    rw [pageOf_pageAddr hg.lt] at hpg
    rw [hpf, hl, hpg, hcont]
  · rw [hpf, hc.kernelHalf i (Nat.not_lt.mpr hi)]
    unfold freshPml4
    rw [if_neg fun hx => hx.elim (Nat.not_lt.mpr hi) hk, update_of_ne]
    rintro rfl
    exact hkfree hf
  · exact hc.mem g fun hg' => hsrc g hg (hLfree g hg')

/-- **`vmm_clone_pml4` is a deep copy.** -/
theorem vmm_clone_deep_copy {kernelPml4 src : U64} {s : Phys} {ref : RefMap}
    (h : Forkable kernelPml4 src s ref) (hk : kernelPml4 ≠ 0)
    (hkfree : ¬ s.pmm.Free (pageOf kernelPml4)) :
    DeepCopy kernelPml4 src (vmmClonePml4 kernelPml4 src s).1 s
      (vmmClonePml4 kernelPml4 src s).2 := by
  obtain ⟨f, L, t, he, hf, hc⟩ := h.clone
  rw [he]
  exact hc.deepCopy (mapInv_of_reach h.built).tables.valid hf (fun g hg => h.not_free hg) hk hkfree

theorem Cloned.destroy {kernelPml4 : U64} {s t : Phys} {src f : Nat} {D : Finset VPage}
    {L : List Nat} (hc : Cloned kernelPml4 s src f D L t) (hf : s.pmm.Free f) :
    (spacePages t.mem f).Nodup ∧ (spacePages t.mem f).Perm L ∧
      vmmDestroyPml4 (pageAddr f) t = t.freeAll (spacePages t.mem f) := by
  have hpf : pageOf (pageAddr f) = f := pageOf_pageAddr hf.lt
  obtain ⟨hnd, -, hd, -⟩ := hc.tables.destroy
    (show pageOf (pageAddr f) ∈ ({f} : Set Nat) by rw [hpf]; rfl)
  rw [hpf] at hnd hd
  exact ⟨hnd, (List.perm_ext_iff_of_nodup hnd hc.takes.nodup).mpr fun g => by
    rw [mem_spacePages, hc.node], hd⟩

/-- **A clone that is destroyed leaves nothing behind.** The pages freed are the pages the clone
took, each once; the allocator is as before, and the source is untouched. -/
theorem vmm_clone_destroy {kernelPml4 src : U64} {s : Phys} {ref : RefMap}
    (h : Forkable kernelPml4 src s ref) :
    (vmmDestroyPml4 (vmmClonePml4 kernelPml4 src s).1 (vmmClonePml4 kernelPml4 src s).2).pmm =
        s.pmm ∧
      (∃ taken freed, s.pmm.Takes taken (vmmClonePml4 kernelPml4 src s).2.pmm ∧
        vmmDestroyPml4 (vmmClonePml4 kernelPml4 src s).1 (vmmClonePml4 kernelPml4 src s).2 =
          (vmmClonePml4 kernelPml4 src s).2.freeAll freed ∧
        freed.Perm taken ∧ freed.Nodup) ∧
      ∀ g, Node childOf userIdx 4 s.mem {pageOf src} g →
        (vmmDestroyPml4 (vmmClonePml4 kernelPml4 src s).1
          (vmmClonePml4 kernelPml4 src s).2).mem g = s.mem g := by
  obtain ⟨f, L, t, he, hf, hc⟩ := h.clone
  have inv : MapInv src s ref := mapInv_of_reach h.built
  rw [he]
  obtain ⟨hnd, hperm, hd⟩ := hc.destroy hf
  simp only [hd]
  refine ⟨?_, ⟨L, spacePages t.mem f, hc.takes, rfl, hperm, hnd⟩, fun g hg => ?_⟩
  · exact freeAll_of_takes inv.tables.valid hc.takes hnd fun g => hperm.mem_iff
  · rw [Phys.freeAll_mem]
    exact hc.mem g fun hg' => h.not_free hg (hc.takes.free_of_mem g hg')

/-- A new PML4 with a frame mapped at 0x400000. -/
def oneMapped : Phys :=
  vmmMap 0x2000 0x400000 0x3000 7 (vmmNewPml4 0x1000 sixteenPages).2.alloc.2

/-- What it maps. -/
def oneRef : RefMap := update (fun _ => none) (vpageOf 0x400000) (some (0x3000, 7))

theorem oneMapped_reach : MapReach 0x1000 0x2000 (oneMapped, oneRef) := by
  refine ⟨sixteenPages, sixteenPages_valid, by decide, by decide, ?_⟩
  refine (Relation.ReflTransGen.single (MapStep.alloc _ _)).tail
    (MapStep.map _ _ 0x400000 0x3000 7 (by decide) (by decide) (by decide) ?_)
  decide +kernel

theorem oneRef_ne_none {v : VPage} : v.User ∧ oneRef v ≠ none ↔ v = vpageOf 0x400000 := by
  unfold oneRef
  constructor
  · rintro ⟨-, h⟩
    by_contra hv
    rw [update_of_ne hv] at h
    exact h rfl
  · rintro rfl
    rw [update_self]
    exact ⟨by decide, by simp⟩

theorem oneMapped_mapped : mappedPages oneMapped.mem (pageOf 0x2000) = {vpageOf 0x400000} := by
  ext v
  rw [(mapInv_of_reach oneMapped_reach).mem_mappedPages, Finset.mem_singleton]
  exact oneRef_ne_none

theorem oneMapped_forkable : Forkable 0x1000 0x2000 oneMapped oneRef := by
  refine ⟨oneMapped_reach, fun v phys flags hv href => ?_, ?_⟩
  · obtain rfl := oneRef_ne_none.mp ⟨hv, by rw [href]; simp⟩
    rw [oneRef, update_self] at href
    cases href
    decide +kernel
  · rw [oneMapped_mapped]
    decide +kernel

/-- Cloning an address space with one mapped page. -/
theorem vmm_clone_deep_copy_oneMapped :
    DeepCopy 0x1000 0x2000 (vmmClonePml4 0x1000 0x2000 oneMapped).1 oneMapped
      (vmmClonePml4 0x1000 0x2000 oneMapped).2 :=
  vmm_clone_deep_copy oneMapped_forkable (by decide) (by decide +kernel)

/-- Cloning it and destroying the clone. -/
theorem vmm_clone_destroy_oneMapped :
    (vmmDestroyPml4 (vmmClonePml4 0x1000 0x2000 oneMapped).1
      (vmmClonePml4 0x1000 0x2000 oneMapped).2).pmm = oneMapped.pmm :=
  (vmm_clone_destroy oneMapped_forkable).1

end Sinux.Mm

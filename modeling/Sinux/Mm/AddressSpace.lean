import Sinux.Mm.Clone
import Sinux.Mm.Destroy

/-!
# Isolation of address spaces

Any number of address spaces are created, filled, cloned and destroyed in any order. The state is
physical memory with its allocator and the set of live PML4s. The rest of the kernel takes pages,
frees pages that no address space reaches, and writes anything but page tables; so do the
processes, which write their own frames. Every allocation of a step succeeds: the step says how many
pages it needs.

* `spaces_isolated`: in every reachable state each page that is reachable through the user half of a
  live PML4 is marked used and is reached from one live PML4 by one path.
-/

namespace Sinux.Mm

open Sinux.Lib Sinux.Lib.Radix

/-- Physical memory and the frames of the live PML4s. -/
structure SpaceSys where
  phys : Phys
  live : Set Nat

/-- Page `f` is reachable through the user half of a live PML4: it is a PML4, one of its tables or
one of its mapped frames. -/
def SpaceSys.Reaches (s : SpaceSys) (f : Nat) : Prop := Node childOf userIdx 4 s.phys.mem s.live f

/-- Page `f` is a live PML4 or a page table under one. -/
def SpaceSys.IsTable (s : SpaceSys) (f : Nat) : Prop := Node childOf userIdx 3 s.phys.mem s.live f

/-- The steps of the kernel. -/
inductive SpaceStep (kernelPml4 : U64) : SpaceSys → SpaceSys → Prop
  | new (s : SpaceSys) (hok : (vmmNewPml4 kernelPml4 s.phys).1 ≠ 0) :
      SpaceStep kernelPml4 s ⟨(vmmNewPml4 kernelPml4 s.phys).2,
        insert (pageOf (vmmNewPml4 kernelPml4 s.phys).1) s.live⟩
  | map (s : SpaceSys) (pml4 virt flags : U64) (hp : pageOf pml4 ∈ s.live)
      (hv : (vpageOf virt).User) (hnx : flags &&& vmmNx = 0)
      (hroom : missing s.phys.mem (pageOf pml4) (vpageOf virt) + 1 ≤ s.phys.pmm.freePages.toNat) :
      SpaceStep kernelPml4 s ⟨vmmMap pml4 virt s.phys.alloc.1 flags s.phys.alloc.2, s.live⟩
  | unmap (s : SpaceSys) (pml4 virt : U64) (hp : pageOf pml4 ∈ s.live) (hv : (vpageOf virt).User) :
      SpaceStep kernelPml4 s ⟨vmmUnmap pml4 virt s.phys, s.live⟩
  | clone (s : SpaceSys) (src : U64) (hp : pageOf src ∈ s.live)
      (hroom : cloneCost (mappedPages s.phys.mem (pageOf src)) ≤ s.phys.pmm.freePages.toNat) :
      SpaceStep kernelPml4 s ⟨(vmmClonePml4 kernelPml4 src s.phys).2,
        insert (pageOf (vmmClonePml4 kernelPml4 src s.phys).1) s.live⟩
  | destroy (s : SpaceSys) (pml4 : U64) (hp : pageOf pml4 ∈ s.live) :
      SpaceStep kernelPml4 s ⟨vmmDestroyPml4 pml4 s.phys, s.live \ {pageOf pml4}⟩
  | alloc (s : SpaceSys) : SpaceStep kernelPml4 s ⟨s.phys.alloc.2, s.live⟩
  | free (s : SpaceSys) (page : U64) (h0 : pageOf page ≠ 0) (hp : ¬ s.Reaches (pageOf page)) :
      SpaceStep kernelPml4 s ⟨s.phys.free page, s.live⟩
  | write (s : SpaceSys) (f : Nat) (i : Fin 512) (w : U64) (hf : ¬ s.IsTable f) :
      SpaceStep kernelPml4 s ⟨{ s.phys with mem := store s.phys.mem f i w }, s.live⟩

/-- The states of the runs that start with a valid allocator and no address space. -/
def SpaceReach (kernelPml4 : U64) (s₀ : Phys) : SpaceSys → Prop :=
  Relation.ReflTransGen (SpaceStep kernelPml4) ⟨s₀, ∅⟩

theorem Cloned.union {kernelPml4 : U64} {s t : Phys} {src f : Nat} {D : Finset VPage}
    {L : List Nat} (h : Cloned kernelPml4 s src f D L t) {roots : Set Nat} (hr : Tables 4 roots s) :
    Tables 4 (insert f roots) t := by
  have hL : ∀ g, Node childOf userIdx 4 s.mem roots g → g ∉ L := fun g hg =>
    h.not_mem_of_not_free (Pmm.not_free_of_used (hr.used g hg))
  have hm : ∀ g, Node childOf userIdx 4 s.mem roots g → t.mem g = s.mem g := fun g hg =>
    h.mem g (hL g hg)
  have hold : Tables 4 roots t := hr.frame (Nat.le_succ 4) h.tables.valid hm fun g hg =>
    h.takes.used_mono (hr.used g hg)
  have hdisj : ∀ g, Node childOf userIdx 4 t.mem {f} g → ¬ Node childOf userIdx 4 t.mem roots g :=
    fun g hg hg' => hL g ((Node.congr hm (Nat.le_succ 4)).mp hg') ((h.node g).mp hg)
  rw [Set.insert_eq]
  exact h.tables.union hold hdisj

/-- **Every step keeps the forest of address spaces.** -/
theorem tables_step {kernelPml4 : U64} {s s' : SpaceSys} (h : Tables 4 s.live s.phys)
    (hst : SpaceStep kernelPml4 s s') : Tables 4 s'.live s'.phys := by
  cases hst with
  | new hok =>
    rcases vmmNewPml4_cases h.valid kernelPml4 with ⟨-, he⟩ | ⟨f, hf, -, he⟩
    · rw [he] at hok
      exact absurd rfl hok
    · simp only [he, pageOf_pageAddr hf.lt]
      exact (h.newRoot hf kernelPml4).1
  | map pml4 virt flags hp hv hnx hroom =>
    rw [h.valid.counter] at hroom
    obtain ⟨g₀, hg₀⟩ := exists_free_of_clearBits_pos (s := s.phys.pmm) (by omega)
    rcases Phys.alloc_cases h.valid with ⟨hnone, -⟩ | ⟨g, hg, -, -, he⟩
    · exact absurd hg₀ (hnone g₀)
    · -- the frame keeps the contents it has
      obtain ⟨M, hm⟩ := vmmMap_frame h hp hv hnx hg (s.phys.mem g) hroom
      rw [Function.update_eq_self] at hm
      simp only [he]
      exact hm.tables
  | unmap pml4 virt hp hv =>
    exact h.unmap (vmmUnmap_spec (tables_four.mp h).1 hp hv)
  | clone src hp hroom =>
    rw [h.valid.counter] at hroom
    have hsrc : ∀ g, Node childOf userIdx 4 s.phys.mem {pageOf src} g → ¬ s.phys.pmm.Free g :=
      fun g hg => Pmm.not_free_of_used ((h.root hp).used g hg)
    obtain ⟨f, L, t, he, hf, hc⟩ : ∃ f L t, vmmClonePml4 kernelPml4 src s.phys = (pageAddr f, t) ∧
        s.phys.pmm.Free f ∧ Cloned kernelPml4 s.phys (pageOf src) f _ L t :=
      vmmClonePml4_spec (fun _ => mem_mappedPages) hsrc h.valid hroom rfl
    simp only [he, pageOf_pageAddr hf.lt]
    exact hc.union h
  | destroy pml4 hp => exact (h.destroy hp).2.2.2
  | alloc =>
    rcases Phys.alloc_cases h.valid with ⟨-, he⟩ | ⟨g, hg, -, -, he⟩
    · simp only [he]
      exact h
    · simp only [he]
      exact h.frame (Nat.le_succ 4) (h.valid.mark hg) (fun _ _ => rfl)
        fun f hf => (Pmm.used_mark hg.1).mpr (Or.inl (h.used f hf))
  | free page h0 hp =>
    by_cases hu : s.phys.pmm.Used (pageOf page)
    · refine h.frame (Nat.le_succ 4) ?_ (fun _ _ => rfl) fun f hf => ?_
      · rw [Phys.free_pmm, pmmFree_used hu]
        exact h.valid.release hu h0
      · rw [Phys.free_pmm, pmmFree_used hu]
        exact Pmm.used_release.mpr ⟨h.used f hf, fun hx => hp (hx ▸ hf)⟩
    · refine h.frame (Nat.le_succ 4) ?_ (fun _ _ => rfl) fun f hf => ?_
      · rw [Phys.free_pmm, pmmFree_not_used hu]
        exact h.valid
      · rw [Phys.free_pmm, pmmFree_not_used hu]
        exact h.used f hf
  | write f i w hf =>
    -- only tables are read on the way to a frame
    exact h.frame (le_refl 4) h.valid
      (fun g hg => store_table fun hx => hf (hx ▸ hg)) h.used

theorem tables_of_reach {kernelPml4 : U64} {s₀ : Phys} (hv : s₀.pmm.Valid) {s : SpaceSys}
    (hr : SpaceReach kernelPml4 s₀ s) : Tables 4 s.live s.phys := by
  induction hr with
  | refl => exact tables_empty hv
  | tail _ hst ih => exact tables_step ih hst

/-- **Address spaces are isolated.** In every reachable state a page reachable through the user half
of a live PML4 is marked used, and exactly one live PML4 and one path lead to it. -/
theorem spaces_isolated {kernelPml4 : U64} {s₀ : Phys} (hv : s₀.pmm.Valid) {s : SpaceSys}
    (hr : SpaceReach kernelPml4 s₀ s) (f : Nat) (hf : s.Reaches f) :
    s.phys.pmm.Used f ∧
      ∃! x : Nat × List (Fin 512), x.1 ∈ s.live ∧ Path userIdx 4 x.2 ∧
        walk childOf s.phys.mem x.1 x.2 = some f := by
  have h := tables_of_reach hv hr
  obtain ⟨r, hlive, π, hp, hw⟩ := id hf
  refine ⟨h.used f hf, (r, π), ⟨hlive, hp, hw⟩, ?_⟩
  rintro ⟨r', π'⟩ ⟨hlive', hp', hw'⟩
  obtain ⟨rfl, rfl⟩ := h.forest r' hlive' r hlive π' π f hp' hp hw' hw
  rfl

/-- Two address spaces, in pages 2 and 7, each with a frame mapped at 0x400000. -/
def twoSpaces : SpaceSys :=
  let new (s : SpaceSys) : SpaceSys :=
    ⟨(vmmNewPml4 0x1000 s.phys).2, insert (pageOf (vmmNewPml4 0x1000 s.phys).1) s.live⟩
  let map (pml4 : U64) (s : SpaceSys) : SpaceSys :=
    ⟨vmmMap pml4 0x400000 s.phys.alloc.1 7 s.phys.alloc.2, s.live⟩
  map 0x7000 (new (map 0x2000 (new ⟨sixteenPages, ∅⟩)))

theorem twoSpaces_reach : SpaceReach 0x1000 sixteenPages twoSpaces :=
  (((Relation.ReflTransGen.single (SpaceStep.new _ (by decide))).tail
    (SpaceStep.map _ 0x2000 0x400000 7 (.inl (by decide +kernel)) (by decide) (by decide)
      (by decide +kernel))).tail (SpaceStep.new _ (by decide +kernel))).tail
    (SpaceStep.map _ 0x7000 0x400000 7 (.inl (by decide +kernel)) (by decide) (by decide)
      (by decide +kernel))

theorem twoSpaces_reaches : twoSpaces.Reaches 3 ∧ twoSpaces.Reaches 8 := by
  have hpath : Path userIdx 4 [0, 0, 2, 0] := ⟨by decide, fun i hi => by cases hi; decide⟩
  exact ⟨⟨2, .inr (.inl (by decide +kernel)), _, hpath, by decide +kernel⟩,
    ⟨7, .inl (by decide +kernel), _, hpath, by decide +kernel⟩⟩

/-- The frames mapped are pages 3 and 8, and only the path in their own space leads to each. -/
theorem spaces_isolated_twoSpaces :
    let Isolated (f : Nat) : Prop := twoSpaces.phys.pmm.Used f ∧
      ∃! x : Nat × List (Fin 512), x.1 ∈ twoSpaces.live ∧ Path userIdx 4 x.2 ∧
        walk childOf twoSpaces.phys.mem x.1 x.2 = some f
    Isolated 3 ∧ Isolated 8 :=
  ⟨spaces_isolated sixteenPages_valid twoSpaces_reach 3 twoSpaces_reaches.1,
    spaces_isolated sixteenPages_valid twoSpaces_reach 8 twoSpaces_reaches.2⟩

end Sinux.Mm

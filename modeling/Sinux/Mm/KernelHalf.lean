import Sinux.Mm.AddressSpace
import Sinux.Mm.CloneFail

/-!
# The kernel half under operations on the user half

`vmm_new_pml4` copies entries 256 to 511 of the kernel's PML4, so the tables below them are shared
by all address spaces. The operations are those of the user half: a new PML4, `vmm_map` and
`vmm_unmap` of a user address, `vmm_clone_pml4` and `vmm_destroy_pml4`. In between, the rest of the
kernel does what it likes with pages that are not part of an address space, its own half included
(`Between`). The ghost `born` keeps what the kernel's PML4 held when an address space was made.

`vmm_map` writes into page 0, and into what page 0 leads to, when a table cannot be allocated, and
`vmm_destroy_pml4` frees every frame it finds mapped. So the operations are `Safe` if no table
fails, and if the frame to be mapped belongs neither to the kernel half nor to another address
space.

* `OpSpec`: what an operation does, as far as address spaces and the kernel half are concerned;
  `OpSpec.inv` and `OpSpec.law`: an operation of this kind keeps the invariant and obeys the law.
* `run_spec`: the five operations are of this kind.
* `kernel_half_kept`: in every run of safe operations, entries 256 to 511 are as they were made, no
  table of the kernel half is written and none of its pages is freed.
* `kernel_half_overwritten`: a table that fails, and an entry 511 that is overwritten.
-/

namespace Sinux.Mm

open Function Sinux.Lib Sinux.Lib.Radix

/-! ## The operations -/

/-- Memory, the live PML4s, and for each of them what the kernel's PML4 held when it was made. -/
structure HalfSys extends SpaceSys where
  born : Nat → Fin 512 → U64

/-- The operations, with their arguments. -/
inductive SpaceOp
  | new
  | map (pml4 virt phys flags : U64)
  | unmap (pml4 virt : U64)
  | clone (src : U64)
  | destroy (pml4 : U64)

/-- A call that returned a PML4, or `NULL`. -/
def HalfSys.adopt (kernelPml4 : U64) (r : U64 × Phys) (s : HalfSys) : HalfSys :=
  if r.1 = 0 then { s with phys := r.2 }
  else
    { phys := r.2
      live := insert (pageOf r.1) s.live
      born := update s.born (pageOf r.1) (s.phys.mem (pageOf kernelPml4)) }

theorem HalfSys.adopt_null (kernelPml4 : U64) (t : Phys) (s : HalfSys) :
    s.adopt kernelPml4 (0, t) = { s with phys := t } := if_pos rfl

theorem HalfSys.adopt_root {kernelPml4 : U64} {f : Nat} (hf : f < 2 ^ 52) (hne : pageAddr f ≠ 0)
    {t : Phys} {s : HalfSys} : s.adopt kernelPml4 (pageAddr f, t) =
      { phys := t, live := insert f s.live,
        born := update s.born f (s.phys.mem (pageOf kernelPml4)) } := by
  unfold adopt
  rw [if_neg hne, pageOf_pageAddr hf]

/-- An operation is carried out. -/
def SpaceOp.run (kernelPml4 : U64) : SpaceOp → HalfSys → HalfSys
  | .new, s => s.adopt kernelPml4 (vmmNewPml4 kernelPml4 s.phys)
  | .map pml4 virt phys flags, s => { s with phys := vmmMap pml4 virt phys flags s.phys }
  | .unmap pml4 virt, s => { s with phys := vmmUnmap pml4 virt s.phys }
  | .clone src, s => s.adopt kernelPml4 (vmmClonePml4 kernelPml4 src s.phys)
  | .destroy pml4, s =>
    { s with phys := vmmDestroyPml4 pml4 s.phys, live := s.live \ {pageOf pml4} }

/-- The operation is on a live PML4, at an address with PML4 index below 256. -/
def SpaceOp.UserHalf : SpaceOp → HalfSys → Prop
  | .new, _ => True
  | .map pml4 virt _ _, s => pageOf pml4 ∈ s.live ∧ (vpageOf virt).User
  | .unmap pml4 virt, s => pageOf pml4 ∈ s.live ∧ (vpageOf virt).User
  | .clone src, s => pageOf src ∈ s.live
  | .destroy pml4, s => pageOf pml4 ∈ s.live

/-! ## The kernel half -/

/-- The tables that entries 256 to 511 of the kernel's PML4 and of the live ones lead to. -/
def kernelChildren (kernelPml4 : U64) (s : HalfSys) : Set Nat :=
  {c | ∃ r ∈ insert (pageOf kernelPml4) s.live, ∃ i, ¬ userIdx i ∧
    childOf (s.phys.mem r i) = some c}

/-- Page `g` is reachable through one of the entries 256 to 511. -/
def KernelReaches (kernelPml4 : U64) (s : HalfSys) (g : Nat) : Prop :=
  Node childOf (fun _ => True) 3 s.phys.mem (kernelChildren kernelPml4 s) g

/-- It is a table there. -/
def KernelTable (kernelPml4 : U64) (s : HalfSys) (g : Nat) : Prop :=
  Node childOf (fun _ => True) 2 s.phys.mem (kernelChildren kernelPml4 s) g

/-- The pages of the kernel half, and the kernel's PML4. -/
def Guarded (kernelPml4 : U64) (s : HalfSys) (g : Nat) : Prop :=
  g = pageOf kernelPml4 ∨ KernelReaches kernelPml4 s g

/-- **The law of an operation**: the entries of every live PML4 are those the kernel's PML4 held
when it was made, no table is written that only the kernel half leads to, and no page the kernel
half leads to is freed. -/
structure HalfLaw (kernelPml4 : U64) (s s' : HalfSys) : Prop where
  entries : ∀ r ∈ s'.live, ∀ i : Fin 512, 256 ≤ i.val → s'.phys.mem r i = s'.born r i
  tables : ∀ g, KernelTable kernelPml4 s g → ¬ s.Reaches g → s'.phys.mem g = s.phys.mem g
  frees : ∀ g, KernelReaches kernelPml4 s g → s.phys.pmm.Used g → s'.phys.pmm.Used g

/-- A frame that may be mapped under root `r`: if the allocator manages it, then it is in use, and
it is no page of the kernel half or of another address space. -/
def FrameFit (kernelPml4 : U64) (s : HalfSys) (r x : Nat) : Prop :=
  x < s.phys.pmm.totalPages → s.phys.pmm.Used x ∧ x ≠ 0 ∧ ¬ Guarded kernelPml4 s x ∧
    ∀ r' ∈ s.live, r' ≠ r → ¬ Node childOf userIdx 4 s.phys.mem {r'} x

/-- No table fails to be allocated, and the frame is fit. -/
def SpaceOp.Safe (kernelPml4 : U64) : SpaceOp → HalfSys → Prop
  | .map pml4 virt phys flags, s =>
    missing s.phys.mem (pageOf pml4) (vpageOf virt) ≤ s.phys.pmm.freePages.toNat ∧
      FrameFit kernelPml4 s (pageOf pml4) (pageOf (leafOf phys flags))
  | .clone src, s =>
    NoTableFails (mappedPages s.phys.mem (pageOf src)) s.phys.pmm.freePages.toNat
  | _, _ => True

/-- What the rest of the kernel may do in between: the tables of the live address spaces stay, their
pages stay in use, and what its own half leads to afterwards is neither free nor part of them. -/
structure Between (kernelPml4 : U64) (s : HalfSys) (t : Phys) : Prop where
  valid : t.pmm.Valid
  total : t.pmm.totalPages = s.phys.pmm.totalPages
  tables : ∀ g, s.IsTable g → t.mem g = s.phys.mem g
  used : ∀ g, s.Reaches g → s.phys.pmm.Used g → t.pmm.Used g
  guarded : ∀ g, Guarded kernelPml4 { s with phys := t } g →
    ¬ t.pmm.Free g ∧ (g < t.pmm.totalPages → ¬ s.Reaches g)

/-- The steps of a run. -/
inductive HalfStep (kernelPml4 : U64) : HalfSys → HalfSys → Prop
  | op (s : HalfSys) (o : SpaceOp) (huser : o.UserHalf s) (hsafe : o.Safe kernelPml4 s) :
      HalfStep kernelPml4 s (o.run kernelPml4 s)
  | between (s : HalfSys) (t : Phys) (h : Between kernelPml4 s t) :
      HalfStep kernelPml4 s { s with phys := t }

/-- After `vmm_init`: there is no address space yet, and the kernel half leads to no free page. -/
structure Booted (kernelPml4 : U64) (s : HalfSys) : Prop where
  kernel : kernelPml4 ≠ 0
  valid : s.phys.pmm.Valid
  live : s.live = ∅
  guarded : ∀ g, Guarded kernelPml4 s g → ¬ s.phys.pmm.Free g

/-- The states of the runs after `vmm_init`. -/
def HalfReach (kernelPml4 : U64) (s : HalfSys) : Prop :=
  ∃ s₀, Booted kernelPml4 s₀ ∧ Relation.ReflTransGen (HalfStep kernelPml4) s₀ s

/-! ## The invariant -/

/-- **The address spaces and the kernel half are apart**, as far as the allocator manages their
pages. -/
structure HalfInv (kernelPml4 : U64) (s : HalfSys) : Prop where
  tables : Tables 3 s.live s.phys
  used : ∀ r ∈ s.live, ∀ x, Node childOf userIdx 4 s.phys.mem {r} x →
    x < s.phys.pmm.totalPages → s.phys.pmm.Used x ∧ x ≠ 0
  apart : ∀ r ∈ s.live, ∀ r' ∈ s.live, ∀ x, Node childOf userIdx 4 s.phys.mem {r} x →
    Node childOf userIdx 4 s.phys.mem {r'} x → x < s.phys.pmm.totalPages → r = r'
  entries : ∀ r ∈ s.live, ∀ i, ¬ userIdx i → s.phys.mem r i = s.born r i
  guarded : ∀ g, Guarded kernelPml4 s g →
    ¬ s.phys.pmm.Free g ∧ (g < s.phys.pmm.totalPages → ¬ s.Reaches g)

/-- **What an operation does.** It works on the roots `T`, which are live, and leaves the roots `N`;
it writes only tables under `T` and free pages, and frees only pages under `T`. The pages under `N`
are those that were there, pages that were free, and a frame that was fit. -/
structure OpSpec (kernelPml4 : U64) (T N : Set Nat) (s s' : HalfSys) : Prop where
  sub : T ⊆ s.live
  fresh : ∀ r ∈ N, r ∉ s.live \ T
  single : N.Subsingleton
  live : s'.live = s.live \ T ∪ N
  total : s'.phys.pmm.totalPages = s.phys.pmm.totalPages
  mem : ∀ g, ¬ s.phys.pmm.Free g → ¬ Node childOf userIdx 3 s.phys.mem T g →
    s'.phys.mem g = s.phys.mem g
  free : ∀ g, s'.phys.pmm.Free g → s.phys.pmm.Free g ∨ Node childOf userIdx 4 s.phys.mem T g
  tables : Tables 3 N s'.phys
  nodes : ∀ r ∈ N, ∀ x, Node childOf userIdx 4 s'.phys.mem {r} x → x < s.phys.pmm.totalPages →
    (s'.phys.pmm.Used x ∧ x ≠ 0) ∧ ((r ∈ T ∧ Node childOf userIdx 4 s.phys.mem {r} x) ∨
      s.phys.pmm.Free x ∨ FrameFit kernelPml4 s r x)
  entries : ∀ r ∈ N, ∀ i, ¬ userIdx i → s'.phys.mem r i = s'.born r i
  kept : ∀ r ∈ s.live \ T, s'.born r = s.born r
  made : ∀ r ∈ N, (r ∈ s.live ∧ s'.born r = s.born r) ∨
    s'.born r = s.phys.mem (pageOf kernelPml4)

section

variable {kernelPml4 : U64} {T N : Set Nat} {s s' : HalfSys} (h : HalfInv kernelPml4 s)
include h

theorem HalfInv.table_used {r g : Nat} (hr : r ∈ s.live)
    (hg : Node childOf userIdx 3 s.phys.mem {r} g) : s.phys.pmm.Used g :=
  (h.tables.root hr).used g hg

theorem HalfInv.not_table {g : Nat} (hg : Guarded kernelPml4 s g) {roots : Set Nat}
    (hsub : roots ⊆ s.live) : ¬ Node childOf userIdx 3 s.phys.mem roots g := fun hn => by
  have hu := h.tables.used g (hn.mono (le_refl 3) hsub)
  exact (h.guarded g hg).2 hu.1 (hn.mono (Nat.le_succ 3) hsub)

variable (hs : OpSpec kernelPml4 T N s s')
include hs

theorem OpSpec.others_mem {r g : Nat} (hr : r ∈ s.live \ T)
    (hg : Node childOf userIdx 3 s.phys.mem {r} g) : s'.phys.mem g = s.phys.mem g := by
  have hu := h.table_used hr.1 hg
  refine hs.mem g (Pmm.not_free_of_used hu) fun hT => ?_
  obtain ⟨t, ht, hgt⟩ := Node.iff_root.mp hT
  exact hr.2 (h.apart r hr.1 t (hs.sub ht) g (hg.mono (Nat.le_succ 3) (subset_refl _))
    (hgt.mono (Nat.le_succ 3) (subset_refl _)) hu.1 ▸ ht)

theorem OpSpec.others_node {r : Nat} (hr : r ∈ s.live \ T) {n : Nat} (hn : n ≤ 4) {x : Nat} :
    Node childOf userIdx n s'.phys.mem {r} x ↔ Node childOf userIdx n s.phys.mem {r} x :=
  Node.congr (fun _ hg => hs.others_mem h hr hg) hn

theorem OpSpec.others_used {r x : Nat} (hr : r ∈ s.live \ T)
    (hx : Node childOf userIdx 4 s.phys.mem {r} x) (hlt : x < s.phys.pmm.totalPages) :
    s'.phys.pmm.Used x := by
  refine Pmm.used_of_not_free (hs.total ▸ hlt) fun hfree => ?_
  rcases hs.free x hfree with hfree | hT
  · exact Pmm.not_free_of_used (h.used r hr.1 x hx hlt).1 hfree
  · obtain ⟨t, ht, hxt⟩ := Node.iff_root.mp hT
    exact hr.2 (h.apart r hr.1 t (hs.sub ht) x hx hxt hlt ▸ ht)

theorem OpSpec.not_other {r r' x : Nat} (hr : r ∈ N) (hr' : r' ∈ s.live \ T)
    (hx : Node childOf userIdx 4 s'.phys.mem {r} x) (hlt : x < s.phys.pmm.totalPages) :
    ¬ Node childOf userIdx 4 s.phys.mem {r'} x := by
  intro hx'
  rcases (hs.nodes r hr x hx hlt).2 with ⟨hT, hold⟩ | hfree | hfit
  · exact hr'.2 (h.apart r (hs.sub hT) r' hr'.1 x hold hx' hlt ▸ hT)
  · exact Pmm.not_free_of_used (h.used r' hr'.1 x hx' hlt).1 hfree
  · exact (hfit hlt).2.2.2 r' hr'.1 (fun e => hs.fresh r hr (e ▸ hr')) hx'

theorem OpSpec.guarded_mem {g : Nat} (hg : Guarded kernelPml4 s g) :
    s'.phys.mem g = s.phys.mem g :=
  hs.mem g (h.guarded g hg).1 (h.not_table hg hs.sub)

theorem OpSpec.guarded_not_free {g : Nat} (hg : Guarded kernelPml4 s g) :
    ¬ s'.phys.pmm.Free g := by
  intro hfree
  rcases hs.free g hfree with hfree' | hT
  · exact (h.guarded g hg).1 hfree'
  · exact (h.guarded g hg).2 (hs.total ▸ hfree.1) (hT.mono (le_refl 4) hs.sub)

theorem OpSpec.entries_all {r : Nat} (hr : r ∈ s'.live) {i : Fin 512} (hi : ¬ userIdx i) :
    s'.phys.mem r i = s'.born r i := by
  rw [hs.live] at hr
  rcases hr with hr | hr
  · rw [hs.others_mem h hr (Node.root rfl), hs.kept r hr, h.entries r hr.1 i hi]
  · exact hs.entries r hr i hi

theorem OpSpec.kernelChildren_sub : kernelChildren kernelPml4 s' ⊆ kernelChildren kernelPml4 s := by
  rintro c ⟨r, hr, i, hi, hc⟩
  rcases hr with rfl | hr
  · rw [hs.guarded_mem h (Or.inl rfl)] at hc
    exact ⟨_, Set.mem_insert _ _, i, hi, hc⟩
  · rw [hs.entries_all h hr hi] at hc
    have hold (hr : r ∈ s.live) (hb : s'.born r = s.born r) : c ∈ kernelChildren kernelPml4 s := by
      rw [hb, ← h.entries r hr i hi] at hc
      exact ⟨r, Set.mem_insert_of_mem _ hr, i, hi, hc⟩
    rw [hs.live] at hr
    rcases hr with hr | hr
    · exact hold hr.1 (hs.kept r hr)
    · rcases hs.made r hr with ⟨hr, hb⟩ | hb
      · exact hold hr hb
      · rw [hb] at hc
        exact ⟨_, Set.mem_insert _ _, i, hi, hc⟩

theorem OpSpec.guarded_sub {g : Nat} (hg : Guarded kernelPml4 s' g) : Guarded kernelPml4 s g := by
  refine hg.imp_right fun hg => ?_
  have hg := hg.mono (le_refl 3) (hs.kernelChildren_sub h)
  exact (Node.congr (fun x hx => hs.guarded_mem h (Or.inr hx)) (Nat.le_succ 3)).mp hg

/-- **An operation of this kind keeps the invariant.** -/
theorem OpSpec.inv : HalfInv kernelPml4 s' := by
  have hO : Tables 3 (s.live \ T) s'.phys := by
    refine (h.tables.mono (le_refl 3) Set.sdiff_subset).frame (Nat.le_succ 3) hs.tables.valid
      (fun g hg => ?_) fun g hg => ?_
    · obtain ⟨r, hr, hg⟩ := Node.iff_root.mp hg
      exact hs.others_mem h hr hg
    · obtain ⟨r, hr, hg⟩ := Node.iff_root.mp hg
      exact hs.others_used h hr (hg.mono (Nat.le_succ 3) (subset_refl _)) (h.table_used hr.1 hg).1
  refine ⟨?_, fun r hr x hx hlt => ?_, fun r hr r' hr' x hx hx' hlt => ?_,
    fun r hr i hi => hs.entries_all h hr hi, fun g hg => ?_⟩
  · rw [hs.live]
    refine hO.union hs.tables fun g hg hg' => ?_
    have hlt := (hO.used g hg).1
    rw [hs.total] at hlt
    obtain ⟨r', hr', hg⟩ := Node.iff_root.mp hg
    obtain ⟨r, hr, hg'⟩ := Node.iff_root.mp hg'
    exact hs.not_other h hr hr' (hg'.mono (Nat.le_succ 3) (subset_refl _)) hlt
      (((hs.others_node h hr' (Nat.le_succ 3)).mp hg).mono (Nat.le_succ 3) (subset_refl _))
  · rw [hs.total] at hlt
    rw [hs.live] at hr
    rcases hr with hr | hr
    · have hx := (hs.others_node h hr (le_refl 4)).mp hx
      exact ⟨hs.others_used h hr hx hlt, (h.used r hr.1 x hx hlt).2⟩
    · exact (hs.nodes r hr x hx hlt).1
  · rw [hs.total] at hlt
    rw [hs.live] at hr hr'
    rcases hr with hr | hr <;> rcases hr' with hr' | hr'
    · exact h.apart r hr.1 r' hr'.1 x ((hs.others_node h hr (le_refl 4)).mp hx)
        ((hs.others_node h hr' (le_refl 4)).mp hx') hlt
    · exact absurd ((hs.others_node h hr (le_refl 4)).mp hx) (hs.not_other h hr' hr hx' hlt)
    · exact absurd ((hs.others_node h hr' (le_refl 4)).mp hx') (hs.not_other h hr hr' hx hlt)
    · exact hs.single hr hr'
  · have hg := hs.guarded_sub h hg
    refine ⟨hs.guarded_not_free h hg, fun hlt hreach => ?_⟩
    rw [hs.total] at hlt
    obtain ⟨hnf, hnr⟩ := h.guarded g hg
    obtain ⟨r, hr, hx⟩ := Node.iff_root.mp hreach
    rw [hs.live] at hr
    rcases hr with hr | hr
    · exact hnr hlt (((hs.others_node h hr (le_refl 4)).mp hx).mono (le_refl 4)
        (Set.singleton_subset_iff.mpr hr.1))
    · rcases (hs.nodes r hr g hx hlt).2 with ⟨hT, hold⟩ | hfree | hfit
      · exact hnr hlt (hold.mono (le_refl 4) (Set.singleton_subset_iff.mpr (hs.sub hT)))
      · exact hnf hfree
      · exact (hfit hlt).2.2.1 hg

theorem OpSpec.law : HalfLaw kernelPml4 s s' := by
  refine ⟨fun r hr i hi => hs.entries_all h hr (Nat.not_lt.mpr hi), fun g hg _ => ?_,
    fun g hg hu => ?_⟩
  · exact hs.guarded_mem h (Or.inr (hg.mono (Nat.le_succ 2) (subset_refl _)))
  · exact Pmm.used_of_not_free (hs.total ▸ hu.1) (hs.guarded_not_free h (Or.inr hg))

end

/-! ## The five operations -/

section

variable {kernelPml4 : U64} {s : HalfSys} (h : HalfInv kernelPml4 s)
include h

theorem HalfInv.not_free {r g : Nat} (hr : r ∈ s.live)
    (hg : Node childOf userIdx 4 s.phys.mem {r} g) : ¬ s.phys.pmm.Free g := fun hfree =>
  Pmm.not_free_of_used (h.used r hr g hg hfree.1).1 hfree

theorem HalfInv.nothing {t : Phys} (hpmm : t.pmm = s.phys.pmm)
    (hmem : ∀ g, ¬ s.phys.pmm.Free g → t.mem g = s.phys.mem g) :
    OpSpec kernelPml4 ∅ ∅ s { s with phys := t } where
  sub := Set.empty_subset _
  fresh := fun _ hr => hr.elim
  single := Set.subsingleton_empty
  live := by rw [Set.sdiff_empty, Set.union_empty]
  total := by rw [hpmm]
  mem := fun g hg _ => hmem g hg
  free := fun g hg => Or.inl (hpmm ▸ hg)
  tables := tables_empty (hpmm ▸ h.tables.valid)
  nodes := fun _ hr => hr.elim
  entries := fun _ hr => hr.elim
  kept := fun _ _ => rfl
  made := fun _ hr => hr.elim

theorem HalfInv.root (hk : kernelPml4 ≠ 0) {src f : Nat} {D : Finset VPage} {L : List Nat}
    {t : Phys} (hf : s.phys.pmm.Free f) (hc : Cloned kernelPml4 s.phys src f D L t) :
    OpSpec kernelPml4 ∅ {f} s
      { phys := t, live := insert f s.live,
        born := update s.born f (s.phys.mem (pageOf kernelPml4)) } := by
  have hnew : f ∉ s.live := fun hlive => h.not_free hlive (Node.root rfl) hf
  have hkf : pageOf kernelPml4 ≠ f := fun e => (h.guarded _ (Or.inl rfl)).1 (e ▸ hf)
  have hborn : update s.born f (s.phys.mem (pageOf kernelPml4)) f =
      s.phys.mem (pageOf kernelPml4) := update_self ..
  refine ⟨Set.empty_subset _, ?_, Set.subsingleton_singleton, ?_, hc.takes.totalPages,
    fun g hg _ => hc.mem g (hc.not_mem_of_not_free hg),
    fun g hg => Or.inl ((hc.takes.free_iff g).mp hg).1,
    hc.tables.mono (Nat.le_succ 3) (subset_refl _), ?_, ?_, fun r hr => ?_, ?_⟩
  · rintro r rfl hr
    exact hnew hr.1
  · rw [Set.sdiff_empty, Set.union_singleton]
  · rintro r rfl x hx -
    have hL := (hc.node x).mp hx
    have hfree := hc.takes.free_of_mem x hL
    exact ⟨⟨hc.takes.used_of_mem x hL, h.tables.valid.free_ne_zero hfree⟩, Or.inr (Or.inl hfree)⟩
  · rintro r rfl i hi
    dsimp only
    rw [hc.kernelHalf i hi, hborn]
    unfold freshPml4
    rw [if_neg fun hx => hx.elim hi hk, update_of_ne hkf]
  · exact update_of_ne (fun e : r = f => hnew (e ▸ hr.1)) _ _
  · rintro r rfl
    exact Or.inr hborn

theorem HalfInv.new (hk : kernelPml4 ≠ 0) :
    ∃ T N, OpSpec kernelPml4 T N s (SpaceOp.run kernelPml4 .new s) := by
  show ∃ T N, OpSpec kernelPml4 T N s (s.adopt kernelPml4 (vmmNewPml4 kernelPml4 s.phys))
  rcases vmmNewPml4_cases h.tables.valid kernelPml4 with ⟨-, e⟩ | ⟨f, hf, hne, e⟩
  · rw [e, HalfSys.adopt_null]
    exact ⟨∅, ∅, h.nothing rfl fun _ _ => rfl⟩
  · rw [e, HalfSys.adopt_root hf.lt hne]
    exact ⟨∅, {f}, h.root hk hf (cloned_newPml4 h.tables.valid hf : Cloned _ _ 0 _ _ _ _)⟩

theorem HalfInv.clone (hk : kernelPml4 ≠ 0) {src : U64} (hsrc : pageOf src ∈ s.live)
    (hsafe : SpaceOp.Safe kernelPml4 (.clone src) s) :
    ∃ T N, OpSpec kernelPml4 T N s (SpaceOp.run kernelPml4 (.clone src) s) := by
  have hno : NoTableFails (mappedPages s.phys.mem (pageOf src)) s.phys.pmm.clearBits :=
    h.tables.valid.counter ▸ hsafe
  show ∃ T N, OpSpec kernelPml4 T N s (s.adopt kernelPml4 (vmmClonePml4 kernelPml4 src s.phys))
  rcases vmmClonePml4_outcome h.tables.valid (fun g hg => h.not_free hsrc hg) kernelPml4 with
    ⟨-, e⟩ | ⟨f, hf, hne, ⟨L, t, e, hc⟩ | ⟨t, -, ht⟩ | ⟨u, e, ⟨hpmm, hmem, -⟩ | ⟨t, ht, -⟩⟩⟩
  · rw [e, HalfSys.adopt_null]
    exact ⟨∅, ∅, h.nothing rfl fun _ _ => rfl⟩
  · rw [e, HalfSys.adopt_root hf.lt hne]
    exact ⟨∅, {f}, h.root hk hf hc⟩
  · exact absurd hno ht.tableFails
  · rw [e, HalfSys.adopt_null]
    exact ⟨∅, ∅, h.nothing hpmm hmem⟩
  · exact absurd hno ht.tableFails

theorem HalfInv.map {pml4 virt phys flags : U64} (hp : pageOf pml4 ∈ s.live)
    (hv : (vpageOf virt).User) (hsafe : SpaceOp.Safe kernelPml4 (.map pml4 virt phys flags) s) :
    OpSpec kernelPml4 {pageOf pml4} {pageOf pml4} s
      (SpaceOp.run kernelPml4 (.map pml4 virt phys flags) s) := by
  obtain ⟨hroom, hfit⟩ := hsafe
  rw [h.tables.valid.counter] at hroom
  have hsub : ({pageOf pml4} : Set Nat) ⊆ s.live := Set.singleton_subset_iff.mpr hp
  obtain ⟨L, hm⟩ := vmmMap_spec (h.tables.mono (le_refl 3) hsub) rfl hv phys flags hroom
  have hother (g : Nat) (hg : ¬ s.phys.pmm.Free g) : g ∉ L := fun hL =>
    hg (hm.takes.free_of_mem g hL)
  refine ⟨hsub, fun r hr hr' => hr'.2 hr, Set.subsingleton_singleton,
    (Set.sdiff_union_of_subset hsub).symm, hm.takes.totalPages,
    fun g hg hn => hm.mem g hn (hother g hg), fun g hg => Or.inl ((hm.takes.free_iff g).mp hg).1,
    hm.tables, ?_, ?_, fun _ _ => rfl, ?_⟩
  · rintro r rfl x hx hlt
    rcases hm.node_four_sub (childOf_leafOf_any phys flags) hx with hx | hL | rfl
    · obtain ⟨hu, h0⟩ := h.used _ hp x hx hlt
      exact ⟨⟨hm.takes.used_mono hu, h0⟩, Or.inl ⟨rfl, hx⟩⟩
    · have hfree := hm.takes.free_of_mem x hL
      exact ⟨⟨hm.takes.used_of_mem x hL, h.tables.valid.free_ne_zero hfree⟩,
        Or.inr (Or.inl hfree)⟩
    · obtain ⟨hu, h0, -⟩ := hfit hlt
      exact ⟨⟨hm.takes.used_mono hu, h0⟩, Or.inr (Or.inr hfit)⟩
  · rintro r rfl i hi
    exact (hm.kernelHalf _ rfl i hi).trans (h.entries _ hp i hi)
  · rintro r rfl
    exact Or.inl ⟨hp, rfl⟩

theorem HalfInv.unmap {pml4 virt : U64} (hp : pageOf pml4 ∈ s.live) (hv : (vpageOf virt).User) :
    OpSpec kernelPml4 {pageOf pml4} {pageOf pml4} s
      (SpaceOp.run kernelPml4 (.unmap pml4 virt) s) := by
  have hsub : ({pageOf pml4} : Set Nat) ⊆ s.live := Set.singleton_subset_iff.mpr hp
  have hu := vmmUnmap_spec (h.tables.mono (le_refl 3) hsub) rfl hv
  refine ⟨hsub, fun r hr hr' => hr'.2 hr, Set.subsingleton_singleton,
    (Set.sdiff_union_of_subset hsub).symm, congrArg Pmm.totalPages hu.pmm,
    fun g _ hn => hu.mem g hn, fun g hg => Or.inl (hu.pmm ▸ hg), hu.tables, ?_, ?_,
    fun _ _ => rfl, ?_⟩
  · rintro r rfl x hx hlt
    have hx := hu.node_four_sub hx
    refine ⟨?_, Or.inl ⟨rfl, hx⟩⟩
    show (vmmUnmap pml4 virt s.phys).pmm.Used x ∧ x ≠ 0
    rw [hu.pmm]
    exact h.used _ hp x hx hlt
  · rintro r rfl i hi
    exact (hu.kernelHalf _ rfl i hi).trans (h.entries _ hp i hi)
  · rintro r rfl
    exact Or.inl ⟨hp, rfl⟩

theorem HalfInv.destroy {pml4 : U64} (hp : pageOf pml4 ∈ s.live) :
    OpSpec kernelPml4 {pageOf pml4} ∅ s (SpaceOp.run kernelPml4 (.destroy pml4) s) := by
  have h0 : pml4 ≠ 0 := by
    rintro rfl
    exact h.tables.nonzero _ (Node.root hp) rfl
  have htotal : (vmmDestroyPml4 pml4 s.phys).pmm.totalPages = s.phys.pmm.totalPages := by
    rw [vmmDestroyPml4_eq h0, freeAll_totalPages]
  have hvalid : (vmmDestroyPml4 pml4 s.phys).pmm.Valid := by
    rw [vmmDestroyPml4_eq h0]
    refine freeAll_valid h.tables.valid fun g hg => ?_
    have hg := mem_spacePages.mp hg
    exact ⟨node_lt hg, fun hu => (h.used _ hp g hg hu.1).2⟩
  refine ⟨Set.singleton_subset_iff.mpr hp, fun _ hr => hr.elim, Set.subsingleton_empty,
    (Set.union_empty _).symm, htotal, fun g _ _ => ?_, fun g hg => ?_, tables_empty hvalid,
    fun _ hr => hr.elim, fun _ hr => hr.elim, fun _ _ => rfl, fun _ hr => hr.elim⟩
  · show (vmmDestroyPml4 pml4 s.phys).mem g = _
    rw [vmmDestroyPml4_eq h0, Phys.freeAll_mem]
  · by_cases hfree : s.phys.pmm.Free g
    · exact Or.inl hfree
    · have hlt : g < s.phys.pmm.totalPages := htotal ▸ hg.1
      exact Or.inr ((destroy_free_iff h0 (Pmm.used_of_not_free hlt hfree)).mp hg)

/-- **Every safe operation of the user half** does what `OpSpec` says. -/
theorem run_spec (hk : kernelPml4 ≠ 0) (o : SpaceOp) (huser : o.UserHalf s)
    (hsafe : o.Safe kernelPml4 s) : ∃ T N, OpSpec kernelPml4 T N s (o.run kernelPml4 s) := by
  cases o with
  | new => exact h.new hk
  | map pml4 virt phys flags => exact ⟨_, _, h.map huser.1 huser.2 hsafe⟩
  | unmap pml4 virt => exact ⟨_, _, h.unmap huser.1 huser.2⟩
  | clone src => exact h.clone hk huser hsafe
  | destroy pml4 => exact ⟨_, _, h.destroy huser⟩

theorem HalfInv.between {t : Phys} (hb : Between kernelPml4 s t) :
    HalfInv kernelPml4 { s with phys := t } := by
  have hmem (r : Nat) (hr : r ∈ s.live) (g : Nat)
      (hg : Node childOf userIdx 3 s.phys.mem {r} g) : t.mem g = s.phys.mem g :=
    hb.tables g (hg.mono (le_refl 3) (Set.singleton_subset_iff.mpr hr))
  have hnode (r : Nat) (hr : r ∈ s.live) (x : Nat) : Node childOf userIdx 4 t.mem {r} x ↔
      Node childOf userIdx 4 s.phys.mem {r} x := Node.congr (hmem r hr) (le_refl 4)
  have hreach (x : Nat) : Node childOf userIdx 4 t.mem s.live x ↔ s.Reaches x :=
    Node.congr hb.tables (le_refl 4)
  refine ⟨?_, fun r hr x hx hlt => ?_, fun r hr r' hr' x hx hx' hlt => ?_, fun r hr i hi => ?_,
    fun g hg => ⟨(hb.guarded g hg).1, fun hlt hx => (hb.guarded g hg).2 hlt ((hreach g).mp hx)⟩⟩
  · refine h.tables.frame (Nat.le_succ 3) hb.valid hb.tables fun g hg => ?_
    exact hb.used g (hg.mono (Nat.le_succ 3) (subset_refl _)) (h.tables.used g hg)
  · rw [hb.total] at hlt
    have hx := (hnode r hr x).mp hx
    obtain ⟨hu, h0⟩ := h.used r hr x hx hlt
    exact ⟨hb.used x (hx.mono (le_refl 4) (Set.singleton_subset_iff.mpr hr)) hu, h0⟩
  · rw [hb.total] at hlt
    exact h.apart r hr r' hr' x ((hnode r hr x).mp hx) ((hnode r' hr' x).mp hx') hlt
  · rw [hmem r hr r (Node.root rfl)]
    exact h.entries r hr i hi

end

/-! ## Runs -/

theorem Booted.inv {kernelPml4 : U64} {s : HalfSys} (h : Booted kernelPml4 s) :
    HalfInv kernelPml4 s := by
  have hno {r : Nat} (hr : r ∈ s.live) : False := by
    rw [h.live] at hr
    exact hr
  refine ⟨?_, fun r hr => (hno hr).elim, fun r hr => (hno hr).elim, fun r hr => (hno hr).elim,
    fun g hg => ⟨h.guarded g hg, fun _ ⟨r, hr, _⟩ => hno hr⟩⟩
  rw [h.live]
  exact tables_empty h.valid

theorem halfInv_of_reach {kernelPml4 : U64} {s : HalfSys} (hr : HalfReach kernelPml4 s) :
    kernelPml4 ≠ 0 ∧ HalfInv kernelPml4 s := by
  obtain ⟨s₀, hb, hrun⟩ := hr
  refine ⟨hb.kernel, ?_⟩
  induction hrun with
  | refl => exact hb.inv
  | tail _ hst ih =>
    cases hst with
    | op o huser hsafe =>
      obtain ⟨T, N, hs⟩ := run_spec ih hb.kernel o huser hsafe
      exact hs.inv ih
    | between t h => exact ih.between h

/-- **The user half does not disturb the kernel half.** In every state of a run whose operations are
safe, entries 256 to 511 of every live PML4 are those the kernel's PML4 held when it was made; and
every further safe operation obeys the law. -/
theorem kernel_half_kept {kernelPml4 : U64} {s : HalfSys} (hr : HalfReach kernelPml4 s) :
    (∀ r ∈ s.live, ∀ i : Fin 512, 256 ≤ i.val → s.phys.mem r i = s.born r i) ∧
      ∀ o : SpaceOp, o.UserHalf s → o.Safe kernelPml4 s →
        HalfLaw kernelPml4 s (o.run kernelPml4 s) := by
  obtain ⟨hk, h⟩ := halfInv_of_reach hr
  refine ⟨fun r hr i hi => h.entries r hr i (Nat.not_lt.mpr hi), fun o huser hsafe => ?_⟩
  obtain ⟨T, N, hs⟩ := run_spec h hk o huser hsafe
  exact hs.law h

theorem live_new {kernelPml4 pml4 : U64} {s : HalfSys}
    (h : (vmmNewPml4 kernelPml4 s.phys).1 = pml4) (hne : pml4 ≠ 0) :
    (SpaceOp.run kernelPml4 .new s).live = insert (pageOf pml4) s.live := by
  show (s.adopt kernelPml4 (vmmNewPml4 kernelPml4 s.phys)).live = _
  unfold HalfSys.adopt
  rw [h, if_neg hne]

theorem booted_of_flat {kernelPml4 : U64} {t : Phys} (hk : kernelPml4 ≠ 0) (hv : t.pmm.Valid)
    (hfree : ¬ t.pmm.Free (pageOf kernelPml4)) (hflat : ∀ i, ¬ userIdx i → ∀ c,
      childOf (t.mem (pageOf kernelPml4) i) = some c → ¬ t.pmm.Free c ∧ ∀ j, t.mem c j = 0)
    (born : Nat → Fin 512 → U64) : Booted kernelPml4 ⟨⟨t, ∅⟩, born⟩ := by
  refine ⟨hk, hv, rfl, fun g hg => ?_⟩
  rcases hg with rfl | ⟨c, ⟨r, hr, i, hi, hc⟩, π, hp, hw⟩
  · exact hfree
  · rcases hr with rfl | hr
    · obtain ⟨hnot, hzero⟩ := hflat i hi c hc
      obtain ⟨-, rfl⟩ := walk_empty_root (fun j _ => by rw [hzero j, childOf_zero]) hp hw
      exact hnot
    · exact hr.elim

/-- Sixteen pages. The last entry of the kernel's PML4 in page 1 leads to an empty table in page 2. -/
def kernelPages : Phys :=
  ⟨⟨fun k => if k = 0 then 7 else 0, 16, 13, sixteenPages.pmm.total_le⟩,
    fun f i => if f = 1 ∧ i = 511 then 0x2003 else 0⟩

/-- One address space, in page 3. -/
def oneHalf : HalfSys := SpaceOp.run 0x1000 .new ⟨⟨kernelPages, ∅⟩, fun _ _ => 0⟩

/-- Its last entry is the kernel's, and a page beyond the memory that is managed is mapped at
0x400000. -/
theorem kernel_half_kept_oneHalf : oneHalf.phys.mem 3 511 = 0x2003 ∧
    HalfLaw 0x1000 oneHalf ((SpaceOp.map 0x3000 0x400000 0x20000 7).run 0x1000 oneHalf) := by
  have hboot : Booted 0x1000 ⟨⟨kernelPages, ∅⟩, fun _ _ => 0⟩ := by
    refine booted_of_flat (by decide) ⟨by decide, by decide⟩ (by decide) (fun i _ c hc => ?_) _
    have hmem : kernelPages.mem (pageOf 0x1000) i = if i = 511 then 0x2003 else 0 :=
      if_congr (and_iff_right (by decide)) rfl rfl
    rw [hmem] at hc
    split_ifs at hc
    · obtain rfl : 2 = c := Option.some_inj.mp hc
      exact ⟨by decide, fun j => by simp [kernelPages]⟩
    · exact absurd hc (ne_of_eq_of_ne childOf_zero nofun)
  have hreach : HalfReach 0x1000 oneHalf :=
    ⟨_, hboot, Relation.ReflTransGen.single (HalfStep.op _ .new trivial trivial)⟩
  have hlive : pageOf 0x3000 ∈ oneHalf.live := by
    rw [oneHalf, live_new (by decide : _ = (0x3000 : U64)) (by decide)]
    exact Set.mem_insert _ _
  have hmanaged : oneHalf.phys.pmm.totalPages = 16 := by decide +kernel
  obtain ⟨hentries, hlaw⟩ := kernel_half_kept hreach
  refine ⟨(hentries 3 hlive 511 (by decide)).trans (by decide +kernel),
    hlaw _ ⟨hlive, by decide⟩ ⟨by decide +kernel, fun hlt => ?_⟩⟩
  rw [hmanaged] at hlt
  exact absurd hlt (by decide)

theorem HalfLaw.entries_map {kernelPml4 pml4 virt phys flags : U64} {s : HalfSys}
    (h : HalfLaw kernelPml4 s ((SpaceOp.map pml4 virt phys flags).run kernelPml4 s)) {r : Nat}
    (hr : r ∈ s.live) {i : Fin 512} (hi : 256 ≤ i.val) :
    (vmmMap pml4 virt phys flags s.phys).mem r i = s.born r i := h.entries r hr i hi

/-- Four pages, of which 2 and 3 are free; page 0, read as a table, leads to page 3. -/
def straySys : HalfSys where
  phys := ⟨⟨fun k => if k = 0 then 3 else 0, 4, 2, by decide⟩,
    fun f i => if f = 0 ∧ i = 0 then 0x3001 else 0⟩
  live := ∅
  born := fun _ _ => 0

/-- Two address spaces, in pages 2 and 3. -/
def strayTwo : HalfSys := SpaceOp.run 0x1000 .new (SpaceOp.run 0x1000 .new straySys)

/-- **Entry 511 is overwritten.** With no page left for a table, a page of the first address space
is mapped into the PML4 of the second. -/
theorem kernel_half_overwritten :
    HalfReach 0x1000 strayTwo ∧
      (SpaceOp.map 0x2000 0x401FF000 0x5000 7).UserHalf strayTwo ∧
      FrameFit 0x1000 strayTwo (pageOf 0x2000) (pageOf (leafOf 0x5000 7)) ∧
      ¬ HalfLaw 0x1000 strayTwo ((SpaceOp.map 0x2000 0x401FF000 0x5000 7).run 0x1000 strayTwo) := by
  have hboot : Booted 0x1000 straySys :=
    booted_of_flat (by decide) ⟨by decide, by decide⟩ (by decide)
      (fun _ _ c (hc : childOf 0 = some c) => nomatch childOf_zero.symm.trans hc) _
  have hreach : HalfReach 0x1000 strayTwo :=
    ⟨_, hboot, (Relation.ReflTransGen.single (HalfStep.op _ .new trivial trivial)).tail
      (HalfStep.op _ .new trivial trivial)⟩
  have hone : (vmmNewPml4 0x1000 straySys.phys).1 = 0x2000 := by decide +kernel
  have htwo : (vmmNewPml4 0x1000 (SpaceOp.run 0x1000 .new straySys).phys).1 = 0x3000 := by
    decide +kernel
  have hlive : strayTwo.live = insert (pageOf 0x3000) (insert (pageOf 0x2000) ∅) := by
    rw [strayTwo, live_new htwo (by decide), live_new hone (by decide)]
    rfl
  have hsecond : pageOf 0x3000 ∈ strayTwo.live := by
    rw [hlive]
    exact Set.mem_insert _ _
  have hfirst : pageOf 0x2000 ∈ strayTwo.live := by
    rw [hlive]
    exact Set.mem_insert_of_mem _ (Set.mem_insert _ _)
  have hentry : (vmmMap 0x2000 0x401FF000 0x5000 7 strayTwo.phys).mem (pageOf 0x3000) 511 ≠
      strayTwo.born (pageOf 0x3000) 511 := by decide +kernel
  have hmanaged : strayTwo.phys.pmm.totalPages = 4 := by decide +kernel
  refine ⟨hreach, ⟨hfirst, by decide⟩, fun hlt => ?_, fun hlaw => ?_⟩
  · rw [hmanaged] at hlt
    exact absurd hlt (by decide)
  · exact hentry (hlaw.entries_map hsecond (by decide))

end Sinux.Mm

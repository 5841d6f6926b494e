import Sinux.Mm.NoExecute

/-!
# Running out of pages while cloning

`vmm_clone_pml4` allocates its PML4, a frame for every mapped page, and inside `vmm_map` the tables
above the frames. It tests the first two: without a PML4 it returns `NULL`, without a frame it
destroys what it has built and returns `NULL`. `vmm_map` has no result, so a table that could not
be allocated goes unnoticed: `get_or_alloc` is called again with `NULL` for the table, and the leaf
entry ends up in page 0 or in a page that page 0 leads to. The frame is then mapped nowhere. No page
is free from there on, so the next mapped page makes the clone return `NULL` with this frame still
taken, and without a next one the copy is returned although it lacks the page.

* `CloneLaw`: the call returns a complete copy, or `NULL` and has changed nothing.
* `Starved`: the states after a table that could not be allocated; `vmmClonePml4_outcome`: the four
  ways the call ends.
* `clone_clean`: the law holds if the pages suffice, or run out at the PML4 or at a frame;
  `clone_law_only`: only then, as long as `NULL` does not lead to free pages.
* `clone_law_iff`: both together, and `clone_starved`: two free pages for an address space with one
  page.
-/

namespace Sinux.Mm

open Function Sinux.Lib Sinux.Lib.Radix

/-! ## The law -/

/-- The clone is a deep copy, permissions in bit 63 included. -/
structure CompleteCopy (kernelPml4 src dst : U64) (s s' : Phys) : Prop
    extends DeepCopy kernelPml4 src dst s s' where
  nx : ∀ v : VPage, v.User → leafEntry s.mem (pageOf src) v &&& vmmPresent ≠ 0 →
    leafEntry s'.mem (pageOf dst) v &&& vmmNx = leafEntry s.mem (pageOf src) v &&& vmmNx

/-- `NULL` is returned and nothing has happened. -/
structure CleanFailure (src dst : U64) (s s' : Phys) : Prop where
  null : dst = 0
  /-- Bitmap and `free_pages` are as before. -/
  pmm : s'.pmm = s.pmm
  source : ∀ g, Node childOf userIdx 4 s.mem {pageOf src} g → s'.mem g = s.mem g
  /-- Only pages that the allocator had to give were written. -/
  mem : ∀ g, ¬ s.pmm.Free g → s'.mem g = s.mem g

/-- **The law of `vmm_clone_pml4`.** -/
def CloneLaw (kernelPml4 src : U64) (s : Phys) : Prop :=
  CompleteCopy kernelPml4 src (vmmClonePml4 kernelPml4 src s).1 s
      (vmmClonePml4 kernelPml4 src s).2 ∨
    CleanFailure src (vmmClonePml4 kernelPml4 src s).1 s (vmmClonePml4 kernelPml4 src s).2

/-- What a clone starts from: the pages of the source are not free, and neither is the kernel's
PML4. -/
structure CloneReady (kernelPml4 src : U64) (s : Phys) : Prop where
  valid : s.pmm.Valid
  source : ∀ g, Node childOf userIdx 4 s.mem {pageOf src} g → ¬ s.pmm.Free g
  kernel : kernelPml4 ≠ 0
  kernel_used : ¬ s.pmm.Free (pageOf kernelPml4)

/-- With `n` free pages none of the tables above the pages `S` fails to be allocated: there is
enough for all, or nothing even for the PML4, or nothing is left when the frame of a page `v` is
due. -/
def NoTableFails (S : Finset VPage) (n : Nat) : Prop :=
  cloneCost S ≤ n ∨ n = 0 ∨ ∃ v ∈ S, n = 1 + copyCost (pagesBelow S v.num)

/-- `NULL` taken for a table leads to no free page. -/
def NullSafe (s : Phys) : Prop := ∀ g, NullTable 2 s.mem g → ¬ s.pmm.Free g

/-! ## A table that is missing -/

/-- A table could not be allocated while cloning into frame `f`. -/
structure Starved (s : Phys) (f : Nat) (S : Finset VPage) (t : Phys) : Prop where
  valid : t.pmm.Valid
  none_left : t.pmm.clearBits = 0
  /-- The free pages ran out after the frame of a page. -/
  between : ∃ v ∈ S, 1 + copyCost (pagesBelow S v.num) < s.pmm.clearBits ∧
    s.pmm.clearBits < 1 + copyCost (pagesBelow S (v.num + 1))
  /-- A mapped page is not in the copy. -/
  lacks : NullSafe s → ∃ v ∈ S, leafEntry t.mem f v = 0
  /-- A page is taken that the copy does not lead to. -/
  leak : NullSafe s → ∃ g, s.pmm.Free g ∧ t.pmm.Used g ∧ ¬ Node childOf userIdx 4 t.mem {f} g

section

variable {kernelPml4 : U64} {s t : Phys} {src f : Nat} {D S : Finset VPage} {L : List Nat}

/-- The pages `NULL` leads to are the same once a part is cloned and the next frame filled, and they
are no pages of the clone. -/
theorem Cloned.nullTable (h : Cloned kernelPml4 s src f D L t) (hnull : NullSafe s) {g : Nat}
    (hg : t.pmm.Free g) (c : Fin 512 → U64) {x : Nat}
    (hx : NullTable 2 (update t.mem g c) x) :
    ¬ (t.pmm.mark g).Free x ∧
      ¬ Node childOf userIdx 4 (update t.mem g c) {f} x := by
  have hkeep : ∀ y, NullTable 2 s.mem y → update t.mem g c y = s.mem y := fun y hy => by
    have hyg : y ≠ g := fun e => hnull y hy ((h.takes.free_iff y).mp (e ▸ hg)).1
    rw [update_of_ne hyg, h.mem y (h.not_mem_of_not_free (hnull y hy))]
  have hfree := hnull x ((Node.congr hkeep (Nat.le_succ 2)).mp hx)
  refine ⟨fun hx' => hfree ?_, fun hx' => hfree ?_⟩
  · exact ((h.takes.free_iff x).mp (Pmm.free_mark.mp hx').1).1
  · rw [Node.congr (h.tables.fill hg c).2 (Nat.le_succ 4), h.node] at hx'
    exact h.takes.free_of_mem x hx'

/-- **A table fails**: with a page for the frame but not for all of its tables, the frame is lost
and the page is not mapped. -/
theorem Cloned.starve (h : Cloned kernelPml4 s src f D L t) (hnull : NullSafe s) {v : VPage}
    (hv : v.User) (hvD : v ∉ D) (hroom : s.pmm.clearBits < 1 + copyCost (insert v D)) {g : Nat}
    (hg : t.pmm.Free g) (c : Fin 512 → U64) {dst virt : U64} (hdst : pageOf dst = f)
    (hvirt : vpageOf virt = v) (phys flags : U64) :
    leafEntry (vmmMap dst virt phys flags ⟨t.pmm.mark g, update t.mem g c⟩).mem f v = 0 ∧
      (vmmMap dst virt phys flags ⟨t.pmm.mark g, update t.mem g c⟩).pmm.Used g ∧
      ¬ Node childOf userIdx 4
        (vmmMap dst virt phys flags ⟨t.pmm.mark g, update t.mem g c⟩).mem {f} g := by
  subst hdst hvirt
  obtain ⟨htab, hagree⟩ := h.tables.fill hg c
  obtain ⟨M, s₁, y, e, hgrown, -, hy⟩ := vmmMap_nullTable htab (Nat.le_succ 3)
    (Set.mem_singleton _) hv phys flags (fun x hx => h.nullTable hnull hg c hx)
    (h.tables_short hv hvD hroom hg c)
  obtain ⟨hyfree, hynode⟩ := h.nullTable hnull hg c hy
  -- the page with the leaf entry is no page of the clone
  have hstore : ∀ x, Node childOf userIdx 4 s₁.mem {pageOf dst} x →
      store s₁.mem y (vpageOf virt).p1 (leafOf phys flags) x = s₁.mem x := fun x hx => by
    refine store_table fun hxy => ?_
    rcases (hgrown.node x).mp hx with hx | hx
    · exact hynode (hxy ▸ hx)
    · exact hyfree (hxy ▸ hgrown.takes.free_of_mem x hx)
  rw [e]
  refine ⟨?_, hgrown.takes.used_mono ((Pmm.used_mark hg.1).mpr (Or.inr rfl)), fun hnode => ?_⟩
  · rw [leafEntry_congr (fun x hx => hstore x (hx.mono (Nat.le_succ 3) (subset_refl _)))
      (Set.mem_singleton _) hv, hgrown.leaf _ (Set.mem_singleton _) _ hv]
    exact (leafEntry_congr (fun x hx => hagree x (hx.mono (Nat.le_succ 3) (subset_refl _)))
      (Set.mem_singleton _) hv).trans (h.empty _ hv hvD)
  · rw [Node.congr hstore (Nat.le_succ 4), hgrown.node, Node.congr hagree (Nat.le_succ 4)] at hnode
    rcases hnode with hnode | hM
    · exact h.tables.not_node_of_free hg hnode
    · exact (Pmm.free_mark.mp (hgrown.takes.free_of_mem g hM)).2 rfl

/-- The states in which the clone returns `NULL` from a loop: a frame could not be allocated, and
everything is given back; or a table could not before. -/
def NullState (s : Phys) (f : Nat) (S : Finset VPage) (u : Phys) : Prop :=
  (u.pmm = s.pmm ∧ (∀ g, ¬ s.pmm.Free g → u.mem g = s.mem g) ∧
    ∃ v ∈ S, s.pmm.clearBits = 1 + copyCost (pagesBelow S v.num)) ∨
  ∃ t, Starved s f S t ∧ u = vmmDestroyPml4 (pageAddr f) t

/-- **A frame fails**: all pages are given back. -/
theorem Cloned.giveUp (h : Cloned kernelPml4 s src f D L t) (hf : s.pmm.Free f) :
    (vmmDestroyPml4 (pageAddr f) t).pmm = s.pmm ∧
      ∀ g, ¬ s.pmm.Free g → (vmmDestroyPml4 (pageAddr f) t).mem g = s.mem g := by
  obtain ⟨-, hperm, hd⟩ := h.destroy hf
  rw [hd]
  refine ⟨freeAll_perm h.takes hperm, fun g hg => ?_⟩
  rw [Phys.freeAll_mem]
  exact h.mem g (h.not_mem_of_not_free hg)

theorem starved_rests (dst srcPt : U64) (hdst : dst = pageAddr f) (p4 p3 p2 p1 : Fin 512) :
    RestsIn (Starved s f S) (NullState s f S) (cloneLeaf dst srcPt p4 p3 p2 p1) := by
  intro t h
  cases he : childOf (t.entry srcPt p1) with
  | none =>
    rw [cloneLeaf, if_pos ((and_present_eq_zero _).mpr (childOf_eq_none.mp he))]
    exact .ok rfl
  | some p =>
    rcases cloneLeaf_mapped h.valid he dst p4 p3 p2 with ⟨-, e⟩ | ⟨g, hg, -⟩
    · rw [e, hdst]
      exact .error (Or.inr ⟨t, h, rfl⟩)
    · exact absurd (Pmm.clearBits_pos hg) (by rw [h.none_left]; exact Nat.lt_irrefl 0)

/-- **The innermost round** when pages may run out. -/
theorem starved_leaf (hS : IsMapped s.mem src S)
    (hsrc : ∀ g, Node childOf userIdx 4 s.mem {src} g → ¬ s.pmm.Free g) (hf : s.pmm.Free f)
    {srcPt : U64} {v : VPage} (hv : v.User)
    (hw : walk childOf s.mem src v.tables = some (pageOf srcPt))
    (h : CopiedTo (Starved s f S) kernelPml4 s src f S v.num t) :
    Ends (NullState s f S) (CopiedTo (Starved s f S) kernelPml4 s src f S (v.num + 1))
      (cloneLeaf (pageAddr f) srcPt v.p4 v.p3 v.p2 v.p1 t) := by
  rcases h with h | h
  swap
  · exact (starved_rests (pageAddr f) srcPt rfl v.p4 v.p3 v.p2 v.p1 t h).mono
      fun u hu => Or.inr (hu ▸ h)
  have hdst : pageOf (pageAddr f) = f := pageOf_pageAddr hf.lt
  rcases cloneAt_round hS hsrc hdst hv hw h with ⟨t', e, h'⟩ | ⟨hroom, hins, hvS, hvn, hent⟩
  · rw [e]
    exact .ok (Or.inl h')
  obtain ⟨p, he⟩ := Option.ne_none_iff_exists'.mp ((hS v).mp hvS).2
  obtain ⟨L, h⟩ := h
  have hbits := h.takes.clearBits
  have hcount := h.count
  have hcost : copyCost (pagesBelow S (v.num + 1)) ≤ copyCost S :=
    copyCost_mono (Finset.filter_subset _ _)
  have hshort := h.copyPage_short hv hvn he (hins ▸ hroom) hdst hent
    (S := S) (by unfold cloneCost; omega)
  rcases cloneLeaf_mapped h.tables.valid (hent ▸ he) (pageAddr f) v.p4 v.p3 v.p2 with
    ⟨hnone, e⟩ | ⟨g, hg, e⟩
  · have hzero := clearBits_eq_zero hnone
    obtain ⟨hpmm, hmem⟩ := h.giveUp hf
    rw [e]
    exact .error (Or.inl ⟨hpmm, hmem, v, hvS, by omega⟩)
  · have hpos := Pmm.clearBits_pos hg
    rw [e] at hshort ⊢
    cases hshort with
    | ok hex =>
      have hstarve (hnull : NullSafe s) := h.starve hnull hv hvn (hins ▸ hroom) hg
        (t.mem (pageOf (t.entry srcPt v.p1))) hdst (vpageOf_virtOf v.p4 v.p3 v.p2 v.p1)
        (pageAddr g) (t.entry srcPt v.p1 &&& 0xFFF)
      exact .ok (Or.inr ⟨hex.valid, hex.none_left, ⟨v, hvS, by omega, hroom⟩,
        fun hnull => ⟨v, hvS, (hstarve hnull).1⟩,
        fun hnull => ⟨g, ((h.takes.free_iff g).mp hg).1, (hstarve hnull).2⟩⟩)

end

/-! ## How a clone ends -/

section

variable {kernelPml4 src : U64} {s : Phys}

/-- **The four ways `vmm_clone_pml4` ends**: without a PML4, with every mapped page copied, with a
page missing in the copy, and with `NULL` from one of the loops. -/
theorem vmmClonePml4_outcome (hv : s.pmm.Valid)
    (hsrc : ∀ g, Node childOf userIdx 4 s.mem {pageOf src} g → ¬ s.pmm.Free g)
    (kernelPml4 : U64) :
    (s.pmm.clearBits = 0 ∧ vmmClonePml4 kernelPml4 src s = (0, s)) ∨
    ∃ f, s.pmm.Free f ∧ pageAddr f ≠ 0 ∧
      ((∃ L t, vmmClonePml4 kernelPml4 src s = (pageAddr f, t) ∧
        Cloned kernelPml4 s (pageOf src) f (mappedPages s.mem (pageOf src)) L t) ∨
      (∃ t, vmmClonePml4 kernelPml4 src s = (pageAddr f, t) ∧
        Starved s f (mappedPages s.mem (pageOf src)) t) ∨
      ∃ u, vmmClonePml4 kernelPml4 src s = (0, u) ∧
        NullState s f (mappedPages s.mem (pageOf src)) u) := by
  unfold vmmClonePml4
  rcases vmmNewPml4_cases hv kernelPml4 with ⟨hnone, he⟩ | ⟨f, hf, hne, he⟩
  · rw [he]
    exact Or.inl ⟨clearBits_eq_zero hnone, rfl⟩
  · rw [he]
    simp only [if_neg hne]
    refine Or.inr ⟨f, hf, hne, ?_⟩
    have hS : IsMapped s.mem (pageOf src) (mappedPages s.mem (pageOf src)) :=
      fun _ => mem_mappedPages
    have hloop := cloneAt_pml4 hS hsrc
      (fun srcPt p4 p3 p2 p1 => starved_rests (pageAddr f) srcPt rfl p4 p3 p2 p1)
      (fun srcPt v hv hw t (ht : CopiedTo _ kernelPml4 s _ f _ v.num t) =>
        starved_leaf hS hsrc hf hv hw ht) hv hf rfl
    generalize forUpToM 256 _ _ = r at hloop ⊢
    cases hloop with
    | ok ht =>
      rcases ht with ⟨L, ht⟩ | ht
      · exact Or.inl ⟨L, _, rfl, ht⟩
      · exact Or.inr (Or.inl ⟨_, rfl, ht⟩)
    | error hu => exact Or.inr (Or.inr ⟨_, rfl, hu⟩)

/-- The mapped pages have no `VMM_NX`. -/
def NxFree (m : Mem) (r : Nat) : Prop := ∀ v ∈ mappedPages m r, leafEntry m r v &&& vmmNx = 0

theorem mem_mappedPages_of_present {m : Mem} {r : Nat} {v : VPage} (hv : v.User) :
    v ∈ mappedPages m r ↔ leafEntry m r v &&& vmmPresent ≠ 0 := by
  rw [mem_mappedPages, Ne, childOf_eq_none, ← and_present_eq_zero]
  exact and_iff_right hv

theorem Cloned.completeCopy_iff {f : Nat} {L : List Nat} {t : Phys}
    (hc : Cloned kernelPml4 s (pageOf src) f (mappedPages s.mem (pageOf src)) L t)
    (h : CloneReady kernelPml4 src s) (hf : s.pmm.Free f) :
    CompleteCopy kernelPml4 src (pageAddr f) s t ↔ NxFree s.mem (pageOf src) := by
  have hpf : pageOf (pageAddr f) = f := pageOf_pageAddr hf.lt
  have hcopy : ∀ v ∈ mappedPages s.mem (pageOf src), leafEntry t.mem f v &&& vmmNx = 0 :=
    fun v hv => by
    obtain ⟨g, hl, hg, -⟩ := hc.copy v hv
    rw [hl, leafOf_nx hg.addr_lt]
    exact low_and_nx _
  constructor
  · intro hcc v hv
    have hu := (mem_mappedPages.mp hv).1
    rw [← hcc.nx v hu ((mem_mappedPages_of_present hu).mp hv), hpf, hcopy v hv]
  · intro hnx
    refine ⟨hc.deepCopy h.valid hf h.source h.kernel h.kernel_used, fun v hu hp => ?_⟩
    have hv := (mem_mappedPages_of_present hu).mpr hp
    rw [hpf, hcopy v hv, hnx v hv]

section

variable {f : Nat} {t : Phys} (ht : Starved s f (mappedPages s.mem (pageOf src)) t)
  (hnull : NullSafe s) (hf : s.pmm.Free f)
include ht hnull hf

theorem Starved.not_complete : ¬ CompleteCopy kernelPml4 src (pageAddr f) s t := by
  intro hcc
  obtain ⟨v, hv, hzero⟩ := ht.lacks hnull
  have hu := (mem_mappedPages.mp hv).1
  refine (mem_mappedPages_of_present hu).mp hv ((hcc.mapped v hu).mp ?_)
  rw [pageOf_pageAddr hf.lt, hzero]
  exact BitVec.zero_and

theorem Starved.lost (hne : pageAddr f ≠ 0) :
    ∃ g, s.pmm.Free g ∧ ¬ (vmmDestroyPml4 (pageAddr f) t).pmm.Free g := by
  obtain ⟨g, hg, hused, hnode⟩ := ht.leak hnull
  refine ⟨g, hg, fun hfree => hnode ?_⟩
  rwa [destroy_free_iff hne hused, pageOf_pageAddr hf.lt] at hfree

end

/-! ## The law and the pages there are -/

theorem copyCost_lt {D D' : Finset VPage} (h : D ⊆ D') {v : VPage} (hv : v ∈ D') (hvD : v ∉ D) :
    copyCost D < copyCost D' := by
  have hins := copyCost_insert hvD
  have hle := copyCost_mono (Finset.insert_subset hv h)
  omega

theorem pagesBelow_subset (S : Finset VPage) (i : Nat) : pagesBelow S i ⊆ S :=
  Finset.filter_subset _ S

theorem pagesBelow_mono (S : Finset VPage) {i j : Nat} (h : i ≤ j) :
    pagesBelow S i ⊆ pagesBelow S j :=
  Finset.monotone_filter_right S fun _ _ hv => Nat.lt_of_lt_of_le hv h

theorem Starved.tableFails {f : Nat} {S : Finset VPage} {t : Phys} (ht : Starved s f S t) :
    ¬ NoTableFails S s.pmm.clearBits := by
  obtain ⟨v, hv, hlo, hhi⟩ := ht.between
  rintro (hall | hzero | ⟨w, hw, hn⟩)
  · have := copyCost_mono (pagesBelow_subset S (v.num + 1))
    unfold cloneCost at hall
    omega
  · omega
  · rcases Nat.lt_or_ge v.num w.num with hlt | hge
    · have hle : v.num + 1 ≤ w.num := hlt
      have := copyCost_mono (pagesBelow_mono S hle)
      omega
    · have := copyCost_mono (pagesBelow_mono S hge)
      omega

/-- **The law holds** if no table fails to be allocated and, where the copy is finished, no page is
mapped with `VMM_NX`. -/
theorem clone_clean (h : CloneReady kernelPml4 src s)
    (hno : NoTableFails (mappedPages s.mem (pageOf src)) s.pmm.clearBits)
    (hnx : cloneCost (mappedPages s.mem (pageOf src)) ≤ s.pmm.clearBits →
      NxFree s.mem (pageOf src)) : CloneLaw kernelPml4 src s := by
  unfold CloneLaw
  rcases vmmClonePml4_outcome h.valid h.source kernelPml4 with
    ⟨-, e⟩ | ⟨f, hf, -, ⟨L, t, e, hc⟩ | ⟨t, -, ht⟩ | ⟨u, e, ⟨hpmm, hmem, -⟩ | ⟨t, ht, -⟩⟩⟩
  · rw [e]
    exact Or.inr ⟨rfl, rfl, fun _ _ => rfl, fun _ _ => rfl⟩
  · have hbits := hc.takes.clearBits
    have hcount := hc.count
    rw [e]
    exact Or.inl ((hc.completeCopy_iff h hf).mpr (hnx (by unfold cloneCost; omega)))
  · exact absurd hno ht.tableFails
  · rw [e]
    exact Or.inr ⟨rfl, hpmm, fun g hg => hmem g (h.source g hg), hmem⟩
  · exact absurd hno ht.tableFails

/-- **And only then**, if `NULL` leads to no free page. -/
theorem clone_law_only (h : CloneReady kernelPml4 src s) (hnull : NullSafe s)
    (hlaw : CloneLaw kernelPml4 src s) :
    NoTableFails (mappedPages s.mem (pageOf src)) s.pmm.clearBits ∧
      (cloneCost (mappedPages s.mem (pageOf src)) ≤ s.pmm.clearBits →
        NxFree s.mem (pageOf src)) := by
  unfold CloneLaw at hlaw
  rcases vmmClonePml4_outcome h.valid h.source kernelPml4 with
    ⟨hzero, -⟩ | ⟨f, hf, hne, ⟨L, t, e, hc⟩ | ⟨t, e, ht⟩ | ⟨u, e, ⟨-, -, v, hv, hn⟩ | ⟨t, ht, rfl⟩⟩⟩
  · refine ⟨Or.inr (Or.inl hzero), fun hle => ?_⟩
    unfold cloneCost at hle
    omega
  · have hbits := hc.takes.clearBits
    have hcount := hc.count
    rw [e] at hlaw
    refine ⟨Or.inl (by unfold cloneCost; omega), fun _ => ?_⟩
    rcases hlaw with hcc | hfail
    · exact (hc.completeCopy_iff h hf).mp hcc
    · exact absurd hfail.null hne
  · rw [e] at hlaw
    rcases hlaw with hcc | hfail
    · exact absurd hcc (ht.not_complete hnull hf)
    · exact absurd hfail.null hne
  · refine ⟨Or.inr (Or.inr ⟨v, hv, hn⟩), fun hle => ?_⟩
    have hlt := copyCost_lt (pagesBelow_subset _ v.num) hv fun hv' =>
      Nat.lt_irrefl _ (Finset.mem_filter.mp hv').2
    unfold cloneCost at hle
    omega
  · rw [e] at hlaw
    rcases hlaw with hcc | hfail
    · exact absurd rfl hcc.nonnull
    · obtain ⟨g, hg, hlost⟩ := ht.lost hnull hf hne
      exact absurd hg (hfail.pmm ▸ hlost)

/-- **When a clone that runs out of pages is clean.** The law holds if no table fails to be
allocated and no page of a finished copy has `VMM_NX`; and if `NULL` leads to no free page, it holds
only then. -/
theorem clone_law_iff (h : CloneReady kernelPml4 src s) :
    (NoTableFails (mappedPages s.mem (pageOf src)) s.pmm.freePages.toNat ∧
        (cloneCost (mappedPages s.mem (pageOf src)) ≤ s.pmm.freePages.toNat →
          NxFree s.mem (pageOf src)) →
      CloneLaw kernelPml4 src s) ∧
    (NullSafe s → CloneLaw kernelPml4 src s →
      NoTableFails (mappedPages s.mem (pageOf src)) s.pmm.freePages.toNat ∧
        (cloneCost (mappedPages s.mem (pageOf src)) ≤ s.pmm.freePages.toNat →
          NxFree s.mem (pageOf src))) := by
  rw [h.valid.counter]
  exact ⟨fun hok => clone_clean h hok.1 hok.2, clone_law_only h⟩

end

/-- A clone with enough free pages. -/
theorem clone_law_oneMapped : CloneLaw 0x1000 0x2000 oneMapped := by
  have hinv := mapInv_of_reach oneMapped_reach
  have hready : CloneReady 0x1000 0x2000 oneMapped :=
    ⟨hinv.tables.valid, fun g hg => oneMapped_forkable.not_free hg, by decide, by decide +kernel⟩
  refine (clone_law_iff hready).1 ⟨Or.inl oneMapped_forkable.room, fun _ v hv => ?_⟩
  rw [oneMapped_mapped, Finset.mem_singleton] at hv
  subst hv
  decide +kernel

theorem newPml4_mem_zero {s : Phys} (hv : s.pmm.Valid) (kernelPml4 : U64) :
    (vmmNewPml4 kernelPml4 s).2.mem 0 = s.mem 0 := by
  rcases vmmNewPml4_cases hv kernelPml4 with ⟨-, he⟩ | ⟨f, hf, -, he⟩
  · rw [he]
  · rw [he]
    exact update_of_ne (hv.free_ne_zero hf).symm _ _

/-- Nine pages, of which 0 and 1 are in use. -/
def ninePages : Phys := ⟨⟨fun k => if k = 0 then 3 else 0, 9, 7, by decide⟩, fun _ _ => 0⟩

theorem ninePages_valid : ninePages.pmm.Valid := ⟨by decide, by decide⟩

/-- An address space with page 3 mapped at 0x400000, in which pages 7 and 8 are left. -/
def twoLeft : Phys :=
  vmmMap 0x2000 0x400000 0x3000 7 (vmmNewPml4 0x1000 ninePages).2.alloc.2

/-- **A table fails.** With two free pages the clone has a PML4 and a frame but no table: the law
does not hold. -/
theorem clone_starved : twoLeft.pmm.freePages = 2 ∧ ¬ CloneLaw 0x1000 0x2000 twoLeft := by
  have hfresh : Fresh 0x2000 0x3000 (vmmNewPml4 0x1000 ninePages).2.alloc.2 :=
    fresh_alloc ninePages_valid (by decide) (by decide) (by decide +kernel) (by decide)
  have hv : (vpageOf 0x400000).User := by decide
  have hroom : missing (vmmNewPml4 0x1000 ninePages).2.alloc.2.mem (pageOf 0x2000)
      (vpageOf 0x400000) ≤ (vmmNewPml4 0x1000 ninePages).2.alloc.2.pmm.freePages.toNat := by
    decide +kernel
  have hpages : mappedPages twoLeft.mem (pageOf 0x2000) = {vpageOf 0x400000} :=
    hfresh.mappedPages_map 0x400000 7 hv hroom
  obtain ⟨L, hm⟩ := hfresh.mapped 0x400000 7 hv hroom
  have hready : CloneReady 0x1000 0x2000 twoLeft := by
    unfold twoLeft
    exact ⟨hm.tables.valid, hfresh.not_free (by decide) hm, by decide, by decide +kernel⟩
  -- page 0 is empty, so it leads nowhere
  have hmem : twoLeft.mem 0 = ninePages.mem 0 := by
    unfold twoLeft
    rw [hm.mem 0 (fun h0 => hfresh.tables.nonzero 0 h0 rfl)
      fun h0 => hfresh.tables.valid.free_ne_zero (hm.takes.free_of_mem 0 h0) rfl]
    rw [Phys.alloc_mem]
    exact newPml4_mem_zero ninePages_valid 0x1000
  have hnull : NullSafe twoLeft := by
    rintro g ⟨r, rfl, π, hπ, hw⟩
    rw [(walk_empty_root (fun i _ => by rw [hmem]; exact childOf_zero) hπ hw).2]
    exact fun h0 => hready.valid.free_ne_zero h0 rfl
  have hfree : twoLeft.pmm.freePages = 2 := by decide +kernel
  refine ⟨hfree, fun hlaw => ?_⟩
  have hno := (clone_law_only hready hnull hlaw).1
  rw [hpages, ← hready.valid.counter, hfree] at hno
  rcases hno with hall | hzero | ⟨v, hvS, hn⟩
  · exact absurd hall (by decide +kernel)
  · exact absurd hzero (by decide)
  · rw [Finset.mem_singleton.mp hvS] at hn
    exact absurd hn (by decide +kernel)

end Sinux.Mm

import Sinux.Mm.Frames
import Mathlib.Data.Finset.Union
import Mathlib.Data.Set.Finite.Basic
import Mathlib.Algebra.BigOperators.Group.Finset.Basic
import Mathlib.Algebra.BigOperators.Group.Finset.Piecewise

/-!
# Cloning an address space (`vmm_clone_pml4`)

`vmm_clone_pml4` runs through the page numbers of the user half in order. `Cloned` is what holds
when the pages `D` are copied: the clone is a tree of its own made of the pages `L` taken so far,
its leaf entries are copies for `D` and 0 elsewhere, and no other page has changed. One round of the
innermost loop adds one page to `D` (`Cloned.copyPage`), the rounds that find nothing add none
(`CloneAt.skip`), and the outer loops follow by the loop rule (`cloneAt_level`).

* `vmmClonePml4_spec`: with enough free pages the clone ends with all mapped pages copied.
-/

namespace Sinux.Mm

open Function Sinux.Lib Sinux.Lib.Radix

/-! ## The cost of a clone -/

/-- The table paths above the pages `D`. -/
def tablesOver (D : Finset VPage) : Finset (List (Fin 512)) :=
  D.biUnion fun v => v.tablePaths.toFinset

/-- The pages taken for copies of `D`: a frame each, and the tables above them. -/
def copyCost (D : Finset VPage) : Nat := D.card + (tablesOver D).card

/-- The pages `vmm_clone_pml4` takes when the pages `S` are mapped: the PML4 and the copies. -/
def cloneCost (S : Finset VPage) : Nat := 1 + copyCost S

theorem mem_tablesOver {D : Finset VPage} {ρ : List (Fin 512)} :
    ρ ∈ tablesOver D ↔ ∃ v ∈ D, ρ ∈ v.tablePaths := by
  unfold tablesOver
  simp only [Finset.mem_biUnion, List.mem_toFinset]

theorem copyCost_mono {D D' : Finset VPage} (h : D ⊆ D') : copyCost D ≤ copyCost D' := by
  have htab : tablesOver D ⊆ tablesOver D' := fun ρ hρ => by
    obtain ⟨v, hv, hρ⟩ := mem_tablesOver.mp hρ
    exact mem_tablesOver.mpr ⟨v, h hv, hρ⟩
  exact Nat.add_le_add (Finset.card_le_card h) (Finset.card_le_card htab)

theorem tablesOver_insert (v : VPage) (D : Finset VPage) :
    tablesOver (insert v D) = v.tablePaths.toFinset ∪ tablesOver D := Finset.biUnion_insert

theorem copyCost_insert {D : Finset VPage} {v : VPage} (hv : v ∉ D) :
    copyCost (insert v D) = copyCost D + 1 + (v.tablePaths.toFinset \ tablesOver D).card := by
  have htab : tablesOver (insert v D) = tablesOver D ∪ (v.tablePaths.toFinset \ tablesOver D) := by
    rw [tablesOver_insert, Finset.union_sdiff_self_eq_union, Finset.union_comm]
  have hdisj : Disjoint (tablesOver D) (v.tablePaths.toFinset \ tablesOver D) :=
    Finset.disjoint_sdiff
  unfold copyCost
  rw [htab, Finset.card_union_of_disjoint hdisj, Finset.card_insert_of_notMem hv]
  omega

theorem missing_eq_card (m : Mem) (r : Nat) (v : VPage) :
    missing m r v = (v.tablePaths.toFinset.filter fun ρ => walk childOf m r ρ = none).card := by
  have h1 : [v.p4] ∉ ({[v.p4, v.p3], v.tables} : Finset (List (Fin 512))) := by
    simp [VPage.tables]
  have h2 : [v.p4, v.p3] ∉ ({v.tables} : Finset (List (Fin 512))) := by
    simp [VPage.tables]
  have hset : v.tablePaths.toFinset = {[v.p4], [v.p4, v.p3], v.tables} := by
    simp [VPage.tablePaths]
  rw [hset, Finset.card_filter, Finset.sum_insert h1, Finset.sum_insert h2, Finset.sum_singleton]
  unfold missing
  omega

/-! ## What holds while cloning -/

/-- The clone in frame `f` of the address space `src` of `s`, with the pages `D` copied and the
pages `L` taken. -/
structure Cloned (kernelPml4 : U64) (s : Phys) (src f : Nat) (D : Finset VPage) (L : List Nat)
    (t : Phys) : Prop where
  user : ∀ v ∈ D, v.User
  takes : s.pmm.Takes L t.pmm
  tables : Tables 4 {f} t
  /-- The pages taken are those of the clone. -/
  node : ∀ g, Node childOf userIdx 4 t.mem {f} g ↔ g ∈ L
  /-- Nothing else is written. -/
  mem : ∀ g, g ∉ L → t.mem g = s.mem g
  empty : ∀ v : VPage, v.User → v ∉ D → leafEntry t.mem f v = 0
  copy : ∀ v ∈ D, ∃ g, leafEntry t.mem f v = leafOf (pageAddr g) (leafEntry s.mem src v &&& 0xFFF) ∧
    s.pmm.Free g ∧ t.mem g = s.mem (pageOf (leafEntry s.mem src v))
  path : ∀ ρ, Path userIdx 3 ρ → ρ ≠ [] → (walk childOf t.mem f ρ = none ↔ ρ ∉ tablesOver D)
  count : L.length = 1 + copyCost D
  kernelHalf : ∀ i, ¬ userIdx i → t.mem f i = freshPml4 kernelPml4 s.mem f i

section

variable {kernelPml4 : U64} {s : Phys} {src f : Nat} {D : Finset VPage} {L : List Nat} {t : Phys}

theorem cloned_newPml4 (hv : s.pmm.Valid) (hf : s.pmm.Free f) :
    Cloned kernelPml4 s src f ∅ [f]
      ⟨s.pmm.mark f, update s.mem f (freshPml4 kernelPml4 s.mem f)⟩ := by
  obtain ⟨htab, hnode⟩ := (tables_empty hv : Tables 4 ∅ s).newRoot hf kernelPml4
  rw [insert_empty_eq] at htab hnode
  have hno : ∀ g, ¬ Node childOf userIdx 4 s.mem ∅ g := fun g ⟨_, h, _⟩ => h
  refine ⟨fun v hv' => absurd hv' (Finset.notMem_empty v), Pmm.Takes.single hf, htab,
    fun g => ?_, fun g hg => ?_, fun v hv' _ => ?_,
    fun v hv' => absurd hv' (Finset.notMem_empty v), fun ρ hρ hne => ?_, rfl, fun i _ => ?_⟩
  · rw [hnode g, List.mem_singleton]
    exact or_iff_right (hno g)
  · rw [List.mem_singleton] at hg
    exact update_of_ne hg _ _
  · exact leafEntry_freshPml4 hv'
  · refine iff_of_true ?_ (by simp [tablesOver])
    cases hw : walk childOf (update s.mem f (freshPml4 kernelPml4 s.mem f)) f ρ with
    | none => rfl
    | some g =>
      refine absurd (walk_empty_root (fun i hi => ?_) hρ hw).1 hne
      rw [update_self, childOf_freshPml4 hi]
  · exact congrFun (update_self ..) i

theorem Cloned.not_mem_of_not_free (h : Cloned kernelPml4 s src f D L t) {g : Nat}
    (hg : ¬ s.pmm.Free g) : g ∉ L := fun hL => hg (h.takes.free_of_mem g hL)

theorem low_and_nx (e : U64) : (e &&& 0xFFF) &&& vmmNx = 0 := by
  rw [BitVec.and_assoc, show (0xFFF : U64) &&& vmmNx = 0 from by decide]
  exact BitVec.and_zero

theorem VPage.path_of_mem_tablePaths {v : VPage} (hv : v.User) {ρ : List (Fin 512)}
    (hρ : ρ ∈ v.tablePaths) : Path userIdx 3 ρ ∧ ρ ≠ [] := by
  simp only [tablePaths, tables, List.mem_cons, List.not_mem_nil, or_false] at hρ
  rcases hρ with rfl | rfl | rfl <;>
    exact ⟨⟨by simp, fun i hi => by cases hi; exact hv⟩, by simp⟩

theorem Cloned.missing_eq (h : Cloned kernelPml4 s src f D L t) {v : VPage} (hv : v.User) :
    missing t.mem f v = (v.tablePaths.toFinset \ tablesOver D).card := by
  rw [missing_eq_card]
  congr 1
  ext ρ
  rw [Finset.mem_filter, Finset.mem_sdiff, List.mem_toFinset]
  refine and_congr_right fun hρ => ?_
  obtain ⟨hρ3, hρ0⟩ := VPage.path_of_mem_tablePaths hv hρ
  rw [h.path ρ hρ3 hρ0]

/-- Mapping a fresh frame with the contents of the page's frame adds the page to the copies. -/
theorem Cloned.addPage (h : Cloned kernelPml4 s src f D L t) {v : VPage} (hv : v.User)
    (hvD : v ∉ D) {g : Nat} {M : List Nat} {t' : Phys}
    (hm : FrameMapped {f} f v (leafEntry s.mem src v &&& 0xFFF) g
      (s.mem (pageOf (leafEntry s.mem src v))) M t t') :
    Cloned kernelPml4 s src f (insert v D) (L ++ g :: M) t' := by
  have hf : f ∈ ({f} : Set Nat) := rfl
  have hfree : ∀ x ∈ g :: M, s.pmm.Free x := fun x hx =>
    ((h.takes.free_iff x).mp (hm.takes.free_of_mem x hx)).1
  have hold : childOf (leafEntry t.mem f v) = none := by
    rw [h.empty v hv hvD, childOf_zero]
  have hnode := hm.node hold
  refine ⟨fun w hw => ?_, h.takes.append hm.takes, hm.tables, fun x => ?_, fun x hx => ?_,
    fun w hw hwD => ?_, fun w hw => ?_, fun ρ hρ hρ0 => ?_, ?_, fun i hi => ?_⟩
  · rcases Finset.mem_insert.mp hw with rfl | hw
    · exact hv
    · exact h.user w hw
  · rw [hnode, h.node, List.mem_append]
  · rw [List.mem_append, not_or] at hx
    rw [hm.mem x (fun hx' => hx.1 ((h.node x).mp (hx'.mono (Nat.le_succ 3) (subset_refl _)))) hx.2,
      h.mem x hx.1]
  · rw [Finset.mem_insert, not_or] at hwD
    rw [hm.leaf f hf w hw, if_neg fun hx => hwD.1 hx.2, h.empty w hw hwD.2]
  · by_cases hwv : w = v
    · subst hwv
      exact ⟨g, by rw [hm.leaf f hf w hv, if_pos ⟨rfl, rfl⟩], hfree g List.mem_cons_self, hm.frame⟩
    · have hwD : w ∈ D := (Finset.mem_insert.mp hw).resolve_left hwv
      obtain ⟨x, hl, hx, hc⟩ := h.copy w hwD
      -- a frame copied before is no table and not taken now, so it keeps its contents
      have hchild : childOf (leafEntry t.mem f w) = some x := by
        rw [hl, childOf_leafOf (low_and_nx _), pageOf_pageAddr hx.lt]
      obtain ⟨-, hfr⟩ := tables_four.mp h.tables
      have hxM : x ∉ g :: M := fun hxM => Pmm.not_free_of_used
        (hfr.used f hf w (h.user w hwD) x hchild).1 (hm.takes.free_of_mem x hxM)
      refine ⟨x, ?_, hx, ?_⟩
      · rw [hm.leaf f hf w (h.user w hwD), if_neg fun hx => hwv hx.2, hl]
      · rw [hm.mem x (hfr.notTable f hf w (h.user w hwD) x hchild) hxM, hc]
  · rw [hm.path f hf ρ hρ, h.path ρ hρ hρ0, tablesOver_insert, Finset.mem_union, List.mem_toFinset]
    tauto
  · have := hm.count
    rw [h.missing_eq hv] at this
    rw [List.length_append, List.length_cons, h.count, this, copyCost_insert hvD]
    omega
  · rw [hm.kernelHalf f hf i hi, h.kernelHalf i hi]

/-- **The innermost round at a mapped page**: without a free page the clone is given up, otherwise
the frame's contents go to a fresh page, which is mapped. -/
theorem cloneLeaf_mapped (hv : t.pmm.Valid) {srcPt : U64} {p1 : Fin 512} {p : Nat}
    (he : childOf (t.entry srcPt p1) = some p) (dst : U64) (p4 p3 p2 : Fin 512) :
    ((∀ g, ¬ t.pmm.Free g) ∧
      cloneLeaf dst srcPt p4 p3 p2 p1 t = .error (vmmDestroyPml4 dst t)) ∨
    ∃ g, t.pmm.Free g ∧ cloneLeaf dst srcPt p4 p3 p2 p1 t =
      .ok (vmmMap dst (virtOf p4 p3 p2 p1) (pageAddr g) (t.entry srcPt p1 &&& 0xFFF)
        ⟨t.pmm.mark g, update t.mem g (t.mem (pageOf (t.entry srcPt p1)))⟩) := by
  obtain ⟨hbit, -⟩ := childOf_eq_some.mp he
  unfold cloneLeaf
  rw [if_neg (by rw [and_present_eq_zero, hbit]; exact Bool.noConfusion)]
  rcases Phys.alloc_cases hv with ⟨hnone, hal⟩ | ⟨g, hg, -, hne, hal⟩
  · rw [hal]
    exact Or.inl ⟨hnone, rfl⟩
  · rw [hal]
    simp only [if_neg hne, Phys.kmemcpyPage, pageOf_pageAddr hg.lt, pageOf_pageMask]
    exact Or.inr ⟨g, hg, rfl⟩

/-- **One page is copied.** The innermost round at a mapped page `v` takes a frame, fills it and
maps it. -/
theorem Cloned.copyPage (h : Cloned kernelPml4 s src f D L t) {v : VPage} (hv : v.User)
    (hvD : v ∉ D) {p : Nat} (he : childOf (leafEntry s.mem src v) = some p)
    (hp : ¬ s.pmm.Free p) (hroom : 1 + copyCost (insert v D) ≤ s.pmm.clearBits) {dst srcPt : U64}
    (hdst : pageOf dst = f) (hpt : t.entry srcPt v.p1 = leafEntry s.mem src v) :
    ∃ L' t', cloneLeaf dst srcPt v.p4 v.p3 v.p2 v.p1 t = .ok t' ∧
      Cloned kernelPml4 s src f (insert v D) L' t' := by
  have hcost := copyCost_insert hvD
  have hbits := h.takes.clearBits
  have hcount := h.count
  have hmiss := h.missing_eq hv
  have hvirt : vpageOf (virtOf v.p4 v.p3 v.p2 v.p1) = v := vpageOf_virtOf v.p4 v.p3 v.p2 v.p1
  rcases cloneLeaf_mapped h.tables.valid (hpt ▸ he) dst v.p4 v.p3 v.p2 with ⟨hnone, -⟩ | ⟨g, hg, e⟩
  · obtain ⟨i, hi⟩ := exists_free_of_clearBits_pos (s := t.pmm) (by omega)
    exact absurd hi (hnone i)
  · rw [hpt, h.mem _ (h.not_mem_of_not_free ((childOf_eq_some.mp he).2 ▸ hp))] at e
    subst hdst
    obtain ⟨M, hm⟩ := vmmMap_frame h.tables (Set.mem_singleton (pageOf dst))
      (hvirt.symm ▸ hv) (low_and_nx (leafEntry s.mem src v)) hg
      (s.mem (pageOf (leafEntry s.mem src v))) (by rw [hvirt]; omega)
    rw [hvirt] at hm
    exact ⟨L ++ g :: M, _, e, h.addPage hv hvD hm⟩

/-- No free page is left, and the clone needed more than there were. -/
structure Exhausted (s : Phys) (S : Finset VPage) (t : Phys) : Prop where
  valid : t.pmm.Valid
  none_left : t.pmm.clearBits = 0
  short : s.pmm.clearBits < cloneCost S

/-- A frame is there but not all of its tables: more of them are missing than pages are left. -/
theorem Cloned.tables_short (h : Cloned kernelPml4 s src f D L t) {v : VPage} (hv : v.User)
    (hvD : v ∉ D) (hroom : s.pmm.clearBits < 1 + copyCost (insert v D)) {g : Nat}
    (hg : t.pmm.Free g) (c : Fin 512 → U64) :
    (t.pmm.mark g).clearBits < missing (update t.mem g c) f v := by
  have hcost := copyCost_insert hvD
  have hbits := h.takes.clearBits
  have hcount := h.count
  have hmark := Pmm.clearBits_mark hg
  rw [missing_congr (fun ρ hρ => h.tables.walk_fill hg c (Set.mem_singleton f) hρ) hv,
    h.missing_eq hv]
  omega

/-- Without enough pages for the frame and its tables, the innermost round takes what there is. -/
theorem Cloned.copyPage_short (h : Cloned kernelPml4 s src f D L t) {v : VPage} (hv : v.User)
    (hvD : v ∉ D) {p : Nat} (he : childOf (leafEntry s.mem src v) = some p)
    (hroom : s.pmm.clearBits < 1 + copyCost (insert v D)) {dst srcPt : U64}
    (hdst : pageOf dst = f) (hpt : t.entry srcPt v.p1 = leafEntry s.mem src v) {S : Finset VPage}
    (hshort : s.pmm.clearBits < cloneCost S) :
    Steps (s.pmm.clearBits < cloneCost S) (Exhausted s S)
      (cloneLeaf dst srcPt v.p4 v.p3 v.p2 v.p1 t) := by
  have hvirt : vpageOf (virtOf v.p4 v.p3 v.p2 v.p1) = v := vpageOf_virtOf v.p4 v.p3 v.p2 v.p1
  rcases cloneLeaf_mapped h.tables.valid (hpt ▸ he) dst v.p4 v.p3 v.p2 with ⟨-, e⟩ | ⟨g, hg, e⟩
  · rw [e]
    exact .error hshort
  · rw [e]
    subst hdst
    have hfill := (h.tables.fill hg (t.mem (pageOf (t.entry srcPt v.p1)))).1
    refine .ok ⟨vmmMap_valid hfill.valid _ _ _ _, Nat.eq_zero_of_not_pos fun hleft => ?_, hshort⟩
    have hle := missing_le_of_vmmMap hfill (Nat.le_succ 3) (Set.mem_singleton _)
      (hvirt.symm ▸ hv) hleft
    rw [hvirt] at hle
    exact Nat.not_lt.mpr hle (h.tables_short hv hvD hroom hg _)

end

/-! ## The loops -/

section

/-- The mapped pages with numbers below `pos`. -/
def pagesBelow (S : Finset VPage) (pos : Nat) : Finset VPage := S.filter fun v => v.num < pos

/-- The clone has copied every mapped page below `pos`. -/
def CloneAt (kernelPml4 : U64) (s : Phys) (src f : Nat) (S : Finset VPage) (pos : Nat) (t : Phys) :
    Prop :=
  ∃ L, Cloned kernelPml4 s src f (pagesBelow S pos) L t

/-- The mapped pages of the user half of `src`. -/
def IsMapped (m : Mem) (src : Nat) (S : Finset VPage) : Prop :=
  ∀ v : VPage, v ∈ S ↔ v.User ∧ childOf (leafEntry m src v) ≠ none

variable {kernelPml4 : U64} {s : Phys} {src f : Nat} {S : Finset VPage} {t : Phys}

theorem CloneAt.skip {lo hi : Nat} (h : CloneAt kernelPml4 s src f S lo t) (hle : lo ≤ hi)
    (hnone : ∀ v ∈ S, lo ≤ v.num → ¬ v.num < hi) : CloneAt kernelPml4 s src f S hi t := by
  have : pagesBelow S hi = pagesBelow S lo := by
    refine Finset.filter_congr fun v hv => ?_
    have := hnone v hv
    omega
  unfold CloneAt
  rw [this]
  exact h

theorem CloneAt.entry {lo : Nat} (h : CloneAt kernelPml4 s src f S lo t)
    (hsrc : ∀ g, Node childOf userIdx 4 s.mem {src} g → ¬ s.pmm.Free g) {ρ : List (Fin 512)}
    (hρ : Path userIdx 3 ρ) {table : U64} (hw : walk childOf s.mem src ρ = some (pageOf table))
    (i : Fin 512) : t.entry table i = s.mem (pageOf table) i := by
  obtain ⟨L, h⟩ := h
  have hn : Node childOf userIdx 4 s.mem {src} (pageOf table) :=
    ⟨src, rfl, ρ, hρ.mono (Nat.le_succ 3), hw⟩
  exact congrFun (h.mem _ (h.not_mem_of_not_free (hsrc _ hn))) i

theorem leafEntry_of_walk_none {m : Mem} {r : Nat} {ρ : List (Fin 512)} {v : VPage}
    (hw : walk childOf m r ρ = none) (hpre : ρ <+: v.tables) : leafEntry m r v = 0 := by
  obtain ⟨σ, hσ⟩ := hpre
  unfold leafEntry
  rw [← hσ, walk_append, hw]
  rfl

/-! ### Without free pages -/

theorem Exhausted.alloc (h : Exhausted s S t) : t.alloc = (0, t) := by
  rcases Phys.alloc_cases h.valid with ⟨-, he⟩ | ⟨g, hg, -⟩
  · exact he
  · exact absurd (Pmm.clearBits_pos hg) (by rw [h.none_left]; exact Nat.lt_irrefl 0)

/-- Without free pages the loops change nothing, or return early. -/
def StaysPut (s : Phys) (S : Finset VPage) (body : Phys → Except Phys Phys) : Prop :=
  ∀ t, Exhausted s S t → Steps (s.pmm.clearBits < cloneCost S) (· = t) (body t)

theorem staysPut_leaf (dst srcPt : U64) (p4 p3 p2 p1 : Fin 512) :
    StaysPut s S (cloneLeaf dst srcPt p4 p3 p2 p1) := by
  intro t h
  unfold cloneLeaf
  split
  · exact .ok rfl
  · rw [h.alloc]
    exact .error h.short

/-! ### The rounds -/

/-- Where the loops are at `pos`: every mapped page below is copied, or no free page is left. -/
def Reached (kernelPml4 : U64) (s : Phys) (src f : Nat) (S : Finset VPage) (pos : Nat) (t : Phys) :
    Prop :=
  CloneAt kernelPml4 s src f S pos t ∨ Exhausted s S t

variable (hS : IsMapped s.mem src S)
  (hsrc : ∀ g, Node childOf userIdx 4 s.mem {src} g → ¬ s.pmm.Free g)
include hS hsrc

/-- **The innermost round**, all mapped pages below `v` being copied: those below the next page are
copied afterwards, or `v` is mapped and there were not enough pages for its copy. -/
theorem cloneAt_round {dst srcPt : U64} (hdst : pageOf dst = f) {v : VPage} (hv : v.User)
    (hw : walk childOf s.mem src v.tables = some (pageOf srcPt))
    (h : CloneAt kernelPml4 s src f S v.num t) :
    (∃ t', cloneLeaf dst srcPt v.p4 v.p3 v.p2 v.p1 t = .ok t' ∧
      CloneAt kernelPml4 s src f S (v.num + 1) t') ∨
    (s.pmm.clearBits < 1 + copyCost (pagesBelow S (v.num + 1)) ∧
      pagesBelow S (v.num + 1) = insert v (pagesBelow S v.num) ∧ v ∈ S ∧ v ∉ pagesBelow S v.num ∧
      t.entry srcPt v.p1 = leafEntry s.mem src v) := by
  have hent : t.entry srcPt v.p1 = leafEntry s.mem src v := by
    rw [h.entry hsrc (v.path_tables hv (le_refl 3)) hw]
    unfold leafEntry
    rw [hw]
  cases he : childOf (leafEntry s.mem src v) with
  | none =>
    refine Or.inl ⟨t, ?_, h.skip (Nat.le_succ _) fun w hwS hlo hhi => ?_⟩
    · unfold cloneLeaf
      rw [hent, if_pos ((and_present_eq_zero _).mpr (childOf_eq_none.mp he))]
    · have : w = v := VPage.num_inj (by omega)
      exact ((hS w).mp hwS).2 (this ▸ he)
  | some p =>
    have hvS : v ∈ S := (hS v).mpr ⟨hv, by rw [he]; simp⟩
    have hins : pagesBelow S (v.num + 1) = insert v (pagesBelow S v.num) := by
      ext w
      simp only [pagesBelow, Finset.mem_insert, Finset.mem_filter]
      constructor
      · rintro ⟨hwS, hlt⟩
        by_cases hwv : w.num = v.num
        · exact Or.inl (VPage.num_inj hwv)
        · exact Or.inr ⟨hwS, by omega⟩
      · rintro (rfl | ⟨hwS, hlt⟩)
        · exact ⟨hvS, Nat.lt_succ_self _⟩
        · exact ⟨hwS, by omega⟩
    have hvn : v ∉ pagesBelow S v.num := fun hv' => by
      have := (Finset.mem_filter.mp hv').2
      omega
    have hp : ¬ s.pmm.Free p := hsrc p (node_four.mpr (Or.inr ⟨src, rfl, v, hv, he⟩))
    by_cases hroom : 1 + copyCost (pagesBelow S (v.num + 1)) ≤ s.pmm.clearBits
    · obtain ⟨L, h⟩ := h
      obtain ⟨L', t', e, h'⟩ := h.copyPage hv hvn he hp (hins ▸ hroom) hdst hent
      rw [← hins] at h'
      exact Or.inl ⟨t', e, L', h'⟩
    · exact Or.inr ⟨Nat.lt_of_not_le hroom, hins, hvS, hvn, hent⟩

theorem cloneAt_leaf {dst srcPt : U64} (hdst : pageOf dst = f) {v : VPage} (hv : v.User)
    (hw : walk childOf s.mem src v.tables = some (pageOf srcPt))
    (h : Reached kernelPml4 s src f S v.num t) :
    Steps (s.pmm.clearBits < cloneCost S) (Reached kernelPml4 s src f S (v.num + 1))
      (cloneLeaf dst srcPt v.p4 v.p3 v.p2 v.p1 t) := by
  rcases h with h | h
  swap
  · exact (staysPut_leaf dst srcPt v.p4 v.p3 v.p2 v.p1 t h).mono fun u hu => Or.inr (hu ▸ h)
  rcases cloneAt_round hS hsrc hdst hv hw h with ⟨t', e, h'⟩ | ⟨hroom, hins, hvS, hvn, hent⟩
  · rw [e]
    exact .ok (Or.inl h')
  · obtain ⟨p, he⟩ := Option.ne_none_iff_exists'.mp ((hS v).mp hvS).2
    obtain ⟨L, h⟩ := h
    have hcost : copyCost (pagesBelow S (v.num + 1)) ≤ copyCost S :=
      copyCost_mono (Finset.filter_subset _ _)
    exact (h.copyPage_short hv hvn he (hins ▸ hroom) hdst hent
      (by unfold cloneCost; omega)).mono fun u => Or.inr

/-! ### The outer loops

What happens without free pages is left open here: `X` are the states in which the loops change
nothing any more, and `Q` the states in which they return early. -/

/-- Every mapped page below `pos` is copied, or the loops are at rest. -/
def CopiedTo (X : Phys → Prop) (kernelPml4 : U64) (s : Phys) (src f : Nat) (S : Finset VPage)
    (pos : Nat) (t : Phys) : Prop :=
  CloneAt kernelPml4 s src f S pos t ∨ X t

/-- In the states `X` the loop body changes nothing, or returns early with `Q`. -/
def RestsIn (X Q : Phys → Prop) (body : Phys → Except Phys Phys) : Prop :=
  ∀ t, X t → Ends Q (· = t) (body t)

variable {X Q : Phys → Prop}

omit hS hsrc in
theorem RestsIn.level {body : U64 → Fin 512 → Phys → Except Phys Phys}
    (hbody : ∀ child j, RestsIn X Q (body child j)) (table : U64) (i : Fin 512) :
    RestsIn X Q fun t => if t.entry table i &&& vmmPresent = 0 then .ok t
      else forUpToM 512 (body (pageMask (t.entry table i))) t := by
  intro t h
  dsimp only
  split
  · exact .ok rfl
  · refine forUpToM_ends (P := fun u => u = t) rfl fun j u hu => ?_
    subst hu
    exact hbody _ j u h

/-- **One level up.** A round over entry `i` of a source table runs the inner loop over the table
below, or skips all pages under the entry. -/
theorem cloneAt_level {ρ : List (Fin 512)} {i : Fin 512} {lo width : Nat} {table : U64}
    (body : U64 → Fin 512 → Phys → Except Phys Phys) (hρ : Path userIdx 3 (ρ ++ [i]))
    (hw : walk childOf s.mem src ρ = some (pageOf table))
    (hunder : ∀ v : VPage, lo ≤ v.num → v.num < lo + 512 * width → ρ ++ [i] <+: v.tables)
    (hbody : ∀ child, walk childOf s.mem src (ρ ++ [i]) = some (pageOf child) →
      ∀ (j : Fin 512) t, CopiedTo X kernelPml4 s src f S (lo + j * width) t →
        Ends Q (CopiedTo X kernelPml4 s src f S (lo + (j + 1) * width)) (body child j t))
    (hrest : ∀ child j, RestsIn X Q (body child j)) (h : CopiedTo X kernelPml4 s src f S lo t) :
    Ends Q (CopiedTo X kernelPml4 s src f S (lo + 512 * width))
      (if t.entry table i &&& vmmPresent = 0 then .ok t
        else forUpToM 512 (body (pageMask (t.entry table i))) t) := by
  rcases h with h | h
  swap
  · exact (RestsIn.level hrest table i t h).mono fun u hu => Or.inr (hu ▸ h)
  have hent := h.entry hsrc hρ.of_append hw i
  have hchild : walk childOf s.mem src (ρ ++ [i]) = childOf (s.mem (pageOf table) i) := by
    rw [walk_concat, hw, Option.bind_some]
  rw [hent]
  by_cases hp : s.mem (pageOf table) i &&& vmmPresent = 0
  · rw [if_pos hp]
    rw [childOf_eq_none.mpr ((and_present_eq_zero _).mp hp)] at hchild
    refine .ok (Or.inl (h.skip (Nat.le_add_right _ _) fun v hvS hlo hhi => ?_))
    have := leafEntry_of_walk_none hchild (hunder v hlo hhi)
    exact ((hS v).mp hvS).2 (by rw [this, childOf_zero])
  · rw [if_neg hp]
    rw [and_present_eq_zero, Bool.not_eq_false] at hp
    rw [childOf_eq_some.mpr ⟨hp, rfl⟩] at hchild
    refine forUpToM_run (fun j t => CopiedTo X kernelPml4 s src f S (lo + j * width) t) _ ?_ ?_
    · rw [Nat.zero_mul, Nat.add_zero]
      exact Or.inl h
    · exact fun j t hj => hbody _ (by rw [hchild, pageOf_pageMask]) j t hj

section Levels

variable {dst : U64} {p4 p3 p2 : Fin 512} (hu : userIdx p4)
  (hrest : ∀ srcPt p4 p3 p2 p1, RestsIn X Q (cloneLeaf dst srcPt p4 p3 p2 p1))
  (hleaf : ∀ (srcPt : U64) (v : VPage), v.User →
    walk childOf s.mem src v.tables = some (pageOf srcPt) → ∀ t,
      CopiedTo X kernelPml4 s src f S v.num t →
        Ends Q (CopiedTo X kernelPml4 s src f S (v.num + 1))
          (cloneLeaf dst srcPt v.p4 v.p3 v.p2 v.p1 t))
include hu hrest hleaf

omit hS hsrc hrest hleaf in
theorem path_user {σ : List (Fin 512)} (hσ : σ.length ≤ 2) : Path userIdx 3 (p4 :: σ) :=
  ⟨by rw [List.length_cons]; omega, fun i hi => by cases hi; exact hu⟩

theorem cloneAt_pt {srcPdt : U64} (hw : walk childOf s.mem src [p4, p3] = some (pageOf srcPdt))
    (h : CopiedTo X kernelPml4 s src f S (((p4 * 512 + p3) * 512 + p2) * 512) t) :
    Ends Q (CopiedTo X kernelPml4 s src f S (((p4 * 512 + p3) * 512 + p2 + 1) * 512))
      (clonePt dst srcPdt p4 p3 p2 t) := by
  have hρ : Path userIdx 3 ([p4, p3] ++ [p2]) := path_user hu (by simp)
  have hunder : ∀ v : VPage, ((p4 * 512 + p3) * 512 + p2) * 512 ≤ v.num →
      v.num < ((p4 * 512 + p3) * 512 + p2) * 512 + 512 * 1 → [p4, p3] ++ [p2] <+: v.tables := by
    rintro ⟨a, b, c, d⟩ hlo hhi
    simp only [VPage.num] at hlo hhi
    obtain ⟨rfl, rfl, rfl⟩ : p4 = a ∧ p3 = b ∧ p2 = c := ⟨by omega, by omega, by omega⟩
    exact List.prefix_rfl
  rw [show ∀ n : Nat, (n + 1) * 512 = n * 512 + 512 * 1 by omega]
  refine cloneAt_level hS hsrc (fun child => cloneLeaf dst child p4 p3 p2) hρ hw hunder
    (fun child hc j t hj => ?_) (fun child j => hrest child p4 p3 p2 j) h
  have hnum : (VPage.mk p4 p3 p2 j).num = ((p4 * 512 + p3) * 512 + p2) * 512 + j * 1 := by
    simp only [VPage.num]
    omega
  rw [← hnum] at hj
  have hround := hleaf child ⟨p4, p3, p2, j⟩ hu hc t hj
  rwa [hnum, show ∀ n m : Nat, n + m * 1 + 1 = n + (m + 1) * 1 by omega] at hround

theorem cloneAt_pdt {srcPdpt : U64} (hw : walk childOf s.mem src [p4] = some (pageOf srcPdpt))
    (h : CopiedTo X kernelPml4 s src f S ((p4 * 512 + p3) * 512 * 512) t) :
    Ends Q (CopiedTo X kernelPml4 s src f S ((p4 * 512 + p3 + 1) * 512 * 512))
      (clonePdt dst srcPdpt p4 p3 t) := by
  have hρ : Path userIdx 3 ([p4] ++ [p3]) := path_user hu (by simp)
  have hunder : ∀ v : VPage, (p4 * 512 + p3) * 512 * 512 ≤ v.num →
      v.num < (p4 * 512 + p3) * 512 * 512 + 512 * 512 → [p4] ++ [p3] <+: v.tables := by
    rintro ⟨a, b, c, d⟩ hlo hhi
    simp only [VPage.num] at hlo hhi
    obtain ⟨rfl, rfl⟩ : p4 = a ∧ p3 = b := ⟨by omega, by omega⟩
    exact ⟨[c], rfl⟩
  rw [show ∀ n : Nat, (n + 1) * 512 * 512 = n * 512 * 512 + 512 * 512 by omega]
  refine cloneAt_level hS hsrc (fun child => clonePt dst child p4 p3) hρ hw hunder
    (fun child hc j t hj => ?_)
    (fun child j => .level (fun child p1 => hrest child p4 p3 j p1) child j) h
  rw [show ∀ n m : Nat, n * 512 * 512 + m * 512 = (n * 512 + m) * 512 by omega] at hj
  rw [show ∀ n m : Nat, n * 512 * 512 + (m + 1) * 512 = (n * 512 + m + 1) * 512 by omega]
  exact cloneAt_pt hS hsrc hu hrest hleaf hc hj

theorem cloneAt_pdpt {pml4 : U64} (hsrc' : pageOf pml4 = src)
    (h : CopiedTo X kernelPml4 s src f S (p4 * 512 * 512 * 512) t) :
    Ends Q (CopiedTo X kernelPml4 s src f S ((p4 + 1) * 512 * 512 * 512))
      (clonePdpt dst pml4 p4 t) := by
  have hρ : Path userIdx 3 ([] ++ [p4]) := path_user hu (by simp)
  have hw : walk childOf s.mem src [] = some (pageOf pml4) := by rw [hsrc']; rfl
  have hunder : ∀ v : VPage, p4 * 512 * 512 * 512 ≤ v.num →
      v.num < p4 * 512 * 512 * 512 + 512 * (512 * 512) → [] ++ [p4] <+: v.tables := by
    rintro ⟨a, b, c, d⟩ hlo hhi
    simp only [VPage.num] at hlo hhi
    obtain rfl : p4 = a := by omega
    exact ⟨[b, c], rfl⟩
  rw [show ∀ n : Nat, (n + 1) * 512 * 512 * 512 = n * 512 * 512 * 512 + 512 * (512 * 512) by omega]
  refine cloneAt_level hS hsrc (fun child => clonePdt dst child p4) hρ hw hunder
    (fun child hc j t hj => ?_) (fun child j => .level (fun child p2 =>
      .level (fun child p1 => hrest child p4 j p2 p1) child p2) child j) h
  rw [show ∀ n m : Nat, n * 512 * 512 * 512 + m * (512 * 512) = (n * 512 + m) * 512 * 512
    by omega] at hj
  rw [show ∀ n m : Nat, n * 512 * 512 * 512 + (m + 1) * (512 * 512) = (n * 512 + m + 1) * 512 * 512
    by omega]
  exact cloneAt_pdt hS hsrc hu hrest hleaf hc hj

omit hu in
/-- **The loops of `vmm_clone_pml4`**, from what its innermost round does. -/
theorem cloneAt_pml4 (hv : s.pmm.Valid) (hf : s.pmm.Free f) {pml4 : U64}
    (hpml4 : pageOf pml4 = src) :
    Ends Q (fun t => (∃ L, Cloned kernelPml4 s src f S L t) ∨ X t)
      (forUpToM 256 (fun p4 => clonePdpt dst pml4 (p4.castLE (by decide)))
        ⟨s.pmm.mark f, update s.mem f (freshPml4 kernelPml4 s.mem f)⟩) := by
  have h0 : CloneAt kernelPml4 s src f S 0
      ⟨s.pmm.mark f, update s.mem f (freshPml4 kernelPml4 s.mem f)⟩ := by
    refine ⟨[f], ?_⟩
    rw [show pagesBelow S 0 = ∅ from Finset.filter_false_of_mem fun v _ => Nat.not_lt_zero _]
    exact cloned_newPml4 hv hf
  have hall : pagesBelow S (256 * 512 * 512 * 512) = S := by
    refine Finset.filter_true_of_mem fun v hvS => ?_
    have hu : v.p4.val < 256 := ((hS v).mp hvS).1
    simp only [VPage.num]
    omega
  have hloop := forUpToM_run
    (fun p4 t => CopiedTo X kernelPml4 s src f S (p4 * 512 * 512 * 512) t)
    (fun p4 : Fin 256 => clonePdpt dst pml4 (p4.castLE (by decide)))
    (Or.inl (by simpa using h0)) fun p4 t ht => cloneAt_pdpt hS hsrc
      (show userIdx (p4.castLE (by decide)) from p4.isLt) hrest hleaf hpml4 ht
  refine hloop.mono fun t ht => ?_
  rcases ht with ⟨L, ht⟩ | ht
  · rw [hall] at ht
    exact Or.inl ⟨L, ht⟩
  · exact Or.inr ht

end Levels

/-- **The two outcomes of `vmm_clone_pml4`**: every mapped page is copied, or there were not enough
free pages; then it returns `NULL` or leaves no page free. -/
theorem vmmClonePml4_cases (hv : s.pmm.Valid) {pml4 : U64} (hpml4 : pageOf pml4 = src) :
    (∃ f L t, vmmClonePml4 kernelPml4 pml4 s = (pageAddr f, t) ∧ s.pmm.Free f ∧
      Cloned kernelPml4 s src f S L t) ∨
    (s.pmm.clearBits < cloneCost S ∧
      ((vmmClonePml4 kernelPml4 pml4 s).1 = 0 ∨
        (vmmClonePml4 kernelPml4 pml4 s).2.pmm.clearBits = 0)) := by
  unfold vmmClonePml4
  rcases vmmNewPml4_cases hv kernelPml4 with ⟨hnone, he⟩ | ⟨f, hf, hne, he⟩
  · right
    refine ⟨?_, Or.inl ?_⟩
    · by_contra hle
      obtain ⟨i, hi⟩ := exists_free_of_clearBits_pos (s := s.pmm)
        (by unfold cloneCost at hle; omega)
      exact hnone i hi
    · rw [he]
      rfl
  · rw [he]
    simp only [if_neg hne]
    have hrest : ∀ srcPt p4 p3 p2 p1, RestsIn (Exhausted s S)
        (fun _ => s.pmm.clearBits < cloneCost S) (cloneLeaf (pageAddr f) srcPt p4 p3 p2 p1) :=
      fun srcPt p4 p3 p2 p1 t ht =>
        steps_iff_ends.mp (staysPut_leaf (pageAddr f) srcPt p4 p3 p2 p1 t ht)
    have hloop := cloneAt_pml4 hS hsrc hrest
      (fun srcPt v hv hw t (ht : Reached kernelPml4 s src f S v.num t) =>
        steps_iff_ends.mp (cloneAt_leaf hS hsrc (pageOf_pageAddr hf.lt) hv hw ht)) hv hf hpml4
    generalize forUpToM 256 _ _ = r at hloop ⊢
    cases hloop with
    | ok h =>
      rcases h with ⟨L, h⟩ | h
      · exact Or.inl ⟨f, L, _, rfl, hf, h⟩
      · exact Or.inr ⟨h.short, Or.inr h.none_left⟩
    | error h => exact Or.inr ⟨h, Or.inl rfl⟩

/-- **`vmm_clone_pml4` copies every mapped page** when there are enough free pages. -/
theorem vmmClonePml4_spec (hv : s.pmm.Valid) (hroom : cloneCost S ≤ s.pmm.clearBits) {pml4 : U64}
    (hpml4 : pageOf pml4 = src) :
    ∃ f L t, vmmClonePml4 kernelPml4 pml4 s = (pageAddr f, t) ∧ s.pmm.Free f ∧
      Cloned kernelPml4 s src f S L t := by
  refine (vmmClonePml4_cases hS hsrc hv hpml4).resolve_right fun h => ?_
  exact absurd hroom (Nat.not_le.mpr h.1)

end

/-- The mapped pages of the user half under frame `r`. -/
noncomputable def mappedPages (m : Mem) (r : Nat) : Finset VPage :=
  (Set.toFinite {v : VPage | v.User ∧ childOf (leafEntry m r v) ≠ none}).toFinset

theorem mem_mappedPages {m : Mem} {r : Nat} {v : VPage} :
    v ∈ mappedPages m r ↔ v.User ∧ childOf (leafEntry m r v) ≠ none := by
  simp [mappedPages]

end Sinux.Mm

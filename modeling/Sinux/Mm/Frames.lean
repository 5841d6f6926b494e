import Sinux.Mm.PageTable

/-!
# Mapped frames as the fourth level

A forest of four levels is a forest of tables whose leaf entries point to distinct frames outside
the tables (`tables_four`). The operations are described by what they do to tables and leaf entries
(`Mapped`, `Unmapped`), so this is how they are shown to keep the four levels.

* `Tables.map`: mapping a page to a frame no address space reaches keeps the forest.
* `vmmMap_frame`: what taking a free page, filling it and mapping it does.
* `Tables.unmap`: unmapping a page keeps it.
-/

namespace Sinux.Mm

open Function Sinux.Lib Sinux.Lib.Radix

theorem walk_path (m : Mem) (r : Nat) (v : VPage) :
    walk childOf m r v.path = childOf (leafEntry m r v) := by
  rw [show v.path = v.tables ++ [v.p1] from rfl, walk_concat]
  unfold leafEntry
  cases walk childOf m r v.tables with
  | none => exact childOf_zero.symm
  | some t => rfl

theorem VPage.path_path (v : VPage) (hv : v.User) : Path userIdx 4 v.path :=
  ⟨le_refl 4, fun i hi => by
    simp only [path, List.head?_cons, Option.mem_def] at hi; cases hi; exact hv⟩

/-- A path of at most four steps leads to a table or to the frame of a virtual page. -/
theorem path_four {ρ : List (Fin 512)} (hρ : Path userIdx 4 ρ) :
    Path userIdx 3 ρ ∨ ∃ v : VPage, v.User ∧ ρ = v.path := by
  obtain ⟨hl, hh⟩ := hρ
  match ρ with
  | [] => exact Or.inl Path.nil
  | [a] => exact Or.inl ⟨by simp, hh⟩
  | [a, b] => exact Or.inl ⟨by simp, hh⟩
  | [a, b, c] => exact Or.inl ⟨by simp, hh⟩
  | [a, b, c, d] => exact Or.inr ⟨⟨a, b, c, d⟩, hh a rfl, rfl⟩
  | _ :: _ :: _ :: _ :: _ :: _ =>
    simp only [List.length_cons] at hl
    omega

theorem VPage.path_inj {v w : VPage} (h : v.path = w.path) : v = w := by
  obtain ⟨a, b, c, d⟩ := v
  obtain ⟨a', b', c', d'⟩ := w
  simp only [path, List.cons.injEq, and_true] at h
  obtain ⟨rfl, rfl, rfl, rfl⟩ := h
  rfl

theorem node_four {m : Mem} {roots : Set Nat} {x : Nat} :
    Node childOf userIdx 4 m roots x ↔ Node childOf userIdx 3 m roots x ∨
      ∃ r ∈ roots, ∃ v : VPage, v.User ∧ childOf (leafEntry m r v) = some x := by
  constructor
  · rintro ⟨r, hr, ρ, hρ, hw⟩
    rcases path_four hρ with hρ | ⟨v, hv, rfl⟩
    · exact Or.inl ⟨r, hr, ρ, hρ, hw⟩
    · exact Or.inr ⟨r, hr, v, hv, (walk_path m r v).symm.trans hw⟩
  · rintro (h | ⟨r, hr, v, hv, hw⟩)
    · exact h.mono (Nat.le_succ 3) (subset_refl roots)
    · exact ⟨r, hr, v.path, v.path_path hv, (walk_path m r v).trans hw⟩

/-- The mapped frames of `roots`: used, outside the tables, and mapped once. -/
structure Frames (roots : Set Nat) (s : Phys) : Prop where
  used : ∀ r ∈ roots, ∀ v : VPage, v.User → ∀ x, childOf (leafEntry s.mem r v) = some x →
    s.pmm.Used x ∧ x ≠ 0
  notTable : ∀ r ∈ roots, ∀ v : VPage, v.User → ∀ x, childOf (leafEntry s.mem r v) = some x →
    ¬ Node childOf userIdx 3 s.mem roots x
  inj : ∀ r ∈ roots, ∀ r' ∈ roots, ∀ v v' : VPage, v.User → v'.User → ∀ x,
    childOf (leafEntry s.mem r v) = some x → childOf (leafEntry s.mem r' v') = some x →
    r = r' ∧ v = v'

/-- **Four levels are three levels of tables and the mapped frames.** -/
theorem tables_four {roots : Set Nat} {s : Phys} :
    Tables 4 roots s ↔ Tables 3 roots s ∧ Frames roots s := by
  constructor
  · intro h
    refine ⟨h.mono (Nat.le_succ 3) (subset_refl roots), fun r hr v hv x hx => ?_,
      fun r hr v hv x hx hn => ?_, fun r hr r' hr' v v' hv hv' x hx hx' => ?_⟩
    · have hn : Node childOf userIdx 4 s.mem roots x := node_four.mpr (Or.inr ⟨r, hr, v, hv, hx⟩)
      exact ⟨h.used x hn, h.nonzero x hn⟩
    · obtain ⟨r', hr', ρ, hρ, hw⟩ := hn
      have := (h.forest r hr r' hr' v.path ρ x (v.path_path hv) (hρ.mono (Nat.le_succ 3))
        ((walk_path _ _ _).trans hx) hw).2
      have hlen := hρ.1
      rw [← this] at hlen
      exact absurd hlen (by simp [VPage.path])
    · obtain ⟨h1, h2⟩ := h.forest r hr r' hr' v.path v'.path x (v.path_path hv) (v'.path_path hv')
        ((walk_path _ _ _).trans hx) ((walk_path _ _ _).trans hx')
      exact ⟨h1, VPage.path_inj h2⟩
  · rintro ⟨ht, hf⟩
    refine ⟨ht.valid, fun r₁ h₁ r₂ h₂ π₁ π₂ f p₁ p₂ w₁ w₂ => ?_, fun f hn => ?_, fun f hn => ?_⟩
    · rcases path_four p₁ with p₁ | ⟨v₁, hv₁, rfl⟩ <;> rcases path_four p₂ with p₂ | ⟨v₂, hv₂, rfl⟩
      · exact ht.forest r₁ h₁ r₂ h₂ π₁ π₂ f p₁ p₂ w₁ w₂
      · rw [walk_path] at w₂
        exact absurd ⟨r₁, h₁, π₁, p₁, w₁⟩ (hf.notTable r₂ h₂ v₂ hv₂ f w₂)
      · rw [walk_path] at w₁
        exact absurd ⟨r₂, h₂, π₂, p₂, w₂⟩ (hf.notTable r₁ h₁ v₁ hv₁ f w₁)
      · rw [walk_path] at w₁ w₂
        obtain ⟨rfl, rfl⟩ := hf.inj r₁ h₁ r₂ h₂ v₁ v₂ hv₁ hv₂ f w₁ w₂
        exact ⟨rfl, rfl⟩
    · rcases node_four.mp hn with hn | ⟨r, hr, v, hv, hx⟩
      · exact ht.used f hn
      · exact (hf.used r hr v hv f hx).1
    · rcases node_four.mp hn with hn | ⟨r, hr, v, hv, hx⟩
      · exact ht.nonzero f hn
      · exact (hf.used r hr v hv f hx).2

section

variable {roots : Set Nat} {r : Nat} {v : VPage} {L : List Nat} {s s' : Phys}

/-- **Mapping a frame of one's own.** `g` is marked used and no address space reaches it. -/
theorem Tables.map (h : Tables 4 roots s) (hr : r ∈ roots) (hv : v.User) {g : Nat} {e : U64}
    (he : childOf e = some g) (hm : Mapped roots r v e L s s') (hg : s.pmm.Used g) (hg0 : g ≠ 0)
    (hfresh : ¬ Node childOf userIdx 4 s.mem roots g) : Tables 4 roots s' := by
  obtain ⟨-, hf⟩ := tables_four.mp h
  have hLfree := hm.takes.free_of_mem
  -- a leaf entry of `s'` is the new one or an old one
  have hleaf : ∀ r' ∈ roots, ∀ w : VPage, w.User → ∀ x, childOf (leafEntry s'.mem r' w) = some x →
      (r' = r ∧ w = v ∧ x = g) ∨ childOf (leafEntry s.mem r' w) = some x := by
    intro r' hr' w hw x hx
    rw [hm.leaf r' hr' w hw] at hx
    by_cases hrv : r' = r ∧ w = v
    · rw [if_pos hrv, he] at hx
      exact Or.inl ⟨hrv.1, hrv.2, (Option.some.inj hx).symm⟩
    · rw [if_neg hrv] at hx
      exact Or.inr hx
  have hold : ∀ r' ∈ roots, ∀ w : VPage, w.User → ∀ x, childOf (leafEntry s.mem r' w) = some x →
      x ≠ g ∧ x ∉ L := by
    intro r' hr' w hw x hx
    have hn : Node childOf userIdx 4 s.mem roots x := node_four.mpr (Or.inr ⟨r', hr', w, hw, hx⟩)
    exact ⟨fun hxg => hfresh (hxg ▸ hn), fun hxL => h.not_node_of_free (hLfree x hxL) hn⟩
  refine tables_four.mpr ⟨hm.tables, fun r' hr' w hw x hx => ?_, fun r' hr' w hw x hx hn => ?_,
    fun r₁ h₁ r₂ h₂ w₁ w₂ u₁ u₂ x hx₁ hx₂ => ?_⟩
  · rcases hleaf r' hr' w hw x hx with ⟨-, -, rfl⟩ | hx
    · exact ⟨hm.takes.used_mono hg, hg0⟩
    · obtain ⟨hu, h0⟩ := hf.used r' hr' w hw x hx
      exact ⟨hm.takes.used_mono hu, h0⟩
  · rw [hm.node] at hn
    rcases hleaf r' hr' w hw x hx with ⟨-, -, rfl⟩ | hx
    · rcases hn with hn | hn
      · exact hfresh (hn.mono (Nat.le_succ 3) (subset_refl roots))
      · exact Pmm.not_free_of_used hg (hLfree x hn)
    · rcases hn with hn | hn
      · exact hf.notTable r' hr' w hw x hx hn
      · exact (hold r' hr' w hw x hx).2 hn
  · rcases hleaf r₁ h₁ w₁ u₁ x hx₁ with ⟨rfl, rfl, rfl⟩ | o₁ <;>
      rcases hleaf r₂ h₂ w₂ u₂ x hx₂ with ⟨rfl, rfl, hxg⟩ | o₂
    · exact ⟨rfl, rfl⟩
    · exact absurd rfl (hold r₂ h₂ w₂ u₂ x o₂).1
    · exact absurd hxg (hold r₁ h₁ w₁ u₁ x o₁).1
    · exact hf.inj r₁ h₁ r₂ h₂ w₁ w₂ u₁ u₂ x o₁ o₂

theorem Mapped.node_four_sub {g : Nat} {e : U64} (he : childOf e = some g)
    (hm : Mapped roots r v e L s s') {x : Nat} (hx : Node childOf userIdx 4 s'.mem roots x) :
    Node childOf userIdx 4 s.mem roots x ∨ x ∈ L ∨ x = g := by
  rw [Sinux.Mm.node_four, hm.node] at hx
  rw [Sinux.Mm.node_four]
  rcases hx with (hn | hL) | ⟨r', hr', w, hw, hx⟩
  · exact Or.inl (Or.inl hn)
  · exact Or.inr (Or.inl hL)
  · rw [hm.leaf r' hr' w hw] at hx
    by_cases hrv : r' = r ∧ w = v
    · rw [if_pos hrv, he] at hx
      exact Or.inr (Or.inr (Option.some.inj hx).symm)
    · rw [if_neg hrv] at hx
      exact Or.inl (Or.inr ⟨r', hr', w, hw, hx⟩)

theorem Mapped.node_four (hr : r ∈ roots) (hv : v.User) {g : Nat} {e : U64}
    (he : childOf e = some g) (hm : Mapped roots r v e L s s')
    (hold : childOf (leafEntry s.mem r v) = none) (x : Nat) :
    Node childOf userIdx 4 s'.mem roots x ↔
      Node childOf userIdx 4 s.mem roots x ∨ x ∈ L ∨ x = g := by
  refine ⟨hm.node_four_sub he, ?_⟩
  rw [Sinux.Mm.node_four, Sinux.Mm.node_four, hm.node]
  rintro ((hn | ⟨r', hr', w, hw, hx⟩) | hL | rfl)
  · exact Or.inl (Or.inl hn)
  · refine Or.inr ⟨r', hr', w, hw, ?_⟩
    rw [hm.leaf r' hr' w hw, if_neg, hx]
    rintro ⟨rfl, rfl⟩
    rw [hold] at hx
    exact absurd hx (by simp)
  · exact Or.inl (Or.inr hL)
  · exact Or.inr ⟨r, hr, v, hv, by rw [hm.leaf r hr v hv, if_pos ⟨rfl, rfl⟩, he]⟩

/-- **Taking a free page and filling it** leaves every address space alone. -/
theorem Tables.fill {n : Nat} (h : Tables n roots s) {g : Nat} (hg : s.pmm.Free g)
    (c : Fin 512 → U64) : Tables n roots ⟨s.pmm.mark g, update s.mem g c⟩ ∧
      ∀ x, Node childOf userIdx n s.mem roots x → update s.mem g c x = s.mem x := by
  have hagree : ∀ x, Node childOf userIdx n s.mem roots x →
      update s.mem g c x = s.mem x := fun x hx => by
    have hxg : x ≠ g := fun hxg => h.not_node_of_free hg (hxg ▸ hx)
    rw [update_of_ne hxg]
  exact ⟨h.frame (Nat.le_succ n) (h.valid.mark hg) hagree fun x hx =>
    (Pmm.used_mark hg.1).mpr (Or.inl (h.used x hx)), hagree⟩

/-- **What taking a frame and mapping it does**: the free page `g` gets the contents `c` and is
mapped at page `v` of root `r`, the pages `M` become tables above it. -/
structure FrameMapped (roots : Set Nat) (r : Nat) (v : VPage) (flags : U64) (g : Nat)
    (c : Fin 512 → U64) (M : List Nat) (s s' : Phys) : Prop where
  tables : Tables 4 roots s'
  takes : s.pmm.Takes (g :: M) s'.pmm
  leaf : ∀ r' ∈ roots, ∀ w : VPage, w.User → leafEntry s'.mem r' w =
    if r' = r ∧ w = v then leafOf (pageAddr g) flags else leafEntry s.mem r' w
  node : childOf (leafEntry s.mem r v) = none → ∀ x, Node childOf userIdx 4 s'.mem roots x ↔
    Node childOf userIdx 4 s.mem roots x ∨ x ∈ g :: M
  count : M.length = missing s.mem r v
  path : ∀ r' ∈ roots, ∀ ρ, Path userIdx 3 ρ → (walk childOf s'.mem r' ρ = none ↔
    walk childOf s.mem r' ρ = none ∧ ¬ (r' = r ∧ ρ ∈ v.tablePaths))
  mem : ∀ x, ¬ Node childOf userIdx 3 s.mem roots x → x ∉ g :: M → s'.mem x = s.mem x
  frame : s'.mem g = c
  kernelHalf : ∀ r' ∈ roots, ∀ i : Fin 512, ¬ userIdx i → s'.mem r' i = s.mem r' i
  sub : ∀ x, Node childOf userIdx 4 s'.mem roots x →
    Node childOf userIdx 4 s.mem roots x ∨ x ∈ g :: M

theorem missing_congr {m m' : Mem}
    (h : ∀ ρ, Path userIdx 3 ρ → walk childOf m' r ρ = walk childOf m r ρ)
    (hv : v.User) : missing m' r v = missing m r v := by
  have path : ∀ σ : List (Fin 512), σ.length ≤ 2 → Path userIdx 3 (v.p4 :: σ) := fun σ hσ =>
    ⟨by rw [List.length_cons]; omega, fun i hi => by cases hi; exact hv⟩
  unfold missing VPage.tables
  rw [h _ (path [] (by simp)), h _ (path [v.p3] (by simp)), h _ (path [v.p3, v.p2] (by simp))]

theorem Tables.walk_fill (h : Tables 4 roots s) {g : Nat} (hg : s.pmm.Free g) (c : Fin 512 → U64)
    {r' : Nat} (hr : r' ∈ roots) {ρ : List (Fin 512)} (hρ : Path userIdx 3 ρ) :
    walk childOf (update s.mem g c) r' ρ = walk childOf s.mem r' ρ :=
  walk_congr (fun x hx => (h.fill hg c).2 x (hx.mono (Nat.le_succ 3) (subset_refl roots)))
    (Nat.le_succ 3) hr hρ

theorem vmmMap_frame (h : Tables 4 roots s) {pml4 virt : U64} (hr : pageOf pml4 ∈ roots)
    (hv : (vpageOf virt).User) {flags : U64} (hnx : flags &&& vmmNx = 0) {g : Nat}
    (hg : s.pmm.Free g) (c : Fin 512 → U64)
    (hroom : missing s.mem (pageOf pml4) (vpageOf virt) + 1 ≤ s.pmm.clearBits) :
    ∃ M, FrameMapped roots (pageOf pml4) (vpageOf virt) flags g c M s
      (vmmMap pml4 virt (pageAddr g) flags ⟨s.pmm.mark g, update s.mem g c⟩) := by
  obtain ⟨htab, hagree⟩ := h.fill hg c
  have hagree₃ : ∀ x, Node childOf userIdx 3 s.mem roots x →
      update s.mem g c x = s.mem x := fun x hx =>
    hagree x (hx.mono (Nat.le_succ 3) (subset_refl roots))
  have hmiss := missing_congr (fun ρ hρ => h.walk_fill hg c hr hρ) hv
  have hbits := Pmm.clearBits_mark hg
  obtain ⟨M, hm⟩ := vmmMap_spec (tables_four.mp htab).1 hr hv (pageAddr g) flags
    (by show missing (update s.mem g c) _ _ ≤ (s.pmm.mark g).clearBits
        rw [hmiss]
        omega)
  have hchild : childOf (leafOf (pageAddr g) flags) = some g := by
    rw [childOf_leafOf hnx, pageOf_pageAddr hg.lt]
  have hgn : ¬ Node childOf userIdx 4 (update s.mem g c) roots g := fun hx =>
    h.not_node_of_free hg ((Node.congr hagree (Nat.le_succ 4)).mp hx)
  have hgu : (s.pmm.mark g).Used g := (Pmm.used_mark hg.1).mpr (Or.inr rfl)
  generalize vmmMap pml4 virt (pageAddr g) flags ⟨s.pmm.mark g, update s.mem g c⟩ = t at *
  generalize vpageOf virt = v at *
  generalize pageOf pml4 = r at *
  refine ⟨M, htab.map hr hv hchild hm hgu (h.valid.free_ne_zero hg) hgn, Pmm.Takes.cons hg hm.takes,
    fun r' hr' w hw => ?_, fun hold x => ?_, hm.count.trans hmiss, fun r' hr' ρ hρ => ?_,
    fun x hx hxM => ?_, ?_, fun r' hr' i hi => ?_, fun x hx => ?_⟩
  · rw [hm.leaf r' hr' w hw]
    simp only [leafEntry_congr hagree₃ hr' hw]
  · have hold' : childOf (leafEntry (update s.mem g c) r v) = none := by
      rw [leafEntry_congr hagree₃ hr hv, hold]
    rw [hm.node_four hr hv hchild hold', Node.congr hagree (Nat.le_succ 4), List.mem_cons,
      or_comm (a := x ∈ M)]
  · rw [hm.path r' hr' ρ hρ]
    rw [h.walk_fill hg c hr' hρ]
  · rw [List.mem_cons, not_or] at hxM
    rw [hm.mem x (fun hx' => hx ((Node.congr hagree₃ (Nat.le_succ 3)).mp hx')) hxM.2]
    exact update_of_ne hxM.1 _ _
  · have hgM : g ∉ M := fun hgM => Pmm.not_free_of_used hgu (hm.takes.free_of_mem g hgM)
    rw [hm.mem g (fun hx => hgn (hx.mono (Nat.le_succ 3) (subset_refl roots))) hgM]
    exact update_self ..
  · rw [hm.kernelHalf r' hr' i hi]
    exact congrFun (hagree₃ r' (Node.root hr')) i
  · have hsub := hm.node_four_sub hchild hx
    rwa [Node.congr hagree (Nat.le_succ 4), or_comm (a := x ∈ M), ← List.mem_cons] at hsub

theorem Unmapped.childOf_leaf (hu : Unmapped roots r v s s') {r' : Nat} (hr' : r' ∈ roots)
    {w : VPage} (hw : w.User) {x : Nat} (hx : childOf (leafEntry s'.mem r' w) = some x) :
    childOf (leafEntry s.mem r' w) = some x := by
  rw [hu.leaf r' hr' w hw] at hx
  by_cases hrv : r' = r ∧ w = v
  · rw [if_pos hrv, childOf_zero] at hx
    exact absurd hx.symm (Option.some_ne_none x)
  · rwa [if_neg hrv] at hx

theorem Unmapped.node_four_sub (hu : Unmapped roots r v s s') {x : Nat}
    (hx : Node childOf userIdx 4 s'.mem roots x) : Node childOf userIdx 4 s.mem roots x := by
  rw [node_four, hu.node] at hx
  refine node_four.mpr (hx.imp_right ?_)
  rintro ⟨r', hr', w, hw, hx⟩
  exact ⟨r', hr', w, hw, hu.childOf_leaf hr' hw hx⟩

theorem Tables.unmap (h : Tables 4 roots s) (hu : Unmapped roots r v s s') : Tables 4 roots s' := by
  obtain ⟨-, hf⟩ := tables_four.mp h
  refine tables_four.mpr ⟨hu.tables, fun r' hr' w hw x hx => ?_, fun r' hr' w hw x hx => ?_,
    fun r₁ h₁ r₂ h₂ w₁ w₂ u₁ u₂ x hx₁ hx₂ => ?_⟩
  · rw [hu.pmm]
    exact hf.used r' hr' w hw x (hu.childOf_leaf hr' hw hx)
  · rw [hu.node]
    exact hf.notTable r' hr' w hw x (hu.childOf_leaf hr' hw hx)
  · exact hf.inj r₁ h₁ r₂ h₂ w₁ w₂ u₁ u₂ x (hu.childOf_leaf h₁ u₁ hx₁) (hu.childOf_leaf h₂ u₂ hx₂)

end

end Sinux.Mm

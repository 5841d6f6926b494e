import Mathlib.Data.Set.Insert
import Mathlib.Data.List.Induction
import Mathlib.Data.List.Nodup

/-!
# Radix trees stored in memory

A memory `m : F → I → W` holds tables of words: word `i` of table `f` is `m f i`. `dec` reads a
child table out of a word. `walk dec m r π` follows the indices `π` down from the root `r`.

A set of roots is a `Forest` when no table is reached twice, by the same root or by two: distinct
paths lead to distinct tables. Only paths of at most `n` steps whose first index satisfies `ok` are
considered, so that part of each root may hold entries the forest does not own.

* `Forest.walk_store_of_not_prefix`: writing an entry changes only the walks through it.
* `Forest.store_fresh`, `Forest.node_store_fresh`: hanging a fresh table under an entry keeps the
  forest and adds that table to its nodes.
* `Forest.congr`, `Forest.insert`, `Forest.union`: the frame rule, new roots.
* `mem_tree`, `Forest.nodup_tree`: the walk over a whole tree meets every table once.
-/

namespace Sinux.Lib.Radix

variable {F I W : Type}

section Store

variable [DecidableEq F] [DecidableEq I] (m : F → I → W) (t : F) (i : I) (e : W)

/-- The memory with word `i` of table `t` replaced by `e`. -/
def store : F → I → W := fun f j => if f = t ∧ j = i then e else m f j

@[simp] theorem store_self : store m t i e t i = e := if_pos ⟨rfl, rfl⟩

variable {m t i e}

theorem store_ne {f : F} {j : I} (h : ¬ (f = t ∧ j = i)) : store m t i e f j = m f j := if_neg h

theorem store_table {f : F} (h : f ≠ t) : store m t i e f = m f := by
  funext j
  exact store_ne fun hf => h hf.1

end Store

variable (dec : W → Option F)

/-- The table the indices lead to, from the root `r` down. -/
def walk (m : F → I → W) : F → List I → Option F
  | r, [] => some r
  | r, i :: π => (dec (m r i)).bind fun c => walk m c π

variable {dec} {m m' : F → I → W} {r t c f : F} {i : I} {π ρ : List I}

theorem walk_append :
    ∀ (π : List I) (r : F), walk dec m r (π ++ ρ) = (walk dec m r π).bind fun f => walk dec m f ρ
  | [], _ => rfl
  | i :: π, r => by
    simp only [List.cons_append, walk]
    cases dec (m r i) with
    | none => rfl
    | some c => exact walk_append π c

theorem walk_concat :
    walk dec m r (π ++ [i]) = (walk dec m r π).bind fun f => dec (m f i) := by
  rw [walk_append]
  congr 1
  funext f
  simp only [walk]
  cases dec (m f i) <;> rfl

/-! ## Forests -/

/-- The paths under consideration: at most `n` steps, the first index in `ok`. -/
def Path (ok : I → Prop) (n : Nat) (π : List I) : Prop := π.length ≤ n ∧ ∀ i ∈ π.head?, ok i

variable {ok : I → Prop} {n : Nat}

theorem Path.nil : Path ok n [] := ⟨Nat.zero_le n, by simp⟩

theorem Path.of_append (h : Path ok n (π ++ ρ)) : Path ok n π := by
  refine ⟨by have := h.1; rw [List.length_append] at this; omega, fun i hi => h.2 i ?_⟩
  cases π with
  | nil => simp at hi
  | cons j π => exact hi

theorem Path.mono {n' : Nat} (hn : n ≤ n') (h : Path ok n π) : Path ok n' π := ⟨h.1.trans hn, h.2⟩

variable (dec)

/-- The tables reached from the roots. -/
def Node (ok : I → Prop) (n : Nat) (m : F → I → W) (roots : Set F) (f : F) : Prop :=
  ∃ r ∈ roots, ∃ π, Path ok n π ∧ walk dec m r π = some f

/-- Distinct paths lead to distinct tables. -/
def Forest (ok : I → Prop) (n : Nat) (m : F → I → W) (roots : Set F) : Prop :=
  ∀ r ∈ roots, ∀ r' ∈ roots, ∀ π π' f, Path ok n π → Path ok n π' →
    walk dec m r π = some f → walk dec m r' π' = some f → r = r' ∧ π = π'

variable {dec} {roots roots' : Set F}

theorem Node.root (hr : r ∈ roots) : Node dec ok n m roots r := ⟨r, hr, [], Path.nil, rfl⟩

theorem Node.mono {n' : Nat} (hn : n ≤ n') (hs : roots ⊆ roots') (h : Node dec ok n m roots f) :
    Node dec ok n' m roots' f := by
  obtain ⟨r, hr, π, hp, hw⟩ := h
  exact ⟨r, hs hr, π, hp.mono hn, hw⟩

theorem Node.iff_root : Node dec ok n m roots f ↔ ∃ r ∈ roots, Node dec ok n m {r} f :=
  ⟨fun ⟨r, hr, π, hp, hw⟩ => ⟨r, hr, r, rfl, π, hp, hw⟩,
    fun ⟨_, hr, h⟩ => h.mono (le_refl n) (Set.singleton_subset_iff.mpr hr)⟩

theorem Forest.mono {n' : Nat} (hn : n ≤ n') (hs : roots ⊆ roots') (h : Forest dec ok n' m roots') :
    Forest dec ok n m roots :=
  fun r hr r' hr' π π' f hp hp' => h r (hs hr) r' (hs hr') π π' f (hp.mono hn) (hp'.mono hn)

/-- **The frame rule.** A memory that agrees on the tables `k` levels deep has the same walks, and
those one level further down: the last table is not read. -/
theorem walk_congr {k : Nat} (h : ∀ f, Node dec ok k m roots f → m' f = m f) (hk : n ≤ k + 1)
    (hr : r ∈ roots) (hp : Path ok n π) : walk dec m' r π = walk dec m r π := by
  induction π using List.reverseRecOn with
  | nil => rfl
  | append_singleton σ j ih =>
    have hσ : Path ok k σ := by
      refine ⟨?_, hp.of_append.2⟩
      have := hp.1
      rw [List.length_append, List.length_singleton] at this
      omega
    rw [walk_concat, walk_concat, ih hp.of_append]
    cases hw : walk dec m r σ with
    | none => rfl
    | some f =>
      simp only [Option.bind_some]
      rw [h f ⟨r, hr, σ, hσ, hw⟩]

theorem Node.congr {k : Nat} (h : ∀ f, Node dec ok k m roots f → m' f = m f) (hk : n ≤ k + 1) :
    Node dec ok n m' roots f ↔ Node dec ok n m roots f := by
  constructor
  · rintro ⟨r, hr, π, hp, hw⟩
    exact ⟨r, hr, π, hp, walk_congr h hk hr hp ▸ hw⟩
  · rintro ⟨r, hr, π, hp, hw⟩
    exact ⟨r, hr, π, hp, (walk_congr h hk hr hp).trans hw⟩

theorem Forest.congr {k : Nat} (hF : Forest dec ok n m roots)
    (h : ∀ f, Node dec ok k m roots f → m' f = m f) (hk : n ≤ k + 1) :
    Forest dec ok n m' roots := by
  intro r hr r' hr' π π' f hp hp' hw hw'
  rw [walk_congr h hk hr hp] at hw
  rw [walk_congr h hk hr' hp'] at hw'
  exact hF r hr r' hr' π π' f hp hp' hw hw'

variable (dec m m') in
/-! ## Roots -/

theorem walk_empty_root (h : ∀ i, ok i → dec (m r i) = none) (hp : Path ok n π)
    (hw : walk dec m r π = some f) : π = [] ∧ f = r := by
  cases π with
  | nil => exact ⟨rfl, (Option.some.inj hw).symm⟩
  | cons i π =>
    simp only [walk] at hw
    rw [h i (hp.2 i rfl)] at hw
    exact absurd hw (by simp)

theorem Node.insert_iff (h : ∀ i, ok i → dec (m r i) = none) :
    Node dec ok n m (insert r roots) f ↔ Node dec ok n m roots f ∨ f = r := by
  constructor
  · rintro ⟨r', hr', π, hp, hw⟩
    rcases hr' with rfl | hr'
    · exact Or.inr (walk_empty_root h hp hw).2
    · exact Or.inl ⟨r', hr', π, hp, hw⟩
  · rintro (hn | rfl)
    · exact hn.mono (le_refl n) (Set.subset_insert r roots)
    · exact Node.root (Set.mem_insert f roots)

theorem Forest.insert (hF : Forest dec ok n m roots) (hfresh : ¬ Node dec ok n m roots r)
    (h : ∀ i, ok i → dec (m r i) = none) : Forest dec ok n m (insert r roots) := by
  intro r₁ h₁ r₂ h₂ π₁ π₂ f p₁ p₂ w₁ w₂
  rcases h₁ with rfl | h₁
  · obtain ⟨rfl, rfl⟩ := walk_empty_root h p₁ w₁
    rcases h₂ with rfl | h₂
    · exact ⟨rfl, (walk_empty_root h p₂ w₂).1.symm⟩
    · exact absurd ⟨r₂, h₂, π₂, p₂, w₂⟩ hfresh
  · rcases h₂ with rfl | h₂
    · obtain ⟨rfl, rfl⟩ := walk_empty_root h p₂ w₂
      exact absurd ⟨r₁, h₁, π₁, p₁, w₁⟩ hfresh
    · exact hF r₁ h₁ r₂ h₂ π₁ π₂ f p₁ p₂ w₁ w₂

theorem Node.union_iff : Node dec ok n m (roots ∪ roots') f ↔
    Node dec ok n m roots f ∨ Node dec ok n m roots' f := by
  constructor
  · rintro ⟨r, hr | hr, h⟩
    · exact Or.inl ⟨r, hr, h⟩
    · exact Or.inr ⟨r, hr, h⟩
  · rintro (h | h)
    · exact h.mono (le_refl n) Set.subset_union_left
    · exact h.mono (le_refl n) Set.subset_union_right

theorem Forest.union (hF : Forest dec ok n m roots) (hF' : Forest dec ok n m roots')
    (hdisj : ∀ f, Node dec ok n m roots f → ¬ Node dec ok n m roots' f) :
    Forest dec ok n m (roots ∪ roots') := by
  intro r₁ h₁ r₂ h₂ π₁ π₂ f p₁ p₂ w₁ w₂
  rcases h₁ with h₁ | h₁ <;> rcases h₂ with h₂ | h₂
  · exact hF r₁ h₁ r₂ h₂ π₁ π₂ f p₁ p₂ w₁ w₂
  · exact absurd ⟨r₂, h₂, π₂, p₂, w₂⟩ (hdisj f ⟨r₁, h₁, π₁, p₁, w₁⟩)
  · exact absurd ⟨r₁, h₁, π₁, p₁, w₁⟩ (hdisj f ⟨r₂, h₂, π₂, p₂, w₂⟩)
  · exact hF' r₁ h₁ r₂ h₂ π₁ π₂ f p₁ p₂ w₁ w₂

/-! ## The tables of a tree, children first -/

section Subtree

variable (dec) (all top : List I)

/-- The tables at most `d` steps below `f` by indices in `all`, `f` last. -/
def subtree (m : F → I → W) : Nat → F → List F
  | 0, f => [f]
  | d + 1, f => all.flatMap (fun i => ((dec (m f i)).map (subtree m d)).getD []) ++ [f]

/-- The same from a root that is only followed by indices in `top`. -/
def tree (m : F → I → W) (d : Nat) (r : F) : List F :=
  top.flatMap (fun i => ((dec (m r i)).map (subtree dec all m d)).getD []) ++ [r]

variable {dec all top}

theorem mem_child {L : F → List F} {e : W} {g : F} :
    g ∈ ((dec e).map L).getD [] ↔ ∃ c, dec e = some c ∧ g ∈ L c := by
  cases h : dec e with
  | none => simp
  | some c => simp

theorem mem_subtree (hall : ∀ i, i ∈ all) {d : Nat} {f g : F} :
    g ∈ subtree dec all m d f ↔ ∃ π : List I, π.length ≤ d ∧ walk dec m f π = some g := by
  induction d generalizing f with
  | zero =>
    constructor
    · intro h
      exact ⟨[], le_refl 0, by rw [List.mem_singleton.mp h]; rfl⟩
    · rintro ⟨π, hl, hw⟩
      rw [List.length_eq_zero_iff.mp (Nat.le_zero.mp hl)] at hw
      exact List.mem_singleton.mpr (Option.some.inj hw).symm
  | succ d ih =>
    simp only [subtree, List.mem_append, List.mem_flatMap, List.mem_singleton, mem_child, ih]
    constructor
    · rintro (⟨i, -, c, hc, π, hl, hw⟩ | rfl)
      · exact ⟨i :: π, Nat.succ_le_succ hl, by simp only [walk, hc, Option.bind_some, hw]⟩
      · exact ⟨[], Nat.zero_le _, rfl⟩
    · rintro ⟨π, hl, hw⟩
      cases π with
      | nil => exact Or.inr (Option.some.inj hw).symm
      | cons i π =>
        simp only [walk, Option.bind_eq_some_iff] at hw
        obtain ⟨c, hc, hw⟩ := hw
        exact Or.inl ⟨i, hall i, c, hc, π, Nat.le_of_succ_le_succ hl, hw⟩

theorem mem_tree (hall : ∀ i, i ∈ all) (htop : ∀ i, i ∈ top ↔ ok i) {d : Nat} {g : F} :
    g ∈ tree dec all top m d r ↔ Node dec ok (d + 1) m {r} g := by
  simp only [tree, List.mem_append, List.mem_flatMap, List.mem_singleton, mem_child,
    mem_subtree hall, htop]
  constructor
  · rintro (⟨i, hi, c, hc, π, hl, hw⟩ | rfl)
    · exact ⟨r, rfl, i :: π, ⟨Nat.succ_le_succ hl, fun j hj => by cases hj; exact hi⟩, by
        simp only [walk, hc, Option.bind_some, hw]⟩
    · exact Node.root rfl
  · rintro ⟨r', rfl, π, hp, hw⟩
    cases π with
    | nil => exact Or.inr (Option.some.inj hw).symm
    | cons i π =>
      simp only [walk, Option.bind_eq_some_iff] at hw
      obtain ⟨c, hc, hw⟩ := hw
      exact Or.inl ⟨i, hp.2 i rfl, c, hc, π, Nat.le_of_succ_le_succ hp.1, hw⟩

/-- Children listed one after the other, then the table itself: no table twice when paths of the
children are distinct from each other and from the empty path. -/
theorem nodup_children {L : F → List F} {idx : List I} {P : List I → Prop} (hidx : idx.Nodup)
    (hL : ∀ i ∈ idx, ∀ c, dec (m f i) = some c → (L c).Nodup)
    (hmem : ∀ i ∈ idx, ∀ c, dec (m f i) = some c → ∀ g ∈ L c, ∃ π, P (i :: π) ∧
      walk dec m c π = some g)
    (hnil : P []) (huniq : ∀ π π' g, P π → P π' → walk dec m f π = some g →
      walk dec m f π' = some g → π = π') :
    (idx.flatMap (fun i => ((dec (m f i)).map L).getD []) ++ [f]).Nodup := by
  have hpath : ∀ i ∈ idx, ∀ g ∈ ((dec (m f i)).map L).getD [],
      ∃ π, P (i :: π) ∧ walk dec m f (i :: π) = some g := by
    intro i hi g hg
    obtain ⟨c, hc, hg⟩ := mem_child.mp hg
    obtain ⟨π, hP, hw⟩ := hmem i hi c hc g hg
    exact ⟨π, hP, by simp only [walk, hc, Option.bind_some, hw]⟩
  rw [List.nodup_append]
  refine ⟨List.nodup_flatMap.mpr ⟨fun i hi => ?_, ?_⟩, List.nodup_singleton f, ?_⟩
  · cases hc : dec (m f i) with
    | none => exact List.nodup_nil
    | some c => exact hL i hi c hc
  · refine hidx.imp_of_mem fun {i j} hi hj hij g hg hg' => hij ?_
    obtain ⟨π, hP, hw⟩ := hpath i hi g hg
    obtain ⟨π', hP', hw'⟩ := hpath j hj g hg'
    exact (List.cons.inj (huniq _ _ g hP hP' hw hw')).1
  · rintro g hg f' hf' rfl
    obtain ⟨i, hi, hg⟩ := List.mem_flatMap.mp hg
    obtain ⟨π, hP, hw⟩ := hpath i hi g hg
    rw [List.mem_singleton.mp hf'] at hw
    exact absurd (huniq _ _ f hP hnil hw rfl) (by simp)

theorem nodup_subtree (hall : ∀ i, i ∈ all) (hnd : all.Nodup) {d : Nat} {f : F}
    (huniq : ∀ π π' g, π.length ≤ d → π'.length ≤ d → walk dec m f π = some g →
      walk dec m f π' = some g → π = π') : (subtree dec all m d f).Nodup := by
  induction d generalizing f with
  | zero => exact List.nodup_singleton f
  | succ d ih =>
    refine nodup_children (P := fun π => π.length ≤ d + 1) hnd (fun i _ c hc => ih ?_)
      (fun i _ c hc g hg => ?_) (Nat.zero_le _) huniq
    · intro π π' g hl hl' hw hw'
      refine (List.cons.inj (huniq (i :: π) (i :: π') g (Nat.succ_le_succ hl)
        (Nat.succ_le_succ hl') ?_ ?_)).2
      · simp only [walk, hc, Option.bind_some, hw]
      · simp only [walk, hc, Option.bind_some, hw']
    · obtain ⟨π, hl, hw⟩ := (mem_subtree hall).mp hg
      exact ⟨π, Nat.succ_le_succ hl, hw⟩

theorem Forest.nodup_tree {d : Nat} (hF : Forest dec ok (d + 1) m {r}) (hall : ∀ i, i ∈ all)
    (hnd : all.Nodup) (htop : ∀ i, i ∈ top ↔ ok i) (hnt : top.Nodup) :
    (tree dec all top m d r).Nodup := by
  have path : ∀ i ∈ top, ∀ π : List I, π.length ≤ d → Path ok (d + 1) (i :: π) :=
    fun i hi π hl => ⟨Nat.succ_le_succ hl, fun j hj => by cases hj; exact (htop i).mp hi⟩
  refine nodup_children (P := Path ok (d + 1)) hnt (fun i hi c hc => ?_)
    (fun i hi c hc g hg => ?_) Path.nil fun π π' g hp hp' hw hw' =>
      (hF r rfl r rfl π π' g hp hp' hw hw').2
  · refine nodup_subtree hall hnd fun π π' g hl hl' hw hw' => ?_
    refine (List.cons.inj (hF r rfl r rfl (i :: π) (i :: π') g (path i hi π hl) (path i hi π' hl')
      ?_ ?_).2).2
    · simp only [walk, hc, Option.bind_some, hw]
    · simp only [walk, hc, Option.bind_some, hw']
  · obtain ⟨π, hl, hw⟩ := (mem_subtree hall).mp hg
    exact ⟨π, path i hi π hl, hw⟩

end Subtree

/-! ## Writing an entry -/

section Write

variable [DecidableEq F] [DecidableEq I] {e : W} {r' : F}

/-- **A write changes only the walks through it.** -/
theorem Forest.walk_store_of_not_prefix (hF : Forest dec ok n m roots) (hr : r ∈ roots)
    (hπ : Path ok n π) (ht : walk dec m r π = some t) (hr' : r' ∈ roots) (hρ : Path ok n ρ)
    (h : ¬ (r' = r ∧ π ++ [i] <+: ρ)) :
    walk dec (store m t i e) r' ρ = walk dec m r' ρ := by
  induction ρ using List.reverseRecOn with
  | nil => rfl
  | append_singleton σ j ih =>
    have hσ : ¬ (r' = r ∧ π ++ [i] <+: σ) := fun hpre =>
      h ⟨hpre.1, hpre.2.trans (List.prefix_append σ [j])⟩
    rw [walk_concat, walk_concat, ih hρ.of_append hσ]
    cases hw : walk dec m r' σ with
    | none => rfl
    | some f =>
      simp only [Option.bind_some]
      rw [store_ne]
      rintro ⟨rfl, rfl⟩
      obtain ⟨rfl, rfl⟩ := hF r' hr' r hr σ π f hρ.of_append hπ hw ht
      exact h ⟨rfl, List.prefix_rfl⟩

theorem Forest.walk_store_prefix (hF : Forest dec ok n m roots) (hr : r ∈ roots)
    (hπ : Path ok n π) (ht : walk dec m r π = some t) (σ : List I) :
    walk dec (store m t i e) r (π ++ i :: σ) =
      (dec e).bind fun c => walk dec (store m t i e) c σ := by
  have hself : walk dec (store m t i e) r π = some t := by
    rw [hF.walk_store_of_not_prefix hr hπ ht hr hπ, ht]
    rintro ⟨-, hpre⟩
    have := hpre.length_le
    rw [List.length_append, List.length_singleton] at this
    omega
  rw [walk_append, hself, Option.bind_some]
  simp only [walk, store_self]

/-- A walk after a table `c` that no path reached is hung under the entry: it ends at `c`, or it
was there before. `c` is empty unless it sits at the last level. -/
theorem Forest.walk_store_fresh (hF : Forest dec ok n m roots) (hr : r ∈ roots)
    (hπ : Path ok n π) (ht : walk dec m r π = some t) (he : dec e = some c)
    (hfresh : ¬ Node dec ok n m roots c)
    (hempty : π.length + 1 < n → ∀ j, dec (m c j) = none) (hr' : r' ∈ roots) (hρ : Path ok n ρ)
    (hw : walk dec (store m t i e) r' ρ = some f) :
    (r' = r ∧ ρ = π ++ [i] ∧ f = c) ∨
      (walk dec m r' ρ = some f ∧ ¬ (r' = r ∧ π ++ [i] <+: ρ)) := by
  by_cases h : r' = r ∧ π ++ [i] <+: ρ
  · obtain ⟨rfl, σ, rfl⟩ := h
    left
    rw [List.append_assoc, List.singleton_append, hF.walk_store_prefix hr hπ ht, he,
      Option.bind_some] at hw
    cases σ with
    | nil => exact ⟨rfl, List.append_nil _, (Option.some.inj hw).symm⟩
    | cons j σ =>
      have hct : c ≠ t := fun hct => hfresh (hct ▸ ⟨r', hr, π, hπ, ht⟩)
      have hlen := hρ.1
      simp only [List.length_append, List.length_cons, List.length_nil] at hlen
      simp only [walk] at hw
      rw [store_table hct, hempty (by omega)] at hw
      exact absurd hw (by simp)
  · exact Or.inr ⟨(hF.walk_store_of_not_prefix hr hπ ht hr' hρ h).symm.trans hw, h⟩

theorem Forest.store_fresh (hF : Forest dec ok n m roots) (hr : r ∈ roots) (hπ : Path ok n π)
    (ht : walk dec m r π = some t) (he : dec e = some c) (hfresh : ¬ Node dec ok n m roots c)
    (hempty : π.length + 1 < n → ∀ j, dec (m c j) = none) :
    Forest dec ok n (store m t i e) roots := by
  intro r₁ h₁ r₂ h₂ π₁ π₂ f p₁ p₂ w₁ w₂
  rcases hF.walk_store_fresh hr hπ ht he hfresh hempty h₁ p₁ w₁ with ⟨rfl, rfl, rfl⟩ | ⟨o₁, -⟩
  · rcases hF.walk_store_fresh hr hπ ht he hfresh hempty h₂ p₂ w₂ with ⟨rfl, rfl, -⟩ | ⟨o₂, -⟩
    · exact ⟨rfl, rfl⟩
    · exact absurd ⟨r₂, h₂, π₂, p₂, o₂⟩ hfresh
  · rcases hF.walk_store_fresh hr hπ ht he hfresh hempty h₂ p₂ w₂ with ⟨rfl, rfl, rfl⟩ | ⟨o₂, -⟩
    · exact absurd ⟨r₁, h₁, π₁, p₁, o₁⟩ hfresh
    · exact hF r₁ h₁ r₂ h₂ π₁ π₂ f p₁ p₂ o₁ o₂

theorem Forest.walk_store_of_walk (hF : Forest dec ok n m roots) (hr : r ∈ roots)
    (hπ : Path ok n π) (ht : walk dec m r π = some t) (hold : dec (m t i) = none)
    (hr' : r' ∈ roots) (hρ : Path ok n ρ) (hw : walk dec m r' ρ = some f) :
    walk dec (store m t i e) r' ρ = some f := by
  rw [hF.walk_store_of_not_prefix hr hπ ht hr' hρ, hw]
  rintro ⟨rfl, σ, rfl⟩
  rw [List.append_assoc, List.singleton_append, walk_append, ht, Option.bind_some] at hw
  simp only [walk, hold] at hw
  exact absurd hw (by simp)

theorem Forest.node_store_fresh (hF : Forest dec ok n m roots) (hr : r ∈ roots)
    (hπ : Path ok n (π ++ [i])) (ht : walk dec m r π = some t) (he : dec e = some c)
    (hfresh : ¬ Node dec ok n m roots c) (hempty : π.length + 1 < n → ∀ j, dec (m c j) = none)
    (hold : dec (m t i) = none) :
    Node dec ok n (store m t i e) roots f ↔ Node dec ok n m roots f ∨ f = c := by
  constructor
  · rintro ⟨r', hr', ρ, hρ, hw⟩
    rcases hF.walk_store_fresh hr hπ.of_append ht he hfresh hempty hr' hρ hw with
      ⟨-, -, rfl⟩ | ⟨ho, -⟩
    · exact Or.inr rfl
    · exact Or.inl ⟨r', hr', ρ, hρ, ho⟩
  · rintro (⟨r', hr', ρ, hρ, hw⟩ | rfl)
    · exact ⟨r', hr', ρ, hρ, hF.walk_store_of_walk hr hπ.of_append ht hold hr' hρ hw⟩
    · refine ⟨r, hr, π ++ [i], hπ, ?_⟩
      rw [hF.walk_store_prefix hr hπ.of_append ht, he]
      rfl

end Write

end Sinux.Lib.Radix

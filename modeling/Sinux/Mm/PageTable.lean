import Sinux.Mm.Vmm

/-!
# The user half of a page table as a radix forest

`childOf` reads a child table out of an entry, `leafEntry` is the leaf entry of a virtual page (0
when a table above it is missing). `Tables n roots s` is the ownership invariant of the user halves
of the PML4s `roots`: they form a forest `n` levels deep and every page of it is marked used. With
`n = 3` the forest is the tables; with `n = 4` the mapped frames belong to it.

* `getOrAlloc_spec`: `get_or_alloc` returns the table already there, or hangs a fresh zeroed one
  under the entry. No leaf entry changes.
* `vmmMap_spec`: with enough free pages `vmm_map` changes the one leaf entry and creates exactly the
  missing tables; `vmmUnmap_spec` clears the one leaf entry.
-/

namespace Sinux.Mm

open Function Sinux.Lib Sinux.Lib.Radix

/-! ## Entries -/

/-- The table an entry points to. -/
def childOf (e : U64) : Option Nat := if e &&& vmmPresent = 0 then none else some (pageOf e)

theorem and_present_eq_zero (e : U64) : e &&& vmmPresent = 0 ↔ e.getLsbD 0 = false := by
  constructor
  · intro h
    have hb : (e &&& vmmPresent).getLsbD 0 = e.getLsbD 0 := by
      rw [BitVec.getLsbD_and]
      exact Bool.and_true _
    rw [← hb, h]
    rfl
  · intro h
    apply BitVec.eq_of_getLsbD_eq
    intro i _
    rw [BitVec.getLsbD_and]
    by_cases hi : i = 0
    · rw [hi, h, Bool.false_and]
      rfl
    · have : vmmPresent.getLsbD i = false := by
        show (1#64).getLsbD i = false
        rw [BitVec.getLsbD_one]
        simp [hi]
      rw [this, Bool.and_false]
      exact BitVec.getLsbD_zero.symm

theorem childOf_eq_none {e : U64} : childOf e = none ↔ e.getLsbD 0 = false := by
  unfold childOf
  rw [← and_present_eq_zero]
  split <;> simp_all

theorem childOf_eq_some {e : U64} {f : Nat} :
    childOf e = some f ↔ e.getLsbD 0 = true ∧ pageOf e = f := by
  unfold childOf
  by_cases h : e &&& vmmPresent = 0
  · rw [if_pos h]
    rw [and_present_eq_zero] at h
    simp only [h, reduceCtorEq, Bool.false_eq_true, false_and]
  · rw [if_neg h]
    rw [and_present_eq_zero, Bool.not_eq_false] at h
    simp only [h, Option.some.injEq, true_and]

@[simp] theorem childOf_zero : childOf 0 = none := rfl

theorem childOf_or {f : Nat} (hf : f < 2 ^ 52) {fl : U64} (hlt : fl.toNat < 4096)
    (hp : fl.getLsbD 0 = true) : childOf (pageAddr f ||| fl) = some f := by
  rw [childOf_eq_some, BitVec.getLsbD_or, hp, Bool.or_true, pageOf_or hlt]
  exact ⟨rfl, pageOf_pageAddr hf⟩

theorem tblFlags_lt (flags : U64) : (tblFlags flags).toNat < 4096 := by
  unfold tblFlags
  split <;> decide

theorem tblFlags_present (flags : U64) : (tblFlags flags).getLsbD 0 = true := by
  unfold tblFlags
  split <;> decide

theorem low_toNat (x : U64) : (x &&& 0xFFF).toNat = x.toNat % 4096 := by
  rw [BitVec.toNat_and, show (0xFFF : U64).toNat = 2 ^ 12 - 1 from rfl,
    Nat.and_two_pow_sub_one_eq_mod]

theorem low_lt (x : U64) : (x &&& 0xFFF).toNat < 4096 := by
  rw [low_toNat]
  omega

theorem leafOf_eq {flags : U64} (hnx : flags &&& vmmNx = 0) (phys : U64) :
    leafOf phys flags = pageMask phys ||| ((flags &&& 0xFFF) ||| vmmPresent) := by
  unfold leafOf
  rw [if_pos hnx, BitVec.or_assoc]

theorem low_or_present_lt (flags : U64) : ((flags &&& 0xFFF) ||| vmmPresent).toNat < 4096 := by
  rw [BitVec.toNat_or]
  exact Nat.or_lt_two_pow (n := 12) (low_lt flags) (by decide)

theorem childOf_leafOf {flags : U64} (hnx : flags &&& vmmNx = 0) (phys : U64) :
    childOf (leafOf phys flags) = some (pageOf phys) := by
  rw [leafOf_eq hnx, pageMask_eq]
  apply childOf_or (pageOf_lt phys) (low_or_present_lt flags)
  rw [BitVec.getLsbD_or]
  exact Bool.or_true _

theorem pageMask_leafOf {flags : U64} (hnx : flags &&& vmmNx = 0) (phys : U64) :
    pageMask (leafOf phys flags) = pageMask phys := by
  rw [pageMask_eq, pageMask_eq, (childOf_eq_some.mp (childOf_leafOf hnx phys)).2]

theorem and_or_distrib_right (a b c : U64) : (a ||| b) &&& c = (a &&& c) ||| (b &&& c) := by
  apply BitVec.eq_of_getLsbD_eq
  intro i _
  simp only [BitVec.getLsbD_and, BitVec.getLsbD_or]
  exact Bool.and_or_distrib_right _ _ _

theorem pageMask_and_low (x : U64) : pageMask x &&& 0xFFF = 0 := by
  apply BitVec.eq_of_toNat_eq
  rw [low_toNat, pageMask_toNat]
  simp

theorem low_of_lt {x : U64} (h : x.toNat < 4096) : x &&& 0xFFF = x := by
  apply BitVec.eq_of_toNat_eq
  rw [low_toNat, Nat.mod_eq_of_lt h]

theorem leafOf_low {flags : U64} (hnx : flags &&& vmmNx = 0) (phys : U64) :
    leafOf phys flags &&& 0xFFF = (flags &&& 0xFFF) ||| vmmPresent := by
  rw [leafOf_eq hnx, and_or_distrib_right, pageMask_and_low, low_of_lt (low_or_present_lt flags)]
  exact BitVec.zero_or

/-! ## Walks -/

/-- The indices of the user half of a PML4. -/
def userIdx (i : Fin 512) : Prop := i.val < 256

instance (i : Fin 512) : Decidable (userIdx i) := inferInstanceAs (Decidable (_ < _))

theorem VPage.path_tables (v : VPage) (hv : v.User) {n : Nat} (hn : 3 ≤ n) :
    Path userIdx n v.tables :=
  ⟨hn, fun i hi => by simp only [tables, List.head?_cons, Option.mem_def] at hi; cases hi; exact hv⟩

/-- The leaf entry of a virtual page, 0 when a table above it is missing. -/
def leafEntry (m : Mem) (r : Nat) (v : VPage) : U64 :=
  match walk childOf m r v.tables with
  | some t => m t v.p1
  | none => 0

theorem walk_tables (m : Mem) (r : Nat) (v : VPage) :
    walk childOf m r v.tables = (childOf (m r v.p4)).bind fun pdpt =>
      (childOf (m pdpt v.p3)).bind fun pdt => childOf (m pdt v.p2) := by
  simp only [VPage.tables, walk, Option.bind_fun_some]

theorem vmmGetPhys_eq (pml4 virt : U64) (s : Phys) :
    vmmGetPhys pml4 virt s = pageMask (leafEntry s.mem (pageOf pml4) (vpageOf virt)) := by
  unfold vmmGetPhys leafEntry
  rw [walk_tables]
  simp only [vpageOf, childOf, Phys.entry, pageOf_pageMask]
  by_cases h4 : s.mem (pageOf pml4) (idxAt virt 39) &&& vmmPresent = 0
  · simp only [h4, if_true, Option.bind_none]
    rfl
  · by_cases h3 : s.mem (pageOf (s.mem (pageOf pml4) (idxAt virt 39))) (idxAt virt 30) &&&
        vmmPresent = 0
    · simp only [h4, h3, if_true, if_false, Option.bind_none, Option.bind_some]
      rfl
    · simp only [h4, h3, if_false, Option.bind_some]
      generalize pageOf (s.mem (pageOf (s.mem (pageOf pml4) (idxAt virt 39))) (idxAt virt 30)) = t
      by_cases h2 : s.mem t (idxAt virt 21) &&& vmmPresent = 0
      · simp only [h2, if_true]
        rfl
      · simp only [h2, if_false]

theorem vmmUnmap_eq (pml4 virt : U64) (s : Phys) :
    vmmUnmap pml4 virt s =
      match walk childOf s.mem (pageOf pml4) (vpageOf virt).tables with
      | some t => { s with mem := store s.mem t (vpageOf virt).p1 0 }
      | none => s := by
  unfold vmmUnmap
  rw [walk_tables]
  simp only [vpageOf, childOf, Phys.entry, Phys.setEntry, pageOf_pageMask]
  by_cases h4 : s.mem (pageOf pml4) (idxAt virt 39) &&& vmmPresent = 0
  · simp only [h4, if_true, Option.bind_none]
  · by_cases h3 : s.mem (pageOf (s.mem (pageOf pml4) (idxAt virt 39))) (idxAt virt 30) &&&
        vmmPresent = 0
    · simp only [h4, h3, if_true, if_false, Option.bind_none, Option.bind_some]
    · simp only [h4, h3, if_false, Option.bind_some]
      generalize pageOf (s.mem (pageOf (s.mem (pageOf pml4) (idxAt virt 39))) (idxAt virt 30)) = t
      by_cases h2 : s.mem t (idxAt virt 21) &&& vmmPresent = 0
      · simp only [h2, if_true]
      · simp only [h2, if_false]

/-! ## Ownership -/

/-- The user halves of the PML4s `roots` are a forest of `n` levels, all of it marked used. -/
structure Tables (n : Nat) (roots : Set Nat) (s : Phys) : Prop where
  valid : s.pmm.Valid
  forest : Forest childOf userIdx n s.mem roots
  used : ∀ f, Node childOf userIdx n s.mem roots f → s.pmm.Used f
  nonzero : ∀ f, Node childOf userIdx n s.mem roots f → f ≠ 0

/-- `s'` is `s` after the pages `L` were taken and made part of the tables of `roots`: no walk is
lost, no leaf entry changes, nothing outside the tables and `L` is written. -/
structure Grown (n : Nat) (roots : Set Nat) (L : List Nat) (s s' : Phys) : Prop where
  tables : Tables n roots s'
  takes : s.pmm.Takes L s'.pmm
  node : ∀ f, Node childOf userIdx n s'.mem roots f ↔ Node childOf userIdx n s.mem roots f ∨ f ∈ L
  walk : ∀ r ∈ roots, ∀ ρ f, Path userIdx n ρ → walk childOf s.mem r ρ = some f →
    walk childOf s'.mem r ρ = some f
  leaf : ∀ r ∈ roots, ∀ v : VPage, v.User → leafEntry s'.mem r v = leafEntry s.mem r v
  mem : ∀ f, ¬ Node childOf userIdx n s.mem roots f → f ∉ L → s'.mem f = s.mem f
  kernelHalf : ∀ r ∈ roots, ∀ i : Fin 512, ¬ userIdx i → s'.mem r i = s.mem r i

section Grow

variable {n : Nat} {roots : Set Nat} {s s' s'' : Phys} {L L' : List Nat}

theorem Tables.mono {n' : Nat} {roots' : Set Nat} (h : Tables n' roots' s) (hn : n ≤ n')
    (hs : roots ⊆ roots') : Tables n roots s :=
  ⟨h.valid, h.forest.mono hn hs, fun f hf => h.used f (hf.mono hn hs),
    fun f hf => h.nonzero f (hf.mono hn hs)⟩

theorem Tables.root {r : Nat} (h : Tables n roots s) (hr : r ∈ roots) : Tables n {r} s :=
  h.mono (le_refl n) (Set.singleton_subset_iff.mpr hr)

theorem Tables.union {roots' : Set Nat} (h : Tables n roots s) (h' : Tables n roots' s)
    (hdisj : ∀ g, Node childOf userIdx n s.mem roots g → ¬ Node childOf userIdx n s.mem roots' g) :
    Tables n (roots ∪ roots') s :=
  ⟨h.valid, h.forest.union h'.forest hdisj,
    fun f hf => (Node.union_iff.mp hf).elim (h.used f) (h'.used f),
    fun f hf => (Node.union_iff.mp hf).elim (h.nonzero f) (h'.nonzero f)⟩

theorem Tables.not_node_of_free (h : Tables n roots s) {f : Nat} (hf : s.pmm.Free f) :
    ¬ Node childOf userIdx n s.mem roots f := fun hn => Pmm.not_free_of_used (h.used f hn) hf

theorem Grown.refl (h : Tables n roots s) : Grown n roots [] s s where
  tables := h
  takes := Pmm.Takes.nil _
  node := fun _ => by simp
  walk := fun _ _ _ _ _ hw => hw
  leaf := fun _ _ _ _ => rfl
  mem := fun _ _ _ => rfl
  kernelHalf := fun _ _ _ _ => rfl

theorem Grown.trans (h : Grown n roots L s s') (h' : Grown n roots L' s' s'') :
    Grown n roots (L ++ L') s s'' where
  tables := h'.tables
  takes := h.takes.append h'.takes
  node := fun f => by rw [h'.node, h.node, List.mem_append, or_assoc]
  walk := fun r hr ρ f hp hw => h'.walk r hr ρ f hp (h.walk r hr ρ f hp hw)
  leaf := fun r hr v hv => (h'.leaf r hr v hv).trans (h.leaf r hr v hv)
  mem := fun f hn hL => by
    rw [List.mem_append, not_or] at hL
    rw [h'.mem f (fun hn' => (h.node f).mp hn' |>.elim hn hL.1) hL.2, h.mem f hn hL.1]
  kernelHalf := fun r hr i hi => (h'.kernelHalf r hr i hi).trans (h.kernelHalf r hr i hi)

theorem Tables.grow (h : Tables n roots s) (hn : 3 ≤ n) {r t c : Nat} {π : List (Fin 512)}
    {i : Fin 512} {fl : U64} (hr : r ∈ roots) (hπ : Path userIdx n (π ++ [i]))
    (ht : walk childOf s.mem r π = some t) (hlen : π.length < 3) (hold : childOf (s.mem t i) = none)
    (hc : s.pmm.Free c) (hfl : fl.toNat < 4096) (hp : fl.getLsbD 0 = true) :
    Grown n roots [c] s ⟨s.pmm.mark c,
      store (update s.mem c fun _ => 0) t i (pageAddr c ||| fl)⟩ ∧
    (∀ r' ∈ roots, ∀ ρ, Path userIdx n ρ → ¬ (r' = r ∧ ρ = π ++ [i]) →
      walk childOf (store (update s.mem c fun _ => 0) t i (pageAddr c ||| fl)) r' ρ =
        walk childOf s.mem r' ρ) := by
  generalize hm₁ : update s.mem c (fun _ => (0 : U64)) = m₁
  have hπ' := hπ.of_append
  have hnc : ¬ Node childOf userIdx n s.mem roots c := h.not_node_of_free hc
  have hagree : ∀ f, Node childOf userIdx n s.mem roots f → m₁ f = s.mem f := fun f hn => by
    have hfc : f ≠ c := fun hfc => hnc (hfc ▸ hn)
    rw [← hm₁, update_of_ne hfc]
  have hzero : ∀ j, m₁ c j = 0 := fun j => by rw [← hm₁, update_self]
  have htn : Node childOf userIdx n s.mem roots t := ⟨r, hr, π, hπ', ht⟩
  have hF := h.forest.congr hagree (Nat.le_succ n)
  have ht₁ : walk childOf m₁ r π = some t := (walk_congr hagree (Nat.le_succ n) hr hπ').trans ht
  have he : childOf (pageAddr c ||| fl) = some c := childOf_or hc.lt hfl hp
  have hfresh : ¬ Node childOf userIdx n m₁ roots c := fun hn =>
    hnc ((Node.congr hagree (Nat.le_succ n)).mp hn)
  have hempty : π.length + 1 < n → ∀ j, childOf (m₁ c j) = none := fun _ j => by
    rw [hzero j, childOf_zero]
  have hold₁ : childOf (m₁ t i) = none := by rw [hagree t htn, hold]
  have hct : c ≠ t := fun hct => hnc (hct ▸ htn)
  have hother : ∀ r' ∈ roots, ∀ ρ, Path userIdx n ρ → ¬ (r' = r ∧ ρ = π ++ [i]) →
      walk childOf (store m₁ t i (pageAddr c ||| fl)) r' ρ = walk childOf s.mem r' ρ := by
    intro r' hr' ρ hρ hne
    rw [← walk_congr hagree (Nat.le_succ n) hr' hρ]
    cases hw : walk childOf m₁ r' ρ with
    | some f => exact hF.walk_store_of_walk hr hπ' ht₁ hold₁ hr' hρ hw
    | none =>
      cases hw' : walk childOf (store m₁ t i (pageAddr c ||| fl)) r' ρ with
      | none => rfl
      | some f =>
        rcases hF.walk_store_fresh hr hπ' ht₁ he hfresh hempty hr' hρ hw' with ⟨h1, h2, -⟩ | ⟨ho, -⟩
        · exact absurd ⟨h1, h2⟩ hne
        · rw [hw] at ho
          exact absurd ho (by simp)
  refine ⟨⟨⟨h.valid.mark hc, hF.store_fresh hr hπ' ht₁ he hfresh hempty, fun f hn => ?_,
    fun f hn => ?_⟩, Pmm.Takes.single hc, fun f => ?_, fun r' hr' ρ f hρ hw => ?_,
    fun r' hr' v hv => ?_, fun f hn hL => ?_, fun r' hr' j hj => ?_⟩, hother⟩
  · -- every node is used
    rw [hF.node_store_fresh hr hπ ht₁ he hfresh hempty hold₁,
      Node.congr hagree (Nat.le_succ n)] at hn
    rcases hn with hn | rfl
    · exact (Pmm.used_mark hc.1).mpr (Or.inl (h.used f hn))
    · exact (Pmm.used_mark hc.1).mpr (Or.inr rfl)
  · rw [hF.node_store_fresh hr hπ ht₁ he hfresh hempty hold₁,
      Node.congr hagree (Nat.le_succ n)] at hn
    rcases hn with hn | rfl
    · exact h.nonzero f hn
    · exact h.valid.free_ne_zero hc
  · rw [hF.node_store_fresh hr hπ ht₁ he hfresh hempty hold₁,
      Node.congr hagree (Nat.le_succ n), List.mem_singleton]
  · exact hF.walk_store_of_walk hr hπ' ht₁ hold₁ hr' hρ 
      ((walk_congr hagree (Nat.le_succ n) hr' hρ).trans hw)
  · -- the entry written sits above the last level, and the new table is zero
    show leafEntry (store m₁ t i _) r' v = leafEntry s.mem r' v
    have hρ : Path userIdx n v.tables := v.path_tables hv hn
    unfold leafEntry
    by_cases hpath : r' = r ∧ v.tables = π ++ [i]
    · obtain ⟨rfl, hv'⟩ := hpath
      have hw : walk childOf s.mem r' v.tables = none := by
        rw [hv', walk_concat, ht, Option.bind_some, hold]
      have hw' : walk childOf (store m₁ t i (pageAddr c ||| fl)) r' v.tables = some c := by
        rw [hv', hF.walk_store_prefix hr hπ' ht₁, he]
        rfl
      rw [hw, hw']
      show store m₁ t i _ c v.p1 = 0
      rw [store_table hct, hzero]
    · rw [hother r' hr' v.tables hρ hpath]
      cases hw : walk childOf s.mem r' v.tables with
      | none => rfl
      | some t' =>
        have htt : t' ≠ t := by
          rintro rfl
          have hlen' := congrArg List.length (h.forest r' hr' r hr v.tables π t' hρ hπ' hw ht).2
          simp only [VPage.tables, List.length_cons, List.length_nil] at hlen'
          omega
        show store m₁ t i _ t' v.p1 = s.mem t' v.p1
        rw [store_table htt, hagree t' ⟨r', hr', v.tables, hρ, hw⟩]
  · rw [List.mem_singleton] at hL
    have hft : f ≠ t := fun hft => hn (hft ▸ htn)
    show store m₁ t i _ f = s.mem f
    rw [store_table hft, ← hm₁, update_of_ne hL]
  · show store m₁ t i _ r' j = s.mem r' j
    rw [store_ne, hagree r' (Node.root hr')]
    rintro ⟨rfl, rfl⟩
    obtain ⟨rfl, rfl⟩ := h.forest r' hr' r hr [] π r' Path.nil hπ' rfl ht
    exact hj (hπ.2 j rfl)

/-- **`get_or_alloc`** returns the table under an entry, creating it if there is none. Every other
walk is what it was. -/
theorem getOrAlloc_spec (h : Tables n roots s) (hn : 3 ≤ n) {r t : Nat} {π : List (Fin 512)}
    {i : Fin 512} {table fl : U64} (hr : r ∈ roots) (hπ : Path userIdx n (π ++ [i]))
    (ht : walk childOf s.mem r π = some t) (htab : pageOf table = t) (hlen : π.length < 3)
    (hfl : fl.toNat < 4096) (hp : fl.getLsbD 0 = true)
    (hroom : walk childOf s.mem r (π ++ [i]) = none → 0 < s.pmm.clearBits) :
    ∃ c L s', getOrAlloc table i fl s = (pageAddr c, s') ∧ c < 2 ^ 52 ∧ Grown n roots L s s' ∧
      walk childOf s'.mem r (π ++ [i]) = some c ∧
      L.length = (if walk childOf s.mem r (π ++ [i]) = none then 1 else 0) ∧
      ∀ r' ∈ roots, ∀ ρ, Path userIdx n ρ → ¬ (r' = r ∧ ρ = π ++ [i]) →
        walk childOf s'.mem r' ρ = walk childOf s.mem r' ρ := by
  have hw : walk childOf s.mem r (π ++ [i]) = childOf (s.mem t i) := by
    rw [walk_concat, ht, Option.bind_some]
  rw [hw] at hroom ⊢
  unfold getOrAlloc
  simp only [Phys.entry, htab]
  cases hc : childOf (s.mem t i) with
  | some c =>
    obtain ⟨hbit, rfl⟩ := childOf_eq_some.mp hc
    rw [if_neg (by rw [and_present_eq_zero, hbit]; exact Bool.noConfusion), pageMask_eq]
    exact ⟨_, [], s, rfl, pageOf_lt _, Grown.refl h, hw.trans hc, rfl, fun _ _ _ _ _ => rfl⟩
  | none =>
    rw [if_pos ((and_present_eq_zero _).mpr (childOf_eq_none.mp hc))]
    obtain ⟨c₀, hc₀⟩ := exists_free_of_clearBits_pos (hroom hc)
    rcases Phys.alloc_cases h.valid with ⟨hnone, -⟩ | ⟨c, hfree, -, hne, he⟩
    · exact absurd hc₀ (hnone c₀)
    · rw [he]
      simp only [if_neg hne, Phys.setEntry, Phys.kmemsetPage, pageOf_pageAddr hfree.lt, htab,
        store_self]
      obtain ⟨hg, hother⟩ := h.grow hn hr hπ ht hlen hc hfree hfl hp
      have hself : walk childOf (store (update s.mem c fun _ => 0) t i
          (pageAddr c ||| fl)) r (π ++ [i]) = some c := by
        have ht' := hg.walk r hr π t hπ.of_append ht
        simp only at ht'
        rw [walk_concat, ht', Option.bind_some, store_self, childOf_or hfree.lt hfl hp]
      refine ⟨c, [c], _, ?_, hfree.lt, hg, hself, rfl, hother⟩
      rw [pageMask_eq, (childOf_eq_some.mp (childOf_or hfree.lt hfl hp)).2]

theorem getOrAlloc_pmm (hv : s.pmm.Valid) (table : U64) (i : Fin 512) (fl : U64) :
    (getOrAlloc table i fl s).2.pmm.Valid ∧
      (getOrAlloc table i fl s).2.pmm.clearBits ≤ s.pmm.clearBits ∧
      s.pmm.clearBits ≤ (getOrAlloc table i fl s).2.pmm.clearBits + 1 := by
  unfold getOrAlloc
  split
  · rcases Phys.alloc_cases hv with ⟨-, he⟩ | ⟨c, hc, -, hne, he⟩
    · rw [he]
      exact ⟨hv, le_refl _, Nat.le_succ _⟩
    · simp only [he, if_neg hne]
      exact ⟨hv.mark hc, (Nat.le_succ _).trans (Pmm.clearBits_mark hc).ge, (Pmm.clearBits_mark hc).le⟩
  · exact ⟨hv, le_refl _, Nat.le_succ _⟩

theorem vmmMap_valid (hv : s.pmm.Valid) (pml4 virt phys flags : U64) :
    (vmmMap pml4 virt phys flags s).pmm.Valid :=
  (getOrAlloc_pmm (getOrAlloc_pmm (getOrAlloc_pmm hv _ _ _).1 _ _ _).1 _ _ _).1

/-- `vmm_map` takes at most three pages, whatever the tables are. -/
theorem vmmMap_clearBits (hv : s.pmm.Valid) (pml4 virt phys flags : U64) :
    s.pmm.clearBits ≤ (vmmMap pml4 virt phys flags s).pmm.clearBits + 3 := by
  have h₁ := getOrAlloc_pmm hv pml4 (idxAt virt 39) (tblFlags flags)
  have h₂ := getOrAlloc_pmm h₁.1 (getOrAlloc pml4 (idxAt virt 39) (tblFlags flags) s).1
    (idxAt virt 30) (tblFlags flags)
  exact h₁.2.2.trans (Nat.add_le_add_right
    (h₂.2.2.trans (Nat.add_le_add_right (getOrAlloc_pmm h₂.1 _ _ _).2.2 1)) 1)

/-- How many tables are missing on the way to a page. -/
def missing (m : Mem) (r : Nat) (v : VPage) : Nat :=
  (if walk childOf m r [v.p4] = none then 1 else 0) +
    (if walk childOf m r [v.p4, v.p3] = none then 1 else 0) +
    (if walk childOf m r v.tables = none then 1 else 0)

/-- **The tables of `vmm_map`.** With enough free pages, or if there is one left afterwards, it creates
exactly the missing tables and then writes the leaf entry. -/
theorem vmmMap_tables (h : Tables n roots s) (hn : 3 ≤ n) {pml4 virt : U64}
    (hr : pageOf pml4 ∈ roots) (hv : (vpageOf virt).User) (phys flags : U64)
    (hroom : missing s.mem (pageOf pml4) (vpageOf virt) ≤ s.pmm.clearBits ∨
      0 < (vmmMap pml4 virt phys flags s).pmm.clearBits) :
    ∃ L s₁ pt, vmmMap pml4 virt phys flags s =
        { s₁ with mem := store s₁.mem pt (vpageOf virt).p1 (leafOf phys flags) } ∧
      Grown n roots L s s₁ ∧ walk childOf s₁.mem (pageOf pml4) (vpageOf virt).tables = some pt ∧
      L.length = missing s.mem (pageOf pml4) (vpageOf virt) ∧
      ∀ r' ∈ roots, ∀ ρ, Path userIdx n ρ →
        ¬ (r' = pageOf pml4 ∧ ρ ∈ [[(vpageOf virt).p4], [(vpageOf virt).p4, (vpageOf virt).p3],
          (vpageOf virt).tables]) →
        walk childOf s₁.mem r' ρ = walk childOf s.mem r' ρ := by
  obtain ⟨r, hr₀⟩ : ∃ r, r = pageOf pml4 := ⟨_, rfl⟩
  obtain ⟨p4, hp4⟩ : ∃ p4, p4 = idxAt virt 39 := ⟨_, rfl⟩
  obtain ⟨p3, hp3⟩ : ∃ p3, p3 = idxAt virt 30 := ⟨_, rfl⟩
  obtain ⟨p2, hp2⟩ : ∃ p2, p2 = idxAt virt 21 := ⟨_, rfl⟩
  have path : ∀ σ : List (Fin 512), σ.length ≤ 2 → Path userIdx n (p4 :: σ) := fun σ hσ =>
    ⟨by rw [List.length_cons]; omega, fun i hi => by cases hi; exact hp4 ▸ hv⟩
  simp only [missing, VPage.tables, vpageOf, ← hr₀, ← hp4, ← hp3, ← hp2] at hr hroom ⊢
  have hpmm : (vmmMap pml4 virt phys flags s).pmm =
      (getOrAlloc (getOrAlloc (getOrAlloc pml4 p4 (tblFlags flags) s).1 p3 (tblFlags flags)
        (getOrAlloc pml4 p4 (tblFlags flags) s).2).1 p2 (tblFlags flags)
        (getOrAlloc (getOrAlloc pml4 p4 (tblFlags flags) s).1 p3 (tblFlags flags)
          (getOrAlloc pml4 p4 (tblFlags flags) s).2).2).2.pmm := by
    rw [hp4, hp3, hp2]
    rfl
  rw [hpmm] at hroom
  -- the three calls, each on the memory the previous one left
  have w₀ : walk childOf s.mem r [] = some r := rfl
  obtain ⟨c₁, L₁, s₁, e₁, hc₁, g₁, w₁, l₁, o₁⟩ := getOrAlloc_spec h hn hr
    (path [] (by simp)) w₀ hr₀.symm (by simp)
    (tblFlags_lt flags) (tblFlags_present flags) (fun hw => by
      rw [List.nil_append] at hw
      rw [if_pos hw] at hroom
      have m₁ := getOrAlloc_pmm h.valid pml4 p4 (tblFlags flags)
      have m₂ := getOrAlloc_pmm m₁.1 (getOrAlloc pml4 p4 (tblFlags flags) s).1 p3 (tblFlags flags)
      have m₃ := (getOrAlloc_pmm m₂.1 (getOrAlloc (getOrAlloc pml4 p4 (tblFlags flags) s).1 p3
        (tblFlags flags) (getOrAlloc pml4 p4 (tblFlags flags) s).2).1 p2 (tblFlags flags)).2
      omega)
  rw [List.nil_append] at w₁ l₁ o₁
  simp only [e₁] at hroom
  have b₁ := g₁.takes.clearBits
  have k₁ := o₁ r hr [p4, p3] (path [p3] (by simp)) (by simp)
  have k₁' := o₁ r hr [p4, p3, p2] (path [p3, p2] (by simp)) (by simp)
  obtain ⟨c₂, L₂, s₂, e₂, hc₂, g₂, w₂, l₂, o₂⟩ := getOrAlloc_spec g₁.tables hn hr
    (path [p3] (by simp) : Path userIdx n ([p4] ++ [p3])) w₁ (pageOf_pageAddr hc₁) (by simp)
    (tblFlags_lt flags) (tblFlags_present flags) (fun hw => by
      rw [List.singleton_append, k₁] at hw
      rw [if_pos hw, ← l₁] at hroom
      have m₂ := getOrAlloc_pmm g₁.tables.valid (pageAddr c₁) p3 (tblFlags flags)
      have m₃ := (getOrAlloc_pmm m₂.1 (getOrAlloc (pageAddr c₁) p3 (tblFlags flags) s₁).1 p2
        (tblFlags flags)).2
      omega)
  rw [List.singleton_append, k₁] at l₂
  rw [List.singleton_append] at w₂ o₂
  simp only [e₂] at hroom
  have b₂ := g₂.takes.clearBits
  have k₂ := o₂ r hr [p4, p3, p2] (path [p3, p2] (by simp)) (by simp)
  obtain ⟨c₃, L₃, s₃, e₃, hc₃, g₃, w₃, l₃, o₃⟩ := getOrAlloc_spec g₂.tables hn hr
    (path [p3, p2] (by simp) : Path userIdx n ([p4, p3] ++ [p2])) w₂ (pageOf_pageAddr hc₂)
    (by simp) (tblFlags_lt flags) (tblFlags_present flags) (fun hw => by
      rw [show [p4, p3] ++ [p2] = [p4, p3, p2] from rfl, k₂, k₁'] at hw
      rw [if_pos hw, ← l₁, ← l₂] at hroom
      have m₃ := (getOrAlloc_pmm g₂.tables.valid (pageAddr c₂) p2 (tblFlags flags)).2
      omega)
  rw [show [p4, p3] ++ [p2] = [p4, p3, p2] from rfl] at w₃ l₃ o₃
  rw [k₂, k₁'] at l₃
  refine ⟨L₁ ++ L₂ ++ L₃, s₃, c₃, ?_, (g₁.trans g₂).trans g₃, w₃, ?_, fun r' hr' ρ hρ hne => ?_⟩
  · unfold vmmMap
    simp only [← hp4, ← hp3, ← hp2, e₁, e₂, e₃, Phys.setEntry, pageOf_pageAddr hc₃]
  · rw [List.length_append, List.length_append, l₁, l₂, l₃]
  · simp only [List.mem_cons, List.not_mem_nil, or_false, not_and, not_or] at hne
    rw [o₃ r' hr' ρ hρ fun hx => (hne hx.1).2.2 hx.2, o₂ r' hr' ρ hρ fun hx => (hne hx.1).2.1 hx.2,
      o₁ r' hr' ρ hρ fun hx => (hne hx.1).1 hx.2]

theorem missing_le_of_vmmMap (h : Tables n roots s) (hn : 3 ≤ n) {pml4 virt phys flags : U64}
    (hr : pageOf pml4 ∈ roots) (hv : (vpageOf virt).User)
    (hleft : 0 < (vmmMap pml4 virt phys flags s).pmm.clearBits) :
    missing s.mem (pageOf pml4) (vpageOf virt) ≤ s.pmm.clearBits := by
  obtain ⟨L, s₁, pt, -, hg, -, hlen, -⟩ := vmmMap_tables h hn hr hv phys flags (Or.inr hleft)
  have hbits := hg.takes.clearBits
  omega

theorem getOrAlloc_null (hv : s.pmm.Valid) (hfull : s.pmm.clearBits = 0) {table : U64} {i : Fin 512}
    (habs : s.entry table i &&& vmmPresent = 0) (fl : U64) : getOrAlloc table i fl s = (0, s) := by
  rcases Phys.alloc_cases hv with ⟨-, he⟩ | ⟨c, hc, -, -, -⟩
  · simp only [getOrAlloc, if_pos habs, he, if_true]
  · have := Pmm.clearBits_pos hc
    omega

/-- The pages that page 0, taken for a table, leads to in `k` steps. -/
def NullTable (k : Nat) (m : Mem) (g : Nat) : Prop := Node childOf (fun _ => True) k m {0} g

/-- With no page left, `get_or_alloc` goes on from a page that `NULL` led to, or is back at
`NULL`. -/
theorem getOrAlloc_nullTable (hv : s.pmm.Valid) (hfull : s.pmm.clearBits = 0) {table : U64}
    {k : Nat} (ht : NullTable k s.mem (pageOf table)) (i : Fin 512) (fl : U64) :
    ∃ c, getOrAlloc table i fl s = (c, s) ∧ NullTable (k + 1) s.mem (pageOf c) := by
  by_cases habs : s.entry table i &&& vmmPresent = 0
  · exact ⟨0, getOrAlloc_null hv hfull habs fl, Node.root rfl⟩
  · refine ⟨pageMask (s.entry table i), by rw [getOrAlloc, if_neg habs], ?_⟩
    obtain ⟨r, hr, π, hπ, hw⟩ := ht
    refine ⟨r, hr, π ++ [i], ⟨?_, fun _ _ => trivial⟩, ?_⟩
    · rw [List.length_append]
      exact Nat.succ_le_succ hπ.1
    · rw [walk_concat, hw, Option.bind_some, pageOf_pageMask]
      rw [and_present_eq_zero, Bool.not_eq_false] at habs
      exact childOf_eq_some.mpr ⟨habs, rfl⟩

/-- **`vmm_map` without pages for its tables** takes those there are and writes the leaf entry into
page 0 or a page that page 0 leads to, if these pages are no tables and not free. -/
theorem vmmMap_nullTable (h : Tables n roots s) (hn : 3 ≤ n) {pml4 virt : U64}
    (hr : pageOf pml4 ∈ roots) (hv : (vpageOf virt).User) (phys flags : U64)
    (hnull : ∀ g, NullTable 2 s.mem g → ¬ s.pmm.Free g ∧ ¬ Node childOf userIdx n s.mem roots g)
    (hst : s.pmm.clearBits < missing s.mem (pageOf pml4) (vpageOf virt)) :
    ∃ L s₁ g, vmmMap pml4 virt phys flags s =
        { s₁ with mem := store s₁.mem g (vpageOf virt).p1 (leafOf phys flags) } ∧
      Grown n roots L s s₁ ∧ s₁.pmm.clearBits = 0 ∧ NullTable 2 s.mem g := by
  obtain ⟨r, hr₀⟩ : ∃ r, r = pageOf pml4 := ⟨_, rfl⟩
  obtain ⟨p4, hp4⟩ : ∃ p4, p4 = idxAt virt 39 := ⟨_, rfl⟩
  obtain ⟨p3, hp3⟩ : ∃ p3, p3 = idxAt virt 30 := ⟨_, rfl⟩
  obtain ⟨p2, hp2⟩ : ∃ p2, p2 = idxAt virt 21 := ⟨_, rfl⟩
  have path : ∀ σ : List (Fin 512), σ.length ≤ 2 → Path userIdx n (p4 :: σ) := fun σ hσ =>
    ⟨by rw [List.length_cons]; omega, fun i hi => by cases hi; exact hp4 ▸ hv⟩
  simp only [missing, VPage.tables, vpageOf, ← hr₀, ← hp4, ← hp3, ← hp2] at hr hst ⊢
  unfold vmmMap
  simp only [← hp4, ← hp3, ← hp2]
  have hlow := tblFlags_lt flags
  have hpres := tblFlags_present flags
  generalize tblFlags flags = fl at hlow hpres ⊢
  -- once a table is `NULL`, page 0 stands for it
  have hagree (t : Phys) (L : List Nat) (hg : Grown n roots L s t) (k : Nat) (hk : k ≤ 2)
      (g : Nat) : NullTable k t.mem g ↔ NullTable k s.mem g := by
    refine Node.congr (fun x hx => ?_) (Nat.le_succ k)
    obtain ⟨hfree, hnode⟩ := hnull x (hx.mono hk (subset_refl _))
    exact hg.mem x hnode fun hL => hfree (hg.takes.free_of_mem x hL)
  have hdown (t : Phys) (L : List Nat) (hg : Grown n roots L s t) (hfull : t.pmm.clearBits = 0)
      (table : U64) (k : Nat) (hk : k ≤ 1) (ht : NullTable k s.mem (pageOf table)) (i : Fin 512) :
      ∃ c, getOrAlloc table i fl t = (c, t) ∧ NullTable (k + 1) s.mem (pageOf c) := by
    obtain ⟨c, he, hc⟩ := getOrAlloc_nullTable hg.tables.valid hfull
      ((hagree t L hg k (by omega) _).mpr ht) i fl
    exact ⟨c, he, (hagree t L hg (k + 1) (by omega) _).mp hc⟩
  have hroot (k : Nat) : NullTable k s.mem (pageOf 0) := Node.root rfl
  have hlast (t : Phys) (table : U64) (i : Fin 512) : Phys.setEntry table i (leafOf phys flags) t =
      { t with mem := store t.mem (pageOf table) i (leafOf phys flags) } := rfl
  have habs (t : Phys) (table : U64) (x : Nat) (π : List (Fin 512)) (i : Fin 512)
      (hx : walk childOf t.mem r π = some x) (hpage : pageOf table = x)
      (hnone : walk childOf t.mem r (π ++ [i]) = none) : t.entry table i &&& vmmPresent = 0 := by
    rw [walk_concat, hx, Option.bind_some, childOf_eq_none, ← and_present_eq_zero] at hnone
    rwa [Phys.entry, hpage]
  have w₀ : walk childOf s.mem r [] = some r := rfl
  by_cases f₁ : walk childOf s.mem r [p4] = none ∧ s.pmm.clearBits = 0
  · rw [getOrAlloc_null h.valid f₁.2 (habs s pml4 r [] p4 w₀ hr₀.symm f₁.1) fl]
    obtain ⟨c, e₂, hc⟩ := hdown s [] (Grown.refl h) f₁.2 0 0 (Nat.zero_le 1) (hroot 0) p3
    obtain ⟨d, e₃, hd⟩ := hdown s [] (Grown.refl h) f₁.2 c 1 (le_refl 1) hc p2
    simp only [e₂, e₃, hlast]
    exact ⟨[], s, pageOf d, rfl, Grown.refl h, f₁.2, hd⟩
  obtain ⟨c₁, L₁, s₁, e₁, hc₁, g₁, w₁, l₁, o₁⟩ := getOrAlloc_spec h hn hr
    (path [] (by simp)) w₀ hr₀.symm (by simp) hlow hpres
    fun hw => Nat.pos_of_ne_zero fun hz => f₁ ⟨hw, hz⟩
  rw [List.nil_append] at w₁ l₁ o₁
  have b₁ := g₁.takes.clearBits
  have k₁ := o₁ r hr [p4, p3] (path [p3] (by simp)) (by simp)
  have k₁' := o₁ r hr [p4, p3, p2] (path [p3, p2] (by simp)) (by simp)
  simp only [e₁]
  by_cases f₂ : walk childOf s₁.mem r [p4, p3] = none ∧ s₁.pmm.clearBits = 0
  · rw [getOrAlloc_null g₁.tables.valid f₂.2
      (habs s₁ _ c₁ [p4] p3 w₁ (pageOf_pageAddr hc₁) f₂.1) fl]
    obtain ⟨d, e₃, hd⟩ := hdown s₁ L₁ g₁ f₂.2 0 1 (le_refl 1) (hroot 1) p2
    simp only [e₃, hlast]
    exact ⟨L₁, s₁, pageOf d, rfl, g₁, f₂.2, hd⟩
  obtain ⟨c₂, L₂, s₂, e₂, hc₂, g₂, w₂, l₂, o₂⟩ := getOrAlloc_spec g₁.tables hn hr
    (path [p3] (by simp) : Path userIdx n ([p4] ++ [p3])) w₁ (pageOf_pageAddr hc₁) (by simp)
    hlow hpres fun hw => Nat.pos_of_ne_zero fun hz => f₂ ⟨hw, hz⟩
  rw [List.singleton_append, k₁] at l₂
  rw [List.singleton_append] at w₂ o₂
  have b₂ := g₂.takes.clearBits
  have k₂ := o₂ r hr [p4, p3, p2] (path [p3, p2] (by simp)) (by simp)
  simp only [e₂]
  rw [← l₁, ← l₂] at hst
  -- the two upper tables are there, so it is the last one that is missing
  have f₃ : walk childOf s.mem r [p4, p3, p2] = none ∧ s₂.pmm.clearBits = 0 := by
    split_ifs at hst with hw
    · exact ⟨hw, by omega⟩
    · omega
  rw [getOrAlloc_null g₂.tables.valid f₃.2
    (habs s₂ _ c₂ [p4, p3] p2 w₂ (pageOf_pageAddr hc₂) ((k₂.trans k₁').trans f₃.1)) fl]
  simp only [hlast]
  exact ⟨L₁ ++ L₂, s₂, pageOf 0, rfl, g₁.trans g₂, f₃.2, hroot 2⟩

end Grow

theorem Tables.frame {n k : Nat} {roots : Set Nat} {s s' : Phys} (h : Tables n roots s)
    (hk : n ≤ k + 1) (hv : s'.pmm.Valid)
    (hm : ∀ f, Node childOf userIdx k s.mem roots f → s'.mem f = s.mem f)
    (hu : ∀ f, Node childOf userIdx n s.mem roots f → s'.pmm.Used f) : Tables n roots s' :=
  ⟨hv, h.forest.congr hm hk, fun f hn => hu f ((Node.congr hm hk).mp hn),
    fun f hn => h.nonzero f ((Node.congr hm hk).mp hn)⟩

theorem leafEntry_congr {roots : Set Nat} {m m' : Mem} {r : Nat} {v : VPage}
    (hm : ∀ f, Node childOf userIdx 3 m roots f → m' f = m f) (hr : r ∈ roots) (hv : v.User) :
    leafEntry m' r v = leafEntry m r v := by
  have hp := v.path_tables hv (le_refl 3)
  unfold leafEntry
  rw [walk_congr hm (Nat.le_succ 3) hr hp]
  cases hw : walk childOf m r v.tables with
  | none => rfl
  | some t =>
    simp only
    rw [hm t ⟨r, hr, v.tables, hp, hw⟩]

/-! ## Writing a leaf entry -/

section Leaf

variable {roots : Set Nat} {s : Phys} {m : Mem} {r r' pt : Nat} {v w : VPage} {e : U64}

theorem VPage.eq_of_tables (ht : v.tables = w.tables) (h1 : v.p1 = w.p1) : v = w := by
  obtain ⟨a, b, c, d⟩ := v
  obtain ⟨a', b', c', d'⟩ := w
  simp only [tables, List.cons.injEq, and_true] at ht
  obtain ⟨rfl, rfl, rfl⟩ := ht
  cases h1
  rfl

theorem walk_storeLeaf (hF : Forest childOf userIdx 3 m roots) (hr : r ∈ roots) (hv : v.User)
    (hw : walk childOf m r v.tables = some pt) (hr' : r' ∈ roots) {ρ : List (Fin 512)}
    (hρ : Path userIdx 3 ρ) : walk childOf (store m pt v.p1 e) r' ρ = walk childOf m r' ρ := by
  apply hF.walk_store_of_not_prefix hr (v.path_tables hv (le_refl 3)) hw hr' hρ
  rintro ⟨-, hpre⟩
  have h1 := hpre.length_le
  have h2 := hρ.1
  simp only [VPage.tables, List.length_append, List.length_cons, List.length_nil] at h1
  omega

theorem leafEntry_storeLeaf (hF : Forest childOf userIdx 3 m roots) (hr : r ∈ roots) (hv : v.User)
    (hw : walk childOf m r v.tables = some pt) (hr' : r' ∈ roots) (hw' : w.User) :
    leafEntry (store m pt v.p1 e) r' w = if r' = r ∧ w = v then e else leafEntry m r' w := by
  have hp := w.path_tables hw' (le_refl 3)
  unfold leafEntry
  rw [walk_storeLeaf hF hr hv hw hr' hp]
  by_cases h : r' = r ∧ w = v
  · obtain ⟨rfl, rfl⟩ := h
    rw [if_pos ⟨rfl, rfl⟩, hw]
    exact store_self m pt w.p1 e
  · rw [if_neg h]
    cases hwalk : walk childOf m r' w.tables with
    | none => rfl
    | some t =>
      apply store_ne
      rintro ⟨rfl, h1⟩
      obtain ⟨rfl, ht⟩ := hF r' hr' r hr w.tables v.tables t hp
        (v.path_tables hv (le_refl 3)) hwalk hw
      exact h ⟨rfl, VPage.eq_of_tables ht h1⟩

theorem Tables.storeLeaf (h : Tables 3 roots s) (hr : r ∈ roots) (hv : v.User)
    (hw : walk childOf s.mem r v.tables = some pt) :
    Tables 3 roots { s with mem := store s.mem pt v.p1 e } := by
  have hwalk : ∀ r' ∈ roots, ∀ ρ, Path userIdx 3 ρ →
      walk childOf (store s.mem pt v.p1 e) r' ρ = walk childOf s.mem r' ρ :=
    fun r' hr' ρ hρ => walk_storeLeaf h.forest hr hv hw hr' hρ
  refine ⟨h.valid, fun r₁ h₁ r₂ h₂ π₁ π₂ f p₁ p₂ w₁ w₂ => ?_, ?_, ?_⟩
  · rw [hwalk r₁ h₁ π₁ p₁] at w₁
    rw [hwalk r₂ h₂ π₂ p₂] at w₂
    exact h.forest r₁ h₁ r₂ h₂ π₁ π₂ f p₁ p₂ w₁ w₂
  · rintro f ⟨r₁, h₁, π₁, p₁, w₁⟩
    rw [hwalk r₁ h₁ π₁ p₁] at w₁
    exact h.used f ⟨r₁, h₁, π₁, p₁, w₁⟩
  · rintro f ⟨r₁, h₁, π₁, p₁, w₁⟩
    rw [hwalk r₁ h₁ π₁ p₁] at w₁
    exact h.nonzero f ⟨r₁, h₁, π₁, p₁, w₁⟩

theorem node_storeLeaf (hF : Forest childOf userIdx 3 m roots) (hr : r ∈ roots) (hv : v.User)
    (hw : walk childOf m r v.tables = some pt) (f : Nat) :
    Node childOf userIdx 3 (store m pt v.p1 e) roots f ↔ Node childOf userIdx 3 m roots f := by
  constructor
  · rintro ⟨r₁, h₁, π₁, p₁, w₁⟩
    exact ⟨r₁, h₁, π₁, p₁, (walk_storeLeaf hF hr hv hw h₁ p₁).symm.trans w₁⟩
  · rintro ⟨r₁, h₁, π₁, p₁, w₁⟩
    exact ⟨r₁, h₁, π₁, p₁, (walk_storeLeaf hF hr hv hw h₁ p₁).trans w₁⟩

theorem storeLeaf_root (hF : Forest childOf userIdx 3 m roots) (hr : r ∈ roots) (hv : v.User)
    (hw : walk childOf m r v.tables = some pt) (hr' : r' ∈ roots) :
    store m pt v.p1 e r' = m r' := by
  apply store_table
  rintro rfl
  have := (hF r' hr' r hr [] v.tables r' Path.nil (v.path_tables hv (le_refl 3)) rfl hw).2
  exact absurd this (by simp [VPage.tables])

end Leaf

/-! ## `vmm_new_pml4` -/

theorem copyKernel_loop (pml4 kernelPml4 : U64) (s : Phys) :
    (forUpTo 256 (copyKernelEntry pml4 kernelPml4) s).pmm = s.pmm ∧
      ∀ g i, (forUpTo 256 (copyKernelEntry pml4 kernelPml4) s).mem g i =
        if g = pageOf pml4 ∧ ¬ userIdx i then s.mem (pageOf kernelPml4) i else s.mem g i := by
  -- after `k` rounds the entries 256 .. 256+k-1 are copied
  have hinv := forUpTo_inv
    (fun k (t : Phys) => t.pmm = s.pmm ∧ ∀ g (i : Fin 512), t.mem g i =
      if g = pageOf pml4 ∧ 256 ≤ i.val ∧ i.val < 256 + k then s.mem (pageOf kernelPml4) i
      else s.mem g i)
    (copyKernelEntry pml4 kernelPml4) ⟨rfl, fun g i => (if_neg (by omega)).symm⟩ ?step
  case step =>
    rintro k t ⟨hp, hm⟩
    refine ⟨hp, fun g i => ?_⟩
    show store t.mem (pageOf pml4) ⟨256 + k, _⟩ (t.mem (pageOf kernelPml4) ⟨256 + k, _⟩) g i = _
    by_cases h : g = pageOf pml4 ∧ i = ⟨256 + k, by omega⟩
    · obtain ⟨rfl, rfl⟩ := h
      rw [store_self, hm, if_neg (by simp), if_pos ⟨rfl, by simp, by simp⟩]
    · rw [store_ne h, hm]
      congr 1
      rw [Fin.ext_iff] at h
      simp only at h
      exact propext ⟨fun hx => ⟨hx.1, hx.2.1, by omega⟩, fun hx => ⟨hx.1, hx.2.1, by omega⟩⟩
  refine ⟨hinv.1, fun g i => ?_⟩
  rw [hinv.2]
  have := i.isLt
  by_cases h : g = pageOf pml4 ∧ ¬ userIdx i
  · rw [if_pos h, if_pos ⟨h.1, Nat.not_lt.mp h.2, by omega⟩]
  · rw [if_neg h, if_neg fun hx => h ⟨hx.1, Nat.not_lt.mpr hx.2.1⟩]

/-- The entries of a PML4 fresh in frame `f`: the user half is empty, the kernel half is copied. -/
def freshPml4 (kernelPml4 : U64) (m : Mem) (f : Nat) (i : Fin 512) : U64 :=
  if userIdx i ∨ kernelPml4 = 0 then 0
  else update m f (fun _ => 0) (pageOf kernelPml4) i

theorem vmmNewPml4_cases {s : Phys} (hv : s.pmm.Valid) (kernelPml4 : U64) :
    ((∀ f, ¬ s.pmm.Free f) ∧ vmmNewPml4 kernelPml4 s = (0, s)) ∨
      ∃ f, s.pmm.Free f ∧ pageAddr f ≠ 0 ∧ vmmNewPml4 kernelPml4 s = (pageAddr f,
        ⟨s.pmm.mark f, update s.mem f (freshPml4 kernelPml4 s.mem f)⟩) := by
  unfold vmmNewPml4
  rcases Phys.alloc_cases hv with ⟨hn, he⟩ | ⟨f, hf, -, hne, he⟩
  · rw [he]
    exact Or.inl ⟨hn, if_pos rfl⟩
  · rw [he]
    refine Or.inr ⟨f, hf, hne, ?_⟩
    simp only [if_neg hne]
    by_cases hk : kernelPml4 = 0
    · rw [if_pos hk]
      have hz : freshPml4 kernelPml4 s.mem f = fun _ => 0 := by
        funext i
        exact if_pos (Or.inr hk)
      rw [hz]
      simp only [Phys.kmemsetPage, pageOf_pageAddr hf.lt]
    · rw [if_neg hk]
      obtain ⟨hp, hm⟩ := copyKernel_loop (pageAddr f) kernelPml4
        (Phys.kmemsetPage (pageAddr f) ⟨s.pmm.mark f, s.mem⟩)
      generalize forUpTo 256 (copyKernelEntry (pageAddr f) kernelPml4) _ = t at *
      obtain ⟨tp, tm⟩ := t
      simp only [Phys.kmemsetPage, pageOf_pageAddr hf.lt] at hp hm
      subst hp
      congr 2
      funext g i
      rw [hm]
      by_cases hg : g = f
      · subst hg
        rw [update_self, update_self]
        unfold freshPml4
        by_cases hi : userIdx i
        · rw [if_neg fun hx => hx.2 hi, if_pos (Or.inl hi)]
        · rw [if_pos ⟨rfl, hi⟩, if_neg fun hx => hx.elim hi hk]
      · rw [if_neg fun hx => hg hx.1, update_of_ne hg, update_of_ne hg]

theorem childOf_freshPml4 {kernelPml4 : U64} {m : Mem} {f : Nat} {i : Fin 512} (hi : userIdx i) :
    childOf (freshPml4 kernelPml4 m f i) = none := by
  unfold freshPml4
  rw [if_pos (Or.inl hi), childOf_zero]

theorem Tables.newRoot {n : Nat} {roots : Set Nat} {s : Phys} (h : Tables n roots s) {f : Nat}
    (hf : s.pmm.Free f) (kernelPml4 : U64) :
    Tables n (insert f roots)
      ⟨s.pmm.mark f, update s.mem f (freshPml4 kernelPml4 s.mem f)⟩ ∧
    ∀ g, Node childOf userIdx n (update s.mem f (freshPml4 kernelPml4 s.mem f))
      (insert f roots) g ↔ Node childOf userIdx n s.mem roots g ∨ g = f := by
  have hnf := h.not_node_of_free hf
  have hm : ∀ g, Node childOf userIdx n s.mem roots g →
      update s.mem f (freshPml4 kernelPml4 s.mem f) g = s.mem g := fun g hg => by
    have hgf : g ≠ f := fun hx => hnf (hx ▸ hg)
    rw [update_of_ne hgf]
  have hempty : ∀ i, userIdx i →
      childOf (update s.mem f (freshPml4 kernelPml4 s.mem f) f i) = none := fun i hi => by
    rw [update_self, childOf_freshPml4 hi]
  have hnode : ∀ g, Node childOf userIdx n (update s.mem f (freshPml4 kernelPml4 s.mem f))
      (insert f roots) g ↔ Node childOf userIdx n s.mem roots g ∨ g = f := fun g => by
    rw [Node.insert_iff hempty, Node.congr hm (Nat.le_succ n)]
  refine ⟨⟨h.valid.mark hf, ?_, fun g hg => ?_, fun g hg => ?_⟩, hnode⟩
  · exact (h.forest.congr hm (Nat.le_succ n)).insert
      (fun hn => hnf ((Node.congr hm (Nat.le_succ n)).mp hn)) hempty
  · rcases (hnode g).mp hg with hg | rfl
    · exact (Pmm.used_mark hf.1).mpr (Or.inl (h.used g hg))
    · exact (Pmm.used_mark hf.1).mpr (Or.inr rfl)
  · rcases (hnode g).mp hg with hg | rfl
    · exact h.nonzero g hg
    · exact h.valid.free_ne_zero hf

theorem leafEntry_freshPml4 {kernelPml4 : U64} {m : Mem} {f : Nat} {v : VPage} (hv : v.User) :
    leafEntry (update m f (freshPml4 kernelPml4 m f)) f v = 0 := by
  unfold leafEntry
  rw [walk_tables, update_self, childOf_freshPml4 hv]
  rfl

theorem tables_empty {n : Nat} {s : Phys} (hv : s.pmm.Valid) : Tables n ∅ s :=
  ⟨hv, fun _ h => absurd h (Set.notMem_empty _), fun _ ⟨_, h, _⟩ => absurd h (Set.notMem_empty _),
    fun _ ⟨_, h, _⟩ => absurd h (Set.notMem_empty _)⟩

/-! ## `vmm_map` and `vmm_unmap` -/

/-- The paths to the three tables above a page. -/
def VPage.tablePaths (v : VPage) : List (List (Fin 512)) := [[v.p4], [v.p4, v.p3], v.tables]

/-- **What `vmm_map` does** to the user halves of `roots`: the leaf entry of page `v` under root
`r` becomes `e`, the pages `L` become the tables that were missing above it, and nothing else
changes. -/
structure Mapped (roots : Set Nat) (r : Nat) (v : VPage) (e : U64) (L : List Nat) (s s' : Phys) :
    Prop where
  tables : Tables 3 roots s'
  takes : s.pmm.Takes L s'.pmm
  count : L.length = missing s.mem r v
  node : ∀ f, Node childOf userIdx 3 s'.mem roots f ↔ Node childOf userIdx 3 s.mem roots f ∨ f ∈ L
  leaf : ∀ r' ∈ roots, ∀ w : VPage, w.User →
    leafEntry s'.mem r' w = if r' = r ∧ w = v then e else leafEntry s.mem r' w
  path : ∀ r' ∈ roots, ∀ ρ, Path userIdx 3 ρ → (walk childOf s'.mem r' ρ = none ↔
    walk childOf s.mem r' ρ = none ∧ ¬ (r' = r ∧ ρ ∈ v.tablePaths))
  mem : ∀ f, ¬ Node childOf userIdx 3 s.mem roots f → f ∉ L → s'.mem f = s.mem f
  kernelHalf : ∀ r' ∈ roots, ∀ i : Fin 512, ¬ userIdx i → s'.mem r' i = s.mem r' i

theorem vmmMap_spec {roots : Set Nat} {s : Phys} (h : Tables 3 roots s) {pml4 virt : U64}
    (hr : pageOf pml4 ∈ roots) (hv : (vpageOf virt).User) (phys flags : U64)
    (hroom : missing s.mem (pageOf pml4) (vpageOf virt) ≤ s.pmm.clearBits) :
    ∃ L, Mapped roots (pageOf pml4) (vpageOf virt) (leafOf phys flags) L s
      (vmmMap pml4 virt phys flags s) := by
  obtain ⟨L, s₁, pt, he, hg, hw, hlen, hother⟩ :=
    vmmMap_tables h (le_refl 3) hr hv phys flags (Or.inl hroom)
  generalize vpageOf virt = v at *
  generalize pageOf pml4 = r at *
  have hF := hg.tables.forest
  have hp := v.path_tables hv (le_refl 3)
  have hpt : Node childOf userIdx 3 s₁.mem roots pt := ⟨r, hr, v.tables, hp, hw⟩
  rw [he]
  refine ⟨L, hg.tables.storeLeaf hr hv hw, hg.takes, hlen, fun f => ?_, fun r' hr' w hw' => ?_,
    fun r' hr' ρ hρ => ?_, fun f hn hL => ?_, fun r' hr' i hi => ?_⟩
  · exact (node_storeLeaf hF hr hv hw f).trans (hg.node f)
  · rw [leafEntry_storeLeaf hF hr hv hw hr' hw', hg.leaf r' hr' w hw']
  · show walk childOf (store s₁.mem pt v.p1 _) r' ρ = none ↔ _
    rw [walk_storeLeaf hF hr hv hw hr' hρ]
    by_cases hin : r' = r ∧ ρ ∈ v.tablePaths
    · obtain ⟨rfl, hin⟩ := hin
      refine iff_of_false (fun hnone => ?_) fun hx => hx.2 ⟨rfl, hin⟩
      -- a prefix of the walk to the last table
      have hpre : ρ <+: v.tables := by
        simp only [VPage.tablePaths, VPage.tables, List.mem_cons, List.not_mem_nil,
          or_false] at hin ⊢
        rcases hin with rfl | rfl | rfl <;> simp
      obtain ⟨σ, hσ⟩ := hpre
      rw [← hσ, walk_append, hnone] at hw
      exact absurd hw (by simp)
    · rw [hother r' hr' ρ hρ hin]
      exact ⟨fun hx => ⟨hx, hin⟩, And.left⟩
  · have hne : f ≠ pt := by
      rintro rfl
      exact ((hg.node f).mp hpt).elim hn hL
    show store s₁.mem pt v.p1 _ f = s.mem f
    rw [store_table hne, hg.mem f hn hL]
  · show store s₁.mem pt v.p1 _ r' i = s.mem r' i
    rw [storeLeaf_root hF hr hv hw hr', hg.kernelHalf r' hr' i hi]

/-- **What `vmm_unmap` does**: the leaf entry of the one page becomes 0. -/
structure Unmapped (roots : Set Nat) (r : Nat) (v : VPage) (s s' : Phys) : Prop where
  tables : Tables 3 roots s'
  pmm : s'.pmm = s.pmm
  node : ∀ f, Node childOf userIdx 3 s'.mem roots f ↔ Node childOf userIdx 3 s.mem roots f
  leaf : ∀ r' ∈ roots, ∀ w : VPage, w.User →
    leafEntry s'.mem r' w = if r' = r ∧ w = v then 0 else leafEntry s.mem r' w
  mem : ∀ f, ¬ Node childOf userIdx 3 s.mem roots f → s'.mem f = s.mem f
  kernelHalf : ∀ r' ∈ roots, ∀ i : Fin 512, ¬ userIdx i → s'.mem r' i = s.mem r' i

theorem vmmUnmap_spec {roots : Set Nat} {s : Phys} (h : Tables 3 roots s) {pml4 virt : U64}
    (hr : pageOf pml4 ∈ roots) (hv : (vpageOf virt).User) :
    Unmapped roots (pageOf pml4) (vpageOf virt) s (vmmUnmap pml4 virt s) := by
  rw [vmmUnmap_eq]
  generalize vpageOf virt = v at *
  generalize pageOf pml4 = r at *
  cases hw : walk childOf s.mem r v.tables with
  | none =>
    refine ⟨h, rfl, fun _ => Iff.rfl, fun r' hr' w _ => ?_, fun _ _ => rfl, fun _ _ _ _ => rfl⟩
    split_ifs with hx
    · obtain ⟨rfl, rfl⟩ := hx
      simp only [leafEntry, hw]
    · rfl
  | some pt =>
    refine ⟨h.storeLeaf hr hv hw, rfl, node_storeLeaf h.forest hr hv hw,
      fun r' hr' w hw' => leafEntry_storeLeaf h.forest hr hv hw hr' hw', fun f hn => ?_,
      fun r' hr' i _ => congrFun (storeLeaf_root h.forest hr hv hw hr') i⟩
    exact store_table fun hx => hn (hx ▸ ⟨r, hr, v.tables, v.path_tables hv (le_refl 3), hw⟩)

end Sinux.Mm

import Sinux.Fs.Inode
import Sinux.Lib.Segments
import Mathlib.Data.List.MinMax

/-!
# Path lookup (`find_mount`, `vfs_lookup` and `split_path` in `kernel/fs/vfs.c`)

The mount table is a list of slots; what is mounted is a `FsView`: the root of each slot, and the
`lookup` of each inode. The walk hands components to `lookup` through a buffer of 256 bytes, so a
longer component is handed over in pieces.

The reference cuts paths into components and mounts by components (`refMount`, `refLookup`). Where two
mounts have the same components it takes the first.

* `vfs_lookup_exact`: for which tables and paths `vfs_lookup` is the reference, whatever is mounted.
* `splitPath_append`: what `split_path` makes of a path.
* `vfs_lookup_by_characters`: with `/` and `/proc` mounted, `/procX` is the entry `X` of the procfs.

**Out of scope**: what the file systems do with a component.
-/

namespace Sinux.Fs

open Sinux.Lib Sinux.Lib.Segments

/-! ## The code -/

/-- `mount_t`, without its root. `lookup` says whether `ops->lookup` is there. -/
structure Slot where
  path : Str
  lookup : Bool
  active : Bool
  deriving DecidableEq

/-- What is mounted: the `root` of each slot, and `ops->lookup` of each inode, `none` when `ops` or the
entry is `NULL`. -/
structure FsView (I : Type) where
  root : Nat → Option I
  lookup : I → Option (Str → Option I)

/-- The body of the loop of `find_mount`; `best` holds `best` and `best_len`. -/
def findMountStep (path : Str) (best : Option Nat × Nat) (m : Slot × Nat) : Option Nat × Nat :=
  if !m.1.active then best
  else
    let len := m.1.path.length
    if kstrncmp path m.1.path len = 0 ∧ best.2 < len then (some m.2, len) else best

/-- `find_mount`: the index of the mount. -/
def findMount (mounts : List Slot) (path : Str) : Option Nat :=
  (mounts.zipIdx.foldl (findMountStep path) (none, 0)).1

/-- The inner loop of `vfs_lookup`, with room for `n` characters: the component, and the string `p`
points to. -/
def takeComponent : Nat → Str → Str × Str
  | 0, p => ([], p)
  | _ + 1, [] => ([], [])
  | n + 1, c :: p => if c = slash then ([], c :: p) else
      let (component, p) := takeComponent n p
      (c :: component, p)

/-- `if (*p == '/') p++`. -/
def skipSlash : Str → Str
  | [] => []
  | c :: p => if c = slash then p else c :: p

variable {I : Type}

/-- The outer loop of `vfs_lookup`. Every round takes a character, so `fuel` is the length of the
string. -/
def walk (v : FsView I) : Nat → I → Str → Option I
  | _, cur, [] => some cur
  | 0, _, _ :: _ => none
  | fuel + 1, cur, c :: p =>
    let (component, rest) := takeComponent 255 (c :: p)
    let rest := skipSlash rest
    if component = [] then walk v fuel cur rest
    else
      match v.lookup cur with
      | none => none
      | some lookup =>
        match lookup component with
        | none => none
        | some cur => walk v fuel cur rest

/-- `rel` of `vfs_lookup`. -/
def relPath (m : Slot) (path : Str) : Str := skipSlash (path.drop m.path.length)

/-- `vfs_lookup`. -/
def vfsLookup (mounts : List Slot) (v : FsView I) (path : Str) : Option I := do
  let i ← findMount mounts path
  let m ← mounts[i]?
  let root ← v.root i
  if relPath m path = [] then some root
  else if !m.lookup then none
  else walk v (relPath m path).length root (relPath m path)

/-- The loop of `split_path`: the index of the last `'/'`, 0 if there is none. -/
def lastSlash (dir : Str) : Nat :=
  dir.zipIdx.foldl (fun last c => if c.1 = slash then c.2 else last) 0

/-- `split_path`: the strings `dir` and `name`. -/
def splitPath (path : Str) : Option (Str × Str) := do
  let dir ← kstrncpy path 255
  let last := lastSlash dir
  if last = 0 then return ([slash], dir.drop 1) else return (dir.take last, dir.drop (last + 1))

/-! ## The reference -/

/-- The components of a path. -/
def components (path : Str) : List Str := segments slash path

/-- The first of the active mounts whose components are the longest start of those of the path. -/
def refMount (mounts : List Slot) (path : Str) : Option Nat :=
  ((mounts.zipIdx.filter fun m => m.1.active ∧ components m.1.path <+: components path).argmax
    fun m => (components m.1.path).length).map Prod.snd

/-- The components that are left for the mount. -/
def restOf (m : Slot) (path : Str) : List Str :=
  (components path).drop (components m.path).length

/-- The lookups of the components one after the other. -/
def FsView.resolve (v : FsView I) (root : I) (cs : List Str) : Option I :=
  cs.foldlM (fun cur c => (v.lookup cur).bind fun lookup => lookup c) root

/-- The reference resolution. -/
def refLookup (mounts : List Slot) (v : FsView I) (path : Str) : Option I := do
  let i ← refMount mounts path
  let m ← mounts[i]?
  let root ← v.root i
  v.resolve root (restOf m path)

/-! ## Splitting a path -/

theorem lastSlash_foldl : ∀ {b : Str} (k last : Nat), slash ∉ b →
    (b.zipIdx k).foldl (fun last c => if c.1 = slash then c.2 else last) last = last
  | [], _, _, _ => rfl
  | c :: b, k, last, h => by
    have hc : c ≠ slash := fun e => h (e ▸ List.mem_cons_self ..)
    rw [List.zipIdx_cons, List.foldl_cons, if_neg hc]
    exact lastSlash_foldl (k + 1) last fun hb => h (List.mem_cons_of_mem c hb)

theorem lastSlash_append (a : Str) {b : Str} (hb : slash ∉ b) :
    lastSlash (a ++ slash :: b) = a.length := by
  rw [lastSlash, List.zipIdx_append, List.foldl_append, List.zipIdx_cons, List.foldl_cons, if_pos rfl,
    lastSlash_foldl _ _ hb, Nat.zero_add]

theorem exists_last_slash {path : Str} (h : slash ∈ path) :
    ∃ a b, path = a ++ slash :: b ∧ slash ∉ b := by
  obtain ⟨v, r, hvr, hv⟩ := List.eq_append_cons_of_mem (List.mem_reverse.mpr h)
  refine ⟨r.reverse, v.reverse, ?_, fun hmem => hv (List.mem_reverse.mp hmem)⟩
  simpa using congrArg List.reverse hvr

theorem splitPath_of_lt {path : Str} (h : path.length < 255) : splitPath path =
    some (if lastSlash path = 0 then ([slash], path.drop 1)
      else (path.take (lastSlash path), path.drop (lastSlash path + 1))) := by
  rw [splitPath, kstrncpy_of_lt h]
  simp only [Option.bind_eq_bind, Option.bind_some]
  split <;> rfl

theorem splitPath_append {a b : Str} (h : (a ++ slash :: b).length < 255) (hb : slash ∉ b) :
    splitPath (a ++ slash :: b) = some (if a = [] then [slash] else a, b) := by
  rw [splitPath_of_lt h, lastSlash_append a hb]
  cases a with
  | nil => rfl
  | cons c a =>
    rw [if_neg (by simp), if_neg (List.cons_ne_nil c a), List.take_left' rfl, ← List.drop_drop,
      List.drop_left' rfl]
    rfl

/-! ## The mounts that are chosen -/

/-- Mount `i` is active and `good`, and the first of those with the largest `key`. -/
structure First (good : Slot → Prop) (key : Slot → Nat) (mounts : List Slot) (i : Nat) (m : Slot) :
    Prop where
  slot : mounts[i]? = some m
  active : m.active = true
  meets : good m
  largest : ∀ j m', mounts[j]? = some m' → m'.active = true → good m' →
    key m' ≤ key m ∧ (j < i → key m' < key m)

/-- The path starts with that of the mount, as a string. -/
def Starts (path : Str) (m : Slot) : Prop := m.path ≠ [] ∧ m.path <+: path

/-- The path starts with that of the mount, component by component. -/
def Covers (path : Str) (m : Slot) : Prop := components m.path <+: components path

instance (path : Str) : DecidablePred (Starts path) := fun _ => inferInstanceAs (Decidable (_ ∧ _))

section

variable {good : Slot → Prop} {key : Slot → Nat} {mounts : List Slot} {i j : Nat} {m m' x : Slot}
  {path : Str}

theorem First.unique (h : First good key mounts i m) (h' : First good key mounts j m') :
    i = j ∧ m = m' := by
  have h1 := h.largest j m' h'.slot h'.active h'.meets
  have h2 := h'.largest i m h.slot h.active h.meets
  obtain rfl : i = j := by
    rcases Nat.lt_trichotomy i j with hlt | heq | hlt
    · have := h2.2 hlt
      omega
    · exact heq
    · have := h1.2 hlt
      omega
  exact ⟨rfl, Option.some_inj.mp (h.slot.symm.trans h'.slot)⟩

theorem getElem?_concat : (mounts ++ [x])[j]? = some m' ↔
    mounts[j]? = some m' ∨ j = mounts.length ∧ x = m' := by
  rcases Nat.lt_trichotomy j mounts.length with hlt | rfl | hlt
  · rw [List.getElem?_append_left hlt]
    simp [hlt.ne]
  · simp
  · rw [List.getElem?_append_right hlt.le, List.getElem?_eq_none hlt.le]
    simp [hlt.ne', Nat.sub_ne_zero_of_lt hlt]

theorem First.keep (h : First good key mounts i m)
    (hx : x.active = true → good x → key x ≤ key m) : First good key (mounts ++ [x]) i m where
  slot := getElem?_concat.mpr (Or.inl h.slot)
  active := h.active
  meets := h.meets
  largest j m' hj ha hg := by
    rcases getElem?_concat.mp hj with hj | ⟨rfl, rfl⟩
    · exact h.largest j m' hj ha hg
    · have hlt := List.getElem?_eq_some_iff.mp h.slot
      exact ⟨hx ha hg, fun hji => absurd hlt.1 (Nat.not_lt.mpr hji.le)⟩

theorem First.last (ha : x.active = true) (hg : good x)
    (hx : ∀ m' ∈ mounts, m'.active = true → good m' → key m' < key x) :
    First good key (mounts ++ [x]) mounts.length x where
  slot := getElem?_concat.mpr (Or.inr ⟨rfl, rfl⟩)
  active := ha
  meets := hg
  largest j m' hj ha hg := by
    rcases getElem?_concat.mp hj with hj | ⟨rfl, rfl⟩
    · have hlt := hx m' (List.mem_of_getElem? hj) ha hg
      exact ⟨hlt.le, fun _ => hlt⟩
    · exact ⟨Nat.le_refl _, fun hlt => absurd hlt (Nat.lt_irrefl _)⟩

/-- What `find_mount` has after the mounts: nothing, or the first with the longest string. -/
theorem findMount_foldl (path : Str) (mounts : List Slot) :
    (mounts.zipIdx.foldl (findMountStep path) (none, 0) = (none, 0) ∧
      ∀ m ∈ mounts, m.active = true → ¬ Starts path m) ∨
    ∃ i m, mounts.zipIdx.foldl (findMountStep path) (none, 0) = (some i, m.path.length) ∧
      First (Starts path) (·.path.length) mounts i m := by
  induction mounts using List.reverseRecOn with
  | nil => exact Or.inl ⟨rfl, nofun⟩
  | append_singleton mounts x ih =>
    rw [List.zipIdx_append, List.foldl_append, Nat.zero_add, List.zipIdx_singleton, List.foldl_cons,
      List.foldl_nil]
    -- the step takes `x` if it starts the path and is longer than what was found
    have hstep (best : Option Nat × Nat) : findMountStep path best (x, mounts.length) =
        if x.active = true ∧ Starts path x ∧ best.2 < x.path.length
        then (some mounts.length, x.path.length) else best := by
      unfold findMountStep Starts
      have hpos : best.2 < x.path.length → x.path ≠ [] := fun h h0 => by simp [h0] at h
      cases x.active
      · simp
      · simp only [Bool.not_true, Bool.false_eq_true, if_false, kstrncmp_eq_zero, true_and]
        exact if_congr ⟨fun h => ⟨⟨hpos h.2, h.1⟩, h.2⟩, fun h => ⟨h.1.2, h.2⟩⟩ rfl rfl
    rw [hstep]
    rcases ih with ⟨heq, hnone⟩ | ⟨i, m, heq, hfirst⟩
    · rw [heq]
      split_ifs with hx
      · exact Or.inr ⟨_, x, rfl, First.last hx.1 hx.2.1 fun m' hm' ha hg =>
          absurd hg (hnone m' hm' ha)⟩
      · refine Or.inl ⟨rfl, fun m' hm' ha hg => ?_⟩
        rcases List.mem_append.mp hm' with hm' | hm'
        · exact hnone m' hm' ha hg
        · obtain rfl := List.mem_singleton.mp hm'
          exact hx ⟨ha, hg, List.length_pos_iff.mpr hg.1⟩
    · rw [heq]
      split_ifs with hx
      · refine Or.inr ⟨_, x, rfl, First.last hx.1 hx.2.1 fun m' hm' ha hg => ?_⟩
        obtain ⟨j, hj⟩ := List.mem_iff_getElem?.mp hm'
        exact (hfirst.largest j m' hj ha hg).1.trans_lt hx.2.2
      · exact Or.inr ⟨i, m, rfl, hfirst.keep fun ha hg =>
          Nat.le_of_not_lt fun hlt => hx ⟨ha, hg, hlt⟩⟩

theorem findMount_eq_some :
    findMount mounts path = some i ↔ ∃ m, First (Starts path) (·.path.length) mounts i m := by
  unfold findMount
  rcases findMount_foldl path mounts with ⟨heq, hnone⟩ | ⟨j, m, heq, hfirst⟩
  · rw [heq]
    exact ⟨nofun, fun ⟨m, h⟩ => absurd h.meets (hnone m (List.mem_of_getElem? h.slot) h.active)⟩
  · rw [heq, Option.some_inj]
    exact ⟨fun h => ⟨m, h ▸ hfirst⟩, fun ⟨_, h⟩ => (hfirst.unique h).1⟩

theorem refMount_spec (path : Str) (mounts : List Slot) :
    (refMount mounts path = none ∧ ∀ m ∈ mounts, m.active = true → ¬ Covers path m) ∨
    ∃ i m, refMount mounts path = some i ∧
      First (Covers path) (fun m => (components m.path).length) mounts i m := by
  suffices h : ∀ best, (mounts.zipIdx.filter fun m => m.1.active ∧
        components m.1.path <+: components path).argmax (fun m => (components m.1.path).length) = best →
      (best = none ∧ ∀ m ∈ mounts, m.active = true → ¬ Covers path m) ∨
      ∃ i m, best = some (m, i) ∧
        First (Covers path) (fun m => (components m.path).length) mounts i m by
    unfold refMount
    rcases h _ rfl with ⟨heq, hnone⟩ | ⟨i, m, heq, hfirst⟩ <;> rw [heq]
    · exact Or.inl ⟨rfl, hnone⟩
    · exact Or.inr ⟨i, m, rfl, hfirst⟩
  induction mounts using List.reverseRecOn with
  | nil => exact fun _ h => Or.inl ⟨h.symm, nofun⟩
  | append_singleton mounts x ih =>
    rintro _ rfl
    rw [List.zipIdx_append, List.filter_append, Nat.zero_add, List.zipIdx_singleton, List.filter_cons,
      List.filter_nil]
    split_ifs with hx
    · have hx : x.active = true ∧ Covers path x :=
        of_decide_eq_true (p := _ ∧ components _ <+: _) hx
      rw [List.argmax_concat]
      rcases ih _ rfl with ⟨heq, hnone⟩ | ⟨i, m, heq, hfirst⟩ <;> rw [heq]
      · exact Or.inr ⟨_, x, rfl, First.last hx.1 hx.2 fun m' hm' ha hg =>
          absurd hg (hnone m' hm' ha)⟩
      · dsimp only
        split_ifs with hlt
        · refine Or.inr ⟨_, x, rfl, First.last hx.1 hx.2 fun m' hm' ha hg => ?_⟩
          obtain ⟨j, hj⟩ := List.mem_iff_getElem?.mp hm'
          exact (hfirst.largest j m' hj ha hg).1.trans_lt hlt
        · exact Or.inr ⟨i, m, rfl, hfirst.keep fun _ _ => Nat.le_of_not_lt hlt⟩
    · have hx : ¬ (x.active = true ∧ Covers path x) := fun h =>
        hx (decide_eq_true (p := _ ∧ components _ <+: _) h)
      rw [List.append_nil]
      rcases ih _ rfl with ⟨heq, hnone⟩ | ⟨i, m, heq, hfirst⟩ <;> rw [heq]
      · refine Or.inl ⟨rfl, fun m' hm' ha hg => ?_⟩
        rcases List.mem_append.mp hm' with hm' | hm'
        · exact hnone m' hm' ha hg
        · obtain rfl := List.mem_singleton.mp hm'
          exact hx ⟨ha, hg⟩
      · exact Or.inr ⟨i, m, rfl, hfirst.keep fun ha hg => absurd ⟨ha, hg⟩ hx⟩

theorem refMount_eq_none :
    refMount mounts path = none ↔ ∀ m ∈ mounts, m.active = true → ¬ Covers path m := by
  rcases refMount_spec path mounts with ⟨heq, hnone⟩ | ⟨i, m, heq, hfirst⟩ <;> rw [heq]
  · exact ⟨fun _ => hnone, fun _ => rfl⟩
  · exact ⟨nofun, fun h => absurd hfirst.meets (h m (List.mem_of_getElem? hfirst.slot) hfirst.active)⟩

theorem refMount_eq_some : refMount mounts path = some i ↔
    ∃ m, First (Covers path) (fun m => (components m.path).length) mounts i m := by
  rcases refMount_spec path mounts with ⟨heq, hnone⟩ | ⟨j, m, heq, hfirst⟩ <;> rw [heq]
  · exact ⟨nofun, fun ⟨m, h⟩ => absurd h.meets (hnone m (List.mem_of_getElem? h.slot) h.active)⟩
  · rw [Option.some_inj]
    exact ⟨fun h => ⟨m, h ▸ hfirst⟩, fun ⟨_, h⟩ => (hfirst.unique h).1⟩

theorem refMount_some (h : refMount mounts path = some i) :
    ∃ m, mounts[i]? = some m ∧ m.active = true ∧ components m.path <+: components path := by
  obtain ⟨m, hm⟩ := refMount_eq_some.mp h
  exact ⟨m, hm.slot, hm.active, hm.meets⟩

end

/-! ## The walk -/

theorem components_skipSlash (p : Str) : components (skipSlash p) = components p := by
  cases p with
  | nil => rfl
  | cons c p =>
    rw [skipSlash]
    split
    · next h => rw [h, components, components, segments_cons_self]
    · rfl

theorem length_skipSlash (p : Str) : (skipSlash p).length ≤ p.length := by
  cases p with
  | nil => exact Nat.le_refl _
  | cons c p =>
    rw [skipSlash]
    split
    · exact Nat.le_succ _
    · exact Nat.le_refl _

theorem takeComponent_length : ∀ (n : Nat) (p : Str), (takeComponent n p).1.length ≤ n
  | 0, _ => Nat.le_refl 0
  | _ + 1, [] => Nat.zero_le _
  | n + 1, c :: p => by
    rw [takeComponent]
    split
    · exact Nat.zero_le _
    · exact Nat.succ_le_succ (takeComponent_length n p)

theorem takeComponent_rest : ∀ (n : Nat) (p : Str), (takeComponent n p).2.length ≤ p.length
  | 0, _ => Nat.le_refl _
  | _ + 1, [] => Nat.le_refl _
  | n + 1, c :: p => by
    rw [takeComponent]
    split
    · exact Nat.le_refl _
    · exact (takeComponent_rest n p).trans (Nat.le_succ _)

theorem takeComponent_progress (n : Nat) (c : CChar) (p : Str) :
    (skipSlash (takeComponent (n + 1) (c :: p)).2).length ≤ p.length := by
  rw [takeComponent]
  split
  · next h =>
    rw [skipSlash, if_pos h]
  · exact (length_skipSlash _).trans (takeComponent_rest n p)

theorem takeComponent_word : ∀ {n : Nat} {w r : Str}, slash ∉ w → w.length ≤ n →
    (r = [] ∨ r.head? = some slash) → takeComponent n (w ++ r) = (w, r)
  | 0, [], _, _, _, _ => rfl
  | n + 1, [], r, _, _, hr => by
    rcases hr with rfl | hr
    · rfl
    · obtain ⟨r', rfl⟩ := List.head?_eq_some_iff.mp hr
      rw [List.nil_append, takeComponent, if_pos rfl]
  | n + 1, c :: w, r, hw, hlen, hr => by
    have hc : c ≠ slash := fun h => hw (h ▸ List.mem_cons_self ..)
    have hw' : slash ∉ w := fun h => hw (List.mem_cons_of_mem c h)
    rw [List.cons_append, takeComponent, if_neg hc,
      takeComponent_word hw' (Nat.le_of_succ_le_succ hlen) hr]

/-- The components that the walk hands to `lookup`. -/
def walkComponents : Nat → Str → List Str
  | _, [] => []
  | 0, _ :: _ => []
  | fuel + 1, c :: p =>
    let (component, rest) := takeComponent 255 (c :: p)
    if component = [] then walkComponents fuel (skipSlash rest)
    else component :: walkComponents fuel (skipSlash rest)

theorem walk_eq (v : FsView I) : ∀ {fuel : Nat} {p : Str} (cur : I), p.length ≤ fuel →
    walk v fuel cur p = v.resolve cur (walkComponents fuel p)
  | 0, [], _, _ => rfl
  | _ + 1, [], _, _ => rfl
  | fuel + 1, c :: p, cur, hlen => by
    have hrest := takeComponent_progress 254 c p
    have ih : ∀ cur, walk v fuel cur _ = v.resolve cur (walkComponents fuel _) :=
      fun cur => walk_eq v cur (hrest.trans (Nat.le_of_succ_le_succ hlen))
    rw [walk, walkComponents]
    dsimp only
    split
    · exact ih cur
    · rw [FsView.resolve, List.foldlM_cons]
      cases v.lookup cur with
      | none => rfl
      | some lookup =>
        dsimp only [Option.bind_some]
        cases lookup (takeComponent 255 (c :: p)).1 with
        | none => rfl
        | some cur => exact ih cur

theorem length_walkComponents : ∀ {fuel : Nat} {p s : Str}, s ∈ walkComponents fuel p → s.length ≤ 255
  | 0, [], _, h => nomatch h
  | 0, _ :: _, _, h => nomatch h
  | _ + 1, [], _, h => nomatch h
  | fuel + 1, c :: p, s, h => by
    rw [walkComponents] at h
    dsimp only at h
    split at h
    · exact length_walkComponents h
    · rcases List.mem_cons.mp h with rfl | h
      · exact takeComponent_length 255 (c :: p)
      · exact length_walkComponents h

theorem walkComponents_eq : ∀ {fuel : Nat} {p : Str}, p.length ≤ fuel →
    (∀ c ∈ components p, c.length ≤ 255) → walkComponents fuel p = components p
  | 0, [], _, _ => rfl
  | _ + 1, [], _, _ => rfl
  | fuel + 1, c :: p, hlen, hshort => by
    have hrest := (takeComponent_progress 254 c p).trans (Nat.le_of_succ_le_succ hlen)
    obtain ⟨w, r, hp, hw, hr⟩ := exists_word slash (c :: p)
    rw [walkComponents]
    rw [hp] at hrest hshort ⊢
    by_cases hne : w = []
    · subst hne
      rw [takeComponent_word hw (Nat.zero_le _) hr] at hrest ⊢
      rw [List.nil_append] at hshort ⊢
      rw [← components_skipSlash r] at hshort ⊢
      exact walkComponents_eq hrest hshort
    · have hcut : components (w ++ r) = w :: components (skipSlash r) := by
        rw [components_skipSlash]
        exact segments_word_append hw hne hr
      rw [hcut] at hshort ⊢
      rw [takeComponent_word hw (hshort w (List.mem_cons_self ..)) hr] at hrest ⊢
      dsimp only
      rw [if_neg hne, walkComponents_eq hrest fun c hc => hshort c (List.mem_cons_of_mem w hc)]

/-! ## When the two agree -/

/-- No mount lies deeper than `m` on the path by components: one that is spelled with other slashes
than the path has no more of them, and none before `m` has the same. -/
def Deepest (mounts : List Slot) (path : Str) (i : Nat) (m : Slot) : Prop :=
  ∀ j m', mounts[j]? = some m' → m'.active = true → Covers path m' →
    (¬ Starts path m' → (components m'.path).length ≤ (components m.path).length) ∧
    (j < i → components m'.path ≠ components m.path)

/-- No mount covers the path, and the one with the longest string, if any, has no `lookup` and is not
the whole path. Or behind the longest string a component ends, no other mount lies deeper, and what is
left of the path fits the buffer, component by component. -/
def Agrees (mounts : List Slot) (path : Str) : Prop :=
  ((∀ m ∈ mounts, m.active = true → ¬ Covers path m) ∧
    ∀ i m, First (Starts path) (·.path.length) mounts i m → relPath m path ≠ [] ∧ m.lookup = false) ∨
  ∃ i m, First (Starts path) (·.path.length) mounts i m ∧
    Cuts slash m.path (path.drop m.path.length) ∧ Deepest mounts path i m ∧
    (relPath m path = [] ∨ m.lookup = true) ∧ ∀ c ∈ restOf m path, c.length ≤ 255

/-- Where `vfs_lookup` looks: the mount, and the components it hands to `lookup`. -/
def codeWay (mounts : List Slot) (path : Str) : Option (Nat × List Str) := do
  let i ← findMount mounts path
  let m ← mounts[i]?
  if relPath m path = [] then some (i, [])
  else if !m.lookup then none
  else some (i, walkComponents (relPath m path).length (relPath m path))

/-- Where the reference looks. -/
def refWay (mounts : List Slot) (path : Str) : Option (Nat × List Str) := do
  let i ← refMount mounts path
  let m ← mounts[i]?
  some (i, restOf m path)

/-- The inode at the end of a way. -/
def FsView.follow (v : FsView I) (way : Nat × List Str) : Option I :=
  (v.root way.1).bind fun root => v.resolve root way.2

theorem vfsLookup_eq (mounts : List Slot) (v : FsView I) (path : Str) :
    vfsLookup mounts v path = (codeWay mounts path).bind v.follow := by
  unfold vfsLookup codeWay
  cases findMount mounts path with
  | none => rfl
  | some i =>
    simp only [Option.bind_eq_bind, Option.bind_some]
    cases mounts[i]? with
    | none => rfl
    | some m =>
      simp only [Option.bind_some]
      split
      · simp only [Option.bind_some, FsView.follow]
        cases v.root i <;> rfl
      · split
        · cases v.root i <;> rfl
        · simp only [Option.bind_some, FsView.follow]
          cases v.root i with
          | none => rfl
          | some root => exact walk_eq v root (Nat.le_refl _)

theorem refLookup_eq (mounts : List Slot) (v : FsView I) (path : Str) :
    refLookup mounts v path = (refWay mounts path).bind v.follow := by
  unfold refLookup refWay
  cases refMount mounts path with
  | none => rfl
  | some i =>
    simp only [Option.bind_eq_bind, Option.bind_some]
    cases mounts[i]? <;> rfl

/-- File systems in which every name is there: an inode is the way to it. -/
def freeView : FsView (Nat × List Str) :=
  ⟨fun i => some (i, []), fun x => some fun c => some (x.1, x.2 ++ [c])⟩

theorem freeView_resolve (i : Nat) (cs : List Str) :
    ∀ as, freeView.resolve (i, as) cs = some (i, as ++ cs) := by
  induction cs with
  | nil =>
    intro as
    rw [List.append_nil]
    rfl
  | cons c cs ih =>
    intro as
    rw [FsView.resolve, List.foldlM_cons]
    exact (ih (as ++ [c])).trans (by rw [List.append_assoc]; rfl)

theorem freeView_follow (way : Nat × List Str) : freeView.follow way = some way :=
  freeView_resolve way.1 way.2 []

theorem forall_views_iff (mounts : List Slot) (path : Str) :
    (∀ (I : Type) (v : FsView I), vfsLookup mounts v path = refLookup mounts v path) ↔
      codeWay mounts path = refWay mounts path := by
  constructor
  · intro h
    have hfree := h _ freeView
    rw [vfsLookup_eq, refLookup_eq, funext freeView_follow] at hfree
    simpa using hfree
  · intro h I v
    rw [vfsLookup_eq, refLookup_eq, h]

theorem restOf_eq {m : Slot} {path : Str} (hchars : m.path <+: path)
    (hcomps : components m.path <+: components path) :
    restOf m path = components (relPath m path) := by
  obtain ⟨rest, rfl⟩ := hchars
  have hcut : components (m.path ++ rest) = components m.path ++ components rest :=
    segments_append_of_cuts (cuts_of_segments_start hcomps)
  rw [restOf, relPath, components_skipSlash, List.drop_left, hcut, List.drop_left]

section

variable {mounts : List Slot} {path : Str} {i : Nat} {m : Slot}

theorem refWay_eq_none : refWay mounts path = none ↔ refMount mounts path = none := by
  unfold refWay
  cases hr : refMount mounts path with
  | none => simp
  | some i =>
    obtain ⟨m, hm, -⟩ := refMount_some hr
    simp [hm]

theorem refWay_eq_some (hm : mounts[i]? = some m) {cs : List Str} :
    refWay mounts path = some (i, cs) ↔ refMount mounts path = some i ∧ restOf m path = cs := by
  unfold refWay
  cases hr : refMount mounts path with
  | none => simp
  | some j =>
    obtain ⟨m', hm', -⟩ := refMount_some hr
    simp only [Option.bind_eq_bind, Option.bind_some, hm', Option.some_inj, Prod.mk.injEq]
    refine and_congr_right fun hij => ?_
    subst hij
    rw [Option.some_inj.mp (hm.symm.trans hm')]

theorem covers_iff_cuts (h : m.path <+: path) :
    Covers path m ↔ Cuts slash m.path (path.drop m.path.length) := by
  obtain ⟨rest, rfl⟩ := h
  rw [List.drop_left]
  refine ⟨cuts_of_segments_start, fun hcuts => ?_⟩
  rw [Covers, components, components, segments_append_of_cuts hcuts]
  exact List.prefix_append _ _

/-- When the mount with the longest string is the one of the reference. -/
theorem First.refMount_iff (h : First (Starts path) (·.path.length) mounts i m) :
    refMount mounts path = some i ↔
      Cuts slash m.path (path.drop m.path.length) ∧ Deepest mounts path i m := by
  rw [refMount_eq_some, ← covers_iff_cuts h.meets.2]
  constructor
  · rintro ⟨m', h'⟩
    obtain rfl := Option.some_inj.mp (h.slot.symm.trans h'.slot)
    refine ⟨h'.meets, fun j m' hj ha hc => ?_⟩
    obtain ⟨hle, hlt⟩ := h'.largest j m' hj ha hc
    exact ⟨fun _ => hle, fun hji heq => absurd (hlt hji) (by rw [heq]; exact Nat.lt_irrefl _)⟩
  · rintro ⟨hcovers, hdeep⟩
    refine ⟨m, h.slot, h.active, hcovers, fun j m' hj ha hc => ?_⟩
    obtain ⟨hspelled, hother⟩ := hdeep j m' hj ha hc
    have hle : (components m'.path).length ≤ (components m.path).length := by
      by_cases hs : Starts path m'
      · have hpre := List.prefix_of_prefix_length_le hs.2 h.meets.2 (h.largest j m' hj ha hs).1
        obtain ⟨rest, hrest⟩ := hpre
        rw [← hrest]
        exact length_segments_le rest m'.path
      · exact hspelled hs
    refine ⟨hle, fun hji => Nat.lt_of_le_of_ne hle fun heq => hother hji ?_⟩
    exact (List.prefix_of_prefix_length_le hc hcovers hle).eq_of_length heq

theorem agrees_iff (h : First (Starts path) (·.path.length) mounts i m) :
    Agrees mounts path ↔
      refMount mounts path = none ∧ relPath m path ≠ [] ∧ m.lookup = false ∨
      refMount mounts path = some i ∧ (relPath m path = [] ∨ m.lookup = true) ∧
        ∀ c ∈ restOf m path, c.length ≤ 255 := by
  rw [refMount_eq_none, h.refMount_iff, Agrees]
  refine or_congr (and_congr_right fun _ => ⟨fun hall => hall i m h, ?_⟩) ⟨?_, ?_⟩
  · rintro hrest j m' h'
    obtain ⟨rfl, rfl⟩ := h.unique h'
    exact hrest
  · rintro ⟨j, m', h', hcuts, hdeep, hrest⟩
    obtain ⟨rfl, rfl⟩ := h.unique h'
    exact ⟨⟨hcuts, hdeep⟩, hrest⟩
  · rintro ⟨⟨hcuts, hdeep⟩, hrest⟩
    exact ⟨i, m, h, hcuts, hdeep, hrest⟩

theorem codeWay_eq_refWay_iff : codeWay mounts path = refWay mounts path ↔ Agrees mounts path := by
  cases hf : findMount mounts path with
  | none =>
    have hcode : codeWay mounts path = none := by rw [codeWay, hf]; rfl
    have hno : ∀ i m, ¬ First (Starts path) (·.path.length) mounts i m := fun i m h =>
      absurd (hf.symm.trans (findMount_eq_some.mpr ⟨m, h⟩)) (by simp)
    rw [hcode, eq_comm, refWay_eq_none, refMount_eq_none, Agrees]
    exact ⟨fun h => Or.inl ⟨h, fun i m hl => absurd hl (hno i m)⟩, fun h => h.elim And.left
      fun ⟨i, m, hl, _⟩ => absurd hl (hno i m)⟩
  | some i =>
    obtain ⟨m, hfirst⟩ := findMount_eq_some.mp hf
    have hm := hfirst.slot
    have hchars := hfirst.meets.2
    have hrest : refMount mounts path = some i →
        restOf m path = components (relPath m path) := by
      intro hr
      obtain ⟨m', hm', -, hcomps⟩ := refMount_some hr
      cases hm.symm.trans hm'
      exact restOf_eq hchars hcomps
    rw [agrees_iff hfirst, codeWay, hf]
    simp only [Option.bind_eq_bind, Option.bind_some, hm]
    by_cases hrel : relPath m path = []
    · -- the path ends at the mount
      rw [if_pos hrel, eq_comm, refWay_eq_some hm]
      have hnil : refMount mounts path = some i → restOf m path = [] := by
        intro hr
        rw [hrest hr, hrel]
        rfl
      constructor
      · rintro ⟨hr, hcs⟩
        exact Or.inr ⟨hr, Or.inl hrel, by rw [hcs]; exact nofun⟩
      · rintro (⟨-, hne, -⟩ | ⟨hr, -⟩)
        · exact absurd hrel hne
        · exact ⟨hr, hnil hr⟩
    · rw [if_neg hrel]
      cases hl : m.lookup with
      | false =>
        rw [if_pos (by rfl), eq_comm, refWay_eq_none]
        simp [hrel]
      | true =>
        rw [if_neg (by simp), eq_comm, refWay_eq_some hm]
        constructor
        · rintro ⟨hr, hcs⟩
          refine Or.inr ⟨hr, Or.inr rfl, fun c hc => ?_⟩
          rw [hcs] at hc
          exact length_walkComponents hc
        · rintro (⟨-, -, hfalse⟩ | ⟨hr, -, hshort⟩)
          · cases hfalse
          · rw [hrest hr] at hshort ⊢
            exact ⟨hr, (walkComponents_eq (Nat.le_refl _) hshort).symm⟩

end

/-- **Where path lookup goes by components.** Whatever is mounted, `vfs_lookup` is the reference exactly
for the tables and paths that `Agrees` describes. There, paths with the same components resolve
alike. -/
theorem vfs_lookup_exact (mounts : List Slot) (path : Str) :
    ((∀ (I : Type) (v : FsView I), vfsLookup mounts v path = refLookup mounts v path) ↔
      Agrees mounts path) ∧
    ∀ path', components path' = components path → Agrees mounts path → Agrees mounts path' →
      ∀ (I : Type) (v : FsView I), vfsLookup mounts v path' = vfsLookup mounts v path := by
  have hiff := fun p => (forall_views_iff mounts p).trans codeWay_eq_refWay_iff
  refine ⟨hiff path, fun path' hcomps h h' I v => ?_⟩
  have href : refLookup mounts v path' = refLookup mounts v path := by
    simp only [refLookup, refMount, restOf, hcomps]
  rw [(hiff path').mpr h' I v, (hiff path).mpr h I v, href]

/-- The mounts of a kernel without a disk. -/
def bootMounts : List Slot :=
  [⟨str ['/'], true, true⟩, ⟨str ['/', 'p', 'r', 'o', 'c'], true, true⟩]

/-- An ordinary path. -/
theorem vfs_lookup_exact_proc :
    vfsLookup bootMounts freeView (str ['/', 'p', 'r', 'o', 'c', '/', '1']) =
      refLookup bootMounts freeView (str ['/', 'p', 'r', 'o', 'c', '/', '1']) := by
  obtain ⟨m, hfirst⟩ := (findMount_eq_some (i := 1)).mp (by decide +kernel :
    findMount bootMounts (str ['/', 'p', 'r', 'o', 'c', '/', '1']) = some 1)
  obtain rfl : _ = m := Option.some_inj.mp hfirst.slot
  obtain ⟨hcuts, hdeep⟩ := hfirst.refMount_iff.mp (by decide +kernel)
  exact (vfs_lookup_exact bootMounts _).1.mpr
    (Or.inr ⟨1, _, hfirst, hcuts, hdeep, Or.inr rfl, by decide +kernel⟩) _ freeView

/-- **Lookup goes by characters**: `/procX` is the entry `X` of the file system mounted at `/proc`,
`//proc/1` is not in it, and a component of 256 bytes is looked up as two. -/
theorem vfs_lookup_by_characters :
    (vfsLookup bootMounts freeView (str ['/', 'p', 'r', 'o', 'c', 'X']) = some (1, [str ['X']]) ∧
      refLookup bootMounts freeView (str ['/', 'p', 'r', 'o', 'c', 'X']) =
        some (0, [str ['p', 'r', 'o', 'c', 'X']])) ∧
    (vfsLookup bootMounts freeView (str ['/', '/', 'p', 'r', 'o', 'c', '/', '1']) =
        some (0, [str ['p', 'r', 'o', 'c'], str ['1']]) ∧
      refLookup bootMounts freeView (str ['/', '/', 'p', 'r', 'o', 'c', '/', '1']) =
        some (1, [str ['1']])) ∧
    vfsLookup bootMounts freeView (slash :: List.replicate 256 ⟨97, by decide⟩) =
      some (0, [List.replicate 255 ⟨97, by decide⟩, [⟨97, by decide⟩]]) := by
  refine ⟨by decide +kernel, by decide +kernel, by decide +kernel⟩

end Sinux.Fs

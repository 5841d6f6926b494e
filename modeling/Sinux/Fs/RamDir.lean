import Sinux.Fs.Ramfs
import Mathlib.Data.Finset.Card
import Mathlib.Data.Finset.Range
import Mathlib.Data.List.Nodup

/-!
# Directories of the ramfs (`kernel/fs/ramfs.c`)

`nodes` and `node_count` are a `RamFs`; a node is known by its index. The children of a node are the
first `child_count` entries of its array. A call has no result where `kstrncpy` runs away, which takes
a name of 255 bytes or more.

* `ramfs_finite_map`: in every run of creates, unlinks and lookups that creates only names that are
  not there, the directories are finite maps from names to nodes and every call does what it means for
  these maps. Names in a directory are distinct, a node has at most one parent, and there is one way
  from the root to each node. A call that fails changes nothing.
-/

namespace Sinux.Fs

open Function Sinux.Lib Sinux.Lib.Buffer

/-! ## The code -/

/-- `RAMFS_MAX_NODES`. -/
def ramfsMaxNodes : Nat := 2048

/-- `RAMFS_MAX_CHILDREN`. -/
def ramfsMaxChildren : Nat := 128

/-- `nodes` and `node_count`. -/
structure RamFs where
  nodes : Nat → RamNode
  nodeCount : Nat

/-- `nodes` and `node_count` at boot. -/
def RamFs.zero : RamFs := ⟨fun _ => newNode [] .unknown, 0⟩

namespace RamFs

def setNode (fs : RamFs) (i : Nat) (x : RamNode) : RamFs :=
  { fs with nodes := update fs.nodes i x }

def children (fs : RamFs) (d : Nat) : List Nat := (fs.nodes d).children

def name (fs : RamFs) (i : Nat) : Str := (fs.nodes i).name

/-- An assignment to the children of `d`. -/
def setChildren (fs : RamFs) (d : Nat) (cs : List Nat) : RamFs :=
  fs.setNode d { fs.nodes d with children := cs }

end RamFs

/-- `alloc_node`. -/
def allocNode (fs : RamFs) (name : Str) (type : FileType) : Option (Option Nat × RamFs) :=
  if ramfsMaxNodes ≤ fs.nodeCount then some (none, fs)
  else do
    let name ← kstrncpy name 255
    let fs' := fs.setNode fs.nodeCount (newNode name type)
    return (some fs.nodeCount, { fs' with nodeCount := fs.nodeCount + 1 })

/-- `alloc_node` and the two assignments behind it in `ramfs_create` and in the loop of
`ramfs_mount`: the table of the node, and the entry for it in `d`. -/
def addNode (fs : RamFs) (d : Nat) (name : Str) (type : FileType) : Option (Option Nat × RamFs) := do
  match ← allocNode fs name type with
  | (none, fs) => return (none, fs)
  | (some n, fs) =>
    let x := fs.nodes n
    let fs := fs.setNode n { x with inode := { x.inode with ops := some .ramfs } }
    return (some n, fs.setChildren d (fs.children d ++ [n]))

/-- `ramfs_lookup`. -/
def ramfsLookup (fs : RamFs) (d : Nat) (name : Str) : Option Nat :=
  (fs.children d).find? fun c => kstrcmp (fs.name c) name = 0

/-- `ramfs_create`. -/
def ramfsCreate (fs : RamFs) (d : Nat) (name : Str) (type : FileType) : Option (U64 × RamFs) :=
  if ramfsMaxChildren ≤ (fs.children d).length then some (enospc, fs)
  else do
    match ← addNode fs d name type with
    | (none, fs) => return (enospc, fs)
    | (some _, fs) => return (0, fs)

/-- `ramfs_unlink`. -/
def ramfsUnlink (fs : RamFs) (d : Nat) (name : Str) : U64 × RamFs :=
  match (fs.children d).findIdx? fun c => kstrcmp (fs.name c) name = 0 with
  | none => (enoent, fs)
  | some i => (0, fs.setChildren d (swapRemove (fs.children d) i))

/-- The directories that `ramfs_mount` makes. -/
def ramfsDirs : List Str :=
  [str ['b', 'i', 'n'], str ['d', 'e', 'v'], str ['e', 't', 'c'], str ['t', 'm', 'p'],
    str ['h', 'o', 'm', 'e'], str ['p', 'r', 'o', 'c'], str ['v', 'a', 'r']]

/-- `ramfs_mount` up to the directories: the nodes, and the root. -/
def ramfsTree (fs : RamFs) : Option (Option Nat × RamFs) := do
  match ← allocNode fs (str ['/']) .dir with
  | (none, fs) => return (none, fs)
  | (some root, fs) =>
    let x := fs.nodes root
    let fs := fs.setNode root { x with inode := { x.inode with ops := some .ramfs } }
    let fs ← ramfsDirs.foldlM (fun fs name => (addNode fs root name .dir).map Prod.snd) fs
    return (some root, fs)

/-- The name of the file in `/etc`. -/
def hostname : Str := str ['h', 'o', 's', 't', 'n', 'a', 'm', 'e']

/-- `ramfs_mount`. `fresh` is what `kmalloc` returns for the contents of `/etc/hostname`. -/
def ramfsMount (fs : RamFs) (fresh : Option (List Byte)) : Option RamFs := do
  match ← ramfsTree fs with
  | (none, fs) => return fs
  | (some root, fs) =>
    match ramfsLookup fs root (str ['e', 't', 'c']) with
    | none => return fs
    | some etc =>
      let (_, fs) ← ramfsCreate fs etc hostname .reg
      match ramfsLookup fs etc hostname with
      | none => return fs
      | some hn =>
        let f : File Nat := ⟨hn, 0, 0, 0, some .ramfs⟩
        let (_, x, _) ← ramfsWrite (fs.nodes hn) f [115, 105, 110, 117, 120, 10] fresh
        return fs.setNode hn x

/-! ## What the calls do to children and names -/

namespace RamFs

variable (fs : RamFs) (d : Nat) (cs : List Nat)

theorem children_setChildren : (fs.setChildren d cs).children = update fs.children d cs := by
  funext e
  by_cases he : e = d
  · subst he
    simp [children, setChildren, setNode]
  · simp [children, setChildren, setNode, he]

theorem name_setChildren : (fs.setChildren d cs).name = fs.name := by
  funext e
  by_cases he : e = d
  · subst he
    simp [name, setChildren, setNode]
  · simp [name, setChildren, setNode, he]

theorem inode_setChildren (i : Nat) :
    ((fs.setChildren d cs).nodes i).inode = (fs.nodes i).inode := by
  by_cases hi : i = d
  · subst hi
    simp [setChildren, setNode]
  · simp [setChildren, setNode, hi]

/-- The file system with a new node in the directory `d`. -/
def added (name : Str) (type : FileType) : RamFs :=
  let fs' := { fs.setNode fs.nodeCount (ramfsNode name type) with nodeCount := fs.nodeCount + 1 }
  fs'.setChildren d (fs.children d ++ [fs.nodeCount])

variable {fs d} {name : Str} {type : FileType}

theorem children_added (hnew : fs.children fs.nodeCount = []) (d : Nat) (name : Str)
    (type : FileType) : (fs.added d name type).children =
      update fs.children d (fs.children d ++ [fs.nodeCount]) := by
  rw [added, children_setChildren]
  congr 1
  funext e
  by_cases he : e = fs.nodeCount
  · subst he
    rw [hnew]
    simp [children, setNode, ramfsNode, newNode]
  · simp [children, setNode, he]

theorem name_added : (fs.added d name type).name = update fs.name fs.nodeCount name := by
  rw [added, name_setChildren]
  funext e
  by_cases he : e = fs.nodeCount
  · subst he
    simp [RamFs.name, setNode, ramfsNode, newNode]
  · simp [RamFs.name, setNode, he]

theorem inode_added (i : Nat) : ((fs.added d name type).nodes i).inode =
    if i = fs.nodeCount then ⟨type, 0, some .ramfs⟩ else (fs.nodes i).inode := by
  rw [added, inode_setChildren]
  by_cases hi : i = fs.nodeCount
  · subst hi
    simp [setNode, ramfsNode]
  · simp [setNode, hi]

theorem nodeCount_added : (fs.added d name type).nodeCount = fs.nodeCount + 1 := rfl

end RamFs

theorem addNode_eq {fs : RamFs} {d : Nat} {name : Str} (hd : d < fs.nodeCount)
    (hlen : name.length < 255) (type : FileType) : addNode fs d name type =
      some (if ramfsMaxNodes ≤ fs.nodeCount then (none, fs)
        else (some fs.nodeCount, fs.added d name type)) := by
  unfold addNode allocNode
  by_cases hfull : ramfsMaxNodes ≤ fs.nodeCount
  · rw [if_pos hfull, if_pos hfull]
    rfl
  · rw [if_neg hfull, if_neg hfull, kstrncpy_of_lt hlen]
    have hne : d ≠ fs.nodeCount := hd.ne
    simp [RamFs.added, RamFs.setNode, RamFs.children, RamFs.setChildren, ramfsNode, newNode,
      hne]

/-- `ramfs_create` finds its array or the nodes used up. -/
def RamFs.NoRoom (fs : RamFs) (d : Nat) : Prop :=
  ramfsMaxChildren ≤ (fs.children d).length ∨ ramfsMaxNodes ≤ fs.nodeCount

instance (fs : RamFs) (d : Nat) : Decidable (fs.NoRoom d) := inferInstanceAs (Decidable (_ ∨ _))

/-! ## The invariant -/

/-- The shape of the tree. A node is younger than its parent. -/
structure TreeShape (fs : RamFs) : Prop where
  nodup : ∀ d, (fs.children d).Nodup
  younger : ∀ d c, c ∈ fs.children d → d < c ∧ c < fs.nodeCount
  parent : ∀ d e c, c ∈ fs.children d → c ∈ fs.children e → d = e
  width : ∀ d, (fs.children d).length ≤ ramfsMaxChildren
  count : fs.nodeCount ≤ ramfsMaxNodes

/-- The names in a directory are distinct as well. -/
structure TreeInv (fs : RamFs) : Prop extends TreeShape fs where
  distinct : ∀ d, ((fs.children d).map fs.name).Nodup

section

variable {fs : RamFs} {d c : Nat} {name : Str}

theorem ramfsLookup_some (h : ramfsLookup fs d name = some c) : c ∈ fs.children d ∧ fs.name c = name := by
  have hname := List.find?_some h
  rw [decide_eq_true_eq, kstrcmp_eq_zero] at hname
  exact ⟨List.mem_of_find?_eq_some h, hname⟩

theorem ramfsLookup_none :
    ramfsLookup fs d name = none ↔ ∀ c ∈ fs.children d, fs.name c ≠ name := by
  unfold ramfsLookup
  rw [List.find?_eq_none]
  simp only [decide_eq_true_eq, kstrcmp_eq_zero, ne_eq]

end

namespace TreeShape

variable {fs : RamFs} {d : Nat} {name : Str}

theorem children_of_ge (h : TreeShape fs) (hd : fs.nodeCount ≤ d) : fs.children d = [] := by
  refine List.eq_nil_iff_forall_not_mem.mpr fun c hc => ?_
  have := h.younger d c hc
  omega

theorem children_added_self (h : TreeShape fs) (d : Nat) (name : Str) (type : FileType) :
    (fs.added d name type).children d = fs.children d ++ [fs.nodeCount] := by
  rw [RamFs.children_added (h.children_of_ge (Nat.le_refl _)), update_self]

theorem children_added_of_ne (h : TreeShape fs) {e : Nat} (he : e ≠ d) (name : Str)
    (type : FileType) : (fs.added d name type).children e = fs.children e := by
  rw [RamFs.children_added (h.children_of_ge (Nat.le_refl _)), update_of_ne he]

theorem name_added (h : TreeShape fs) {e c : Nat} (hc : c ∈ fs.children e) (d : Nat) (name : Str)
    (type : FileType) : (fs.added d name type).name c = fs.name c := by
  rw [RamFs.name_added, update_of_ne (h.younger e c hc).2.ne]

theorem mem_added (h : TreeShape fs) {name : Str} {type : FileType} {e c : Nat} :
    c ∈ (fs.added d name type).children e ↔ c ∈ fs.children e ∨ e = d ∧ c = fs.nodeCount := by
  by_cases he : e = d
  · subst he
    rw [h.children_added_self, List.mem_append, List.mem_singleton]
    simp
  · rw [h.children_added_of_ne he]
    simp [he]

/-- A new entry is found under its name, if no other was there. -/
theorem lookup_added (h : TreeShape fs) (hnone : ramfsLookup fs d name = none) (type : FileType)
    (e : Nat) (s : Str) : ramfsLookup (fs.added d name type) e s =
      if e = d ∧ s = name then some fs.nodeCount else ramfsLookup fs e s := by
  have hold (e : Nat) : ((fs.children e).find?
      fun c => kstrcmp ((fs.added d name type).name c) s = 0) = ramfsLookup fs e s := by
    rw [ramfsLookup, ← List.head?_filter, ← List.head?_filter]
    exact congrArg _ (List.filter_congr fun c hc => by rw [h.name_added hc])
  have hnew : (fs.added d name type).name fs.nodeCount = name := by
    rw [RamFs.name_added, update_self]
  by_cases he : e = d
  · subst he
    rw [ramfsLookup, h.children_added_self, List.find?_append, hold, List.find?_singleton, hnew]
    by_cases hs : s = name
    · subst hs
      simp [hnone, kstrcmp_eq_zero]
    · simp [kstrcmp_eq_zero, Ne.symm hs, hs]
  · rw [ramfsLookup, h.children_added_of_ne he, hold, if_neg fun hx => he hx.1]

theorem added (h : TreeShape fs) (hd : d < fs.nodeCount) (hcount : fs.nodeCount < ramfsMaxNodes)
    (hwidth : (fs.children d).length < ramfsMaxChildren) (name : Str) (type : FileType) :
    TreeShape (fs.added d name type) := by
  have hself := h.children_added_self d name type
  have hother : ∀ e, e ≠ d → (fs.added d name type).children e = fs.children e :=
    fun e he => h.children_added_of_ne he name type
  refine ⟨fun e => ?_, fun e c hc => ?_, fun e e' c hc hc' => ?_, fun e => ?_, hcount⟩
  · by_cases he : e = d
    · subst he
      rw [hself]
      refine List.Nodup.append (h.nodup e) (List.nodup_singleton _) ?_
      rw [List.disjoint_singleton]
      exact fun hc => Nat.lt_irrefl _ (h.younger e _ hc).2
    · rw [hother e he]
      exact h.nodup e
  · rw [RamFs.nodeCount_added]
    rcases h.mem_added.mp hc with hold | ⟨rfl, rfl⟩
    · have := h.younger e c hold
      omega
    · omega
  · rcases h.mem_added.mp hc with hold | ⟨he, hn⟩ <;>
      rcases h.mem_added.mp hc' with hold' | ⟨he', hn'⟩
    · exact h.parent e e' c hold hold'
    · exact absurd (h.younger e c hold).2 (by omega)
    · exact absurd (h.younger e' c hold').2 (by omega)
    · exact he.trans he'.symm
  · by_cases he : e = d
    · subst he
      rw [hself, List.length_append, List.length_singleton]
      exact hwidth
    · rw [hother e he]
      exact h.width e

theorem removed (h : TreeShape fs) {n : Nat} {cs : List Nat} (hp : (n :: cs).Perm (fs.children d)) :
    TreeShape (fs.setChildren d cs) := by
  have hsub : ∀ e c, c ∈ (fs.setChildren d cs).children e → c ∈ fs.children e := by
    intro e c hc
    rw [RamFs.children_setChildren] at hc
    by_cases he : e = d
    · subst he
      rw [update_self] at hc
      exact hp.mem_iff.mp (List.mem_cons_of_mem n hc)
    · rwa [update_of_ne he] at hc
  refine ⟨fun e => ?_, fun e c hc => h.younger e c (hsub e c hc),
    fun e e' c hc hc' => h.parent e e' c (hsub e c hc) (hsub e' c hc'), fun e => ?_, h.count⟩
  · rw [RamFs.children_setChildren]
    by_cases he : e = d
    · subst he
      rw [update_self]
      exact (List.nodup_cons.mp (hp.nodup_iff.mpr (h.nodup e))).2
    · rw [update_of_ne he]
      exact h.nodup e
  · rw [RamFs.children_setChildren]
    by_cases he : e = d
    · subst he
      have hlen := hp.length_eq
      have := h.width e
      rw [update_self]
      rw [List.length_cons] at hlen
      omega
    · rw [update_of_ne he]
      exact h.width e

end TreeShape

/-! What the calls do. -/

section

variable {fs : RamFs} {d : Nat} {name : Str}

theorem ramfsCreate_cases (hd : d < fs.nodeCount) (hlen : name.length < 255) (type : FileType) :
    ramfsCreate fs d name type = some (enospc, fs) ∧ fs.NoRoom d ∨
    ramfsCreate fs d name type = some (0, fs.added d name type) ∧
      fs.nodeCount < ramfsMaxNodes ∧ (fs.children d).length < ramfsMaxChildren := by
  unfold ramfsCreate
  by_cases hwidth : ramfsMaxChildren ≤ (fs.children d).length
  · exact Or.inl ⟨if_pos hwidth, .inl hwidth⟩
  · rw [if_neg hwidth, addNode_eq hd hlen]
    by_cases hfull : ramfsMaxNodes ≤ fs.nodeCount
    · rw [if_pos hfull]
      exact Or.inl ⟨rfl, .inr hfull⟩
    · rw [if_neg hfull]
      exact Or.inr ⟨rfl, by omega, by omega⟩

/-- `ramfs_unlink` takes the first entry `n` of the name; the last entry comes in its place. -/
theorem ramfsUnlink_cases (fs : RamFs) (d : Nat) (name : Str) :
    (ramfsLookup fs d name = none ∧ ramfsUnlink fs d name = (enoent, fs)) ∨
    ∃ as n bs, fs.children d = as ++ n :: bs ∧ fs.name n = name ∧ (∀ c ∈ as, fs.name c ≠ name) ∧
      ramfsLookup fs d name = some n ∧
      ramfsUnlink fs d name = (0, fs.setChildren d (as ++ (bs.getLast?.toList ++ bs.dropLast))) := by
  unfold ramfsUnlink
  cases hi : (fs.children d).findIdx? fun c => kstrcmp (fs.name c) name = 0 with
  | none =>
    refine Or.inl ⟨ramfsLookup_none.mpr fun c hc hn => ?_, rfl⟩
    have := List.findIdx?_eq_none_iff.mp hi c hc
    rw [decide_eq_false_iff_not, kstrcmp_eq_zero] at this
    exact this hn
  | some i =>
    obtain ⟨hlt, hname, hbefore⟩ := List.findIdx?_eq_some_iff_getElem.mp hi
    rw [decide_eq_true_eq, kstrcmp_eq_zero] at hname
    obtain ⟨as, n, bs, hsplit, rfl, hn, hfirst⟩ : ∃ as n bs, fs.children d = as ++ n :: bs ∧
        as.length = i ∧ fs.name n = name ∧ ∀ c ∈ as, fs.name c ≠ name := by
      refine ⟨(fs.children d).take i, (fs.children d)[i], (fs.children d).drop (i + 1), ?_,
        List.length_take_of_le hlt.le, hname, fun c hc => ?_⟩
      · rw [List.getElem_cons_drop, List.take_append_drop]
      · obtain ⟨j, hj, rfl⟩ := List.mem_take_iff_getElem.mp hc
        have := hbefore j (Nat.lt_of_lt_of_le hj (Nat.min_le_left ..))
        rwa [decide_eq_true_eq, kstrcmp_eq_zero] at this
    refine Or.inr ⟨as, n, bs, hsplit, hn, hfirst, ?_, ?_⟩
    · rw [ramfsLookup, hsplit, List.find?_append, List.find?_eq_none.mpr, Option.none_or,
        List.find?_cons_of_pos]
      · rw [decide_eq_true_eq, kstrcmp_eq_zero, hn]
      · simpa [kstrcmp_eq_zero] using hfirst
    · dsimp only
      rw [hsplit, swapRemove_append]

end

namespace TreeInv

variable {fs : RamFs} {d : Nat} {name : Str}

theorem eq_of_name (h : TreeInv fs) {c c' : Nat} (hc : c ∈ fs.children d) (hc' : c' ∈ fs.children d)
    (hn : fs.name c = fs.name c') : c = c' :=
  List.inj_on_of_nodup_map (h.distinct d) hc hc' hn

theorem lookup_eq_some (h : TreeInv fs) {c : Nat} :
    ramfsLookup fs d name = some c ↔ c ∈ fs.children d ∧ fs.name c = name := by
  refine ⟨ramfsLookup_some, ?_⟩
  rintro ⟨hc, rfl⟩
  cases he : ramfsLookup fs d (fs.name c) with
  | none => exact absurd rfl (ramfsLookup_none.mp he c hc)
  | some e =>
    obtain ⟨hmem, hname⟩ := ramfsLookup_some he
    rw [h.eq_of_name hmem hc hname]

theorem added (h : TreeInv fs) (hd : d < fs.nodeCount) (hcount : fs.nodeCount < ramfsMaxNodes)
    (hwidth : (fs.children d).length < ramfsMaxChildren) (hnone : ramfsLookup fs d name = none)
    (type : FileType) : TreeInv (fs.added d name type) := by
  have hname := fun e c hc => h.name_added (e := e) (c := c) hc d name type
  refine ⟨h.toTreeShape.added hd hcount hwidth name type, fun e => ?_⟩
  by_cases he : e = d
  · subst he
    rw [h.children_added_self, List.map_append, List.map_singleton, RamFs.name_added, update_self,
      ← RamFs.name_added, List.map_congr_left (hname e)]
    refine List.Nodup.append (h.distinct e) (List.nodup_singleton _) ?_
    rw [List.disjoint_singleton, List.mem_map]
    rintro ⟨c, hc, hn⟩
    exact ramfsLookup_none.mp hnone c hc hn
  · rw [h.children_added_of_ne he, List.map_congr_left (hname e)]
    exact h.distinct e

theorem removed (h : TreeInv fs) {n : Nat} {cs : List Nat} (hp : (n :: cs).Perm (fs.children d)) :
    TreeInv (fs.setChildren d cs) := by
  refine ⟨h.toTreeShape.removed hp, fun e => ?_⟩
  rw [RamFs.children_setChildren, RamFs.name_setChildren]
  by_cases he : e = d
  · subst he
    rw [update_self]
    exact (List.nodup_cons.mp ((hp.map fs.name).nodup_iff.mpr (h.distinct e))).2
  · rw [update_of_ne he]
    exact h.distinct e

end TreeInv

/-! ## The reference -/

/-- Directories as finite maps, and the types of the nodes there are. -/
structure DirMap where
  find : Nat → Str → Option Nat
  type : Nat → Option FileType

/-- The binding of one name in one directory changed. -/
def DirMap.bind (m : DirMap) (d : Nat) (name : Str) (n : Option Nat) : DirMap :=
  { m with find := fun e s => if e = d ∧ s = name then n else m.find e s }

theorem DirMap.find_bind (m : DirMap) (d : Nat) (name : Str) (n : Option Nat) :
    (m.bind d name n).find d name = n :=
  if_pos ⟨rfl, rfl⟩

theorem DirMap.find_bind_of_not (m : DirMap) {d e : Nat} {name s : Str}
    (h : ¬(e = d ∧ s = name)) (n : Option Nat) : (m.bind d name n).find e s = m.find e s :=
  if_neg h

inductive DirCall where
  | create (d : Nat) (name : Str) (type : FileType)
  | unlink (d : Nat) (name : Str)
  | lookup (d : Nat) (name : Str)

/-- What a call returns: a value, or the node of `ramfs_lookup`. -/
inductive DirReply where
  | value (ret : U64)
  | node (n : Option Nat)

/-- `RAMFS_MAX_CHILDREN` names are bound in the directory, or there are `RAMFS_MAX_NODES` nodes. -/
def DirMap.Full (m : DirMap) (d : Nat) : Prop :=
  (∃ S : Finset Str, ramfsMaxChildren ≤ S.card ∧ ∀ s ∈ S, (m.find d s).isSome) ∨
    ∃ S : Finset Nat, ramfsMaxNodes ≤ S.card ∧ ∀ n ∈ S, (m.type n).isSome

/-- What the calls mean. A create fails if and only if there is no room. -/
inductive DirMap.Step (m : DirMap) : DirCall → DirReply → DirMap → Prop
  | created {d : Nat} (name : Str) (type : FileType) {n : Nat} (hroom : ¬ m.Full d)
      (hnew : m.type n = none) :
    Step m (.create d name type) (.value 0)
      { m.bind d name (some n) with type := update m.type n (some type) }
  | full {d : Nat} (name : Str) (type : FileType) (hfull : m.Full d) :
    Step m (.create d name type) (.value enospc) m
  | unlinked {d : Nat} {name : Str} {n : Nat} (hn : m.find d name = some n) :
    Step m (.unlink d name) (.value 0) (m.bind d name none)
  | missing {d : Nat} {name : Str} (hn : m.find d name = none) :
    Step m (.unlink d name) (.value enoent) m
  | lookup (d : Nat) (name : Str) : Step m (.lookup d name) (.node (m.find d name)) m

/-- The maps that the file system stands for. -/
def RamFs.ref (fs : RamFs) : DirMap :=
  ⟨ramfsLookup fs, fun i => if i < fs.nodeCount then some (fs.nodes i).inode.type else none⟩

/-- One call. -/
def RamFs.call (fs : RamFs) : DirCall → Option (DirReply × RamFs)
  | .create d name type => (ramfsCreate fs d name type).map fun r => (.value r.1, r.2)
  | .unlink d name => some (.value (ramfsUnlink fs d name).1, (ramfsUnlink fs d name).2)
  | .lookup d name => some (.node (ramfsLookup fs d name), fs)

/-- A call on a directory there is, with a name that fits its buffer; a create is for a name that is
not there. -/
def RamFs.Valid (fs : RamFs) : DirCall → Prop
  | .create d name _ => d < fs.nodeCount ∧ 1 ≤ name.length ∧ name.length ≤ 254 ∧
      ramfsLookup fs d name = none
  | .unlink d name => d < fs.nodeCount ∧ 1 ≤ name.length ∧ name.length ≤ 254
  | .lookup d name => d < fs.nodeCount ∧ 1 ≤ name.length ∧ name.length ≤ 254

namespace TreeInv

variable {fs : RamFs} {d : Nat} {name : Str}

theorem full_iff (h : TreeInv fs) : fs.ref.Full d ↔ fs.NoRoom d := by
  constructor
  · rintro (⟨S, hcard, hS⟩ | ⟨S, hcard, hS⟩)
    · have hsub : S ⊆ ((fs.children d).map fs.name).toFinset := fun s hs => by
        obtain ⟨c, hc⟩ := Option.isSome_iff_exists.mp (hS s hs)
        obtain ⟨hmem, rfl⟩ := h.lookup_eq_some.mp hc
        exact List.mem_toFinset.mpr (List.mem_map_of_mem hmem)
      refine .inl (hcard.trans ((Finset.card_le_card hsub).trans ?_))
      exact (List.toFinset_card_le _).trans_eq (List.length_map _)
    · have hsub : S ⊆ Finset.range fs.nodeCount := fun n hn => by
        by_contra hge
        have hnone : fs.ref.type n = none := if_neg fun hlt => hge (Finset.mem_range.mpr hlt)
        have hsome := hS n hn
        rw [hnone] at hsome
        cases hsome
      exact .inr (hcard.trans ((Finset.card_le_card hsub).trans_eq (Finset.card_range _)))
  · rintro (hwidth | hcount)
    · refine .inl ⟨((fs.children d).map fs.name).toFinset, ?_, fun s hs => ?_⟩
      · rw [List.toFinset_card_of_nodup (h.distinct d), List.length_map]
        exact hwidth
      · obtain ⟨c, hc, rfl⟩ := List.mem_map.mp (List.mem_toFinset.mp hs)
        exact Option.isSome_iff_exists.mpr ⟨c, h.lookup_eq_some.mpr ⟨hc, rfl⟩⟩
    · refine .inr ⟨Finset.range fs.nodeCount, hcount.trans_eq (Finset.card_range _).symm, fun n hn => ?_⟩
      exact Option.isSome_iff_exists.mpr ⟨_, if_pos (Finset.mem_range.mp hn)⟩

theorem ref_added (h : TreeInv fs) (type : FileType) (hnone : ramfsLookup fs d name = none) :
    (fs.added d name type).ref = { fs.ref.bind d name (some fs.nodeCount) with
      type := update fs.ref.type fs.nodeCount (some type) } := by
  have hfind : ramfsLookup (fs.added d name type) =
      (fs.ref.bind d name (some fs.nodeCount)).find := by
    funext e s
    exact h.lookup_added hnone type e s
  have htype : (fs.added d name type).ref.type =
      update fs.ref.type fs.nodeCount (some type) := by
    funext i
    simp only [RamFs.ref, RamFs.inode_added, RamFs.nodeCount_added]
    by_cases hi : i = fs.nodeCount
    · subst hi
      simp
    · rw [update_of_ne hi, if_neg hi]
      exact if_congr (by omega) rfl rfl
  rw [RamFs.ref, hfind, ← htype]
  rfl

theorem ref_removed (h : TreeInv fs) {n : Nat} {cs : List Nat}
    (hn : ramfsLookup fs d name = some n) (hp : (n :: cs).Perm (fs.children d)) :
    (fs.setChildren d cs).ref = fs.ref.bind d name none := by
  have hnot : n ∉ cs := (List.nodup_cons.mp (hp.nodup_iff.mpr (h.nodup d))).1
  obtain ⟨hmem, hname⟩ := h.lookup_eq_some.mp hn
  have hfind : ramfsLookup (fs.setChildren d cs) = (fs.ref.bind d name none).find := by
    funext e s
    refine Option.ext fun c => ?_
    rw [(h.removed hp).lookup_eq_some, RamFs.children_setChildren, RamFs.name_setChildren]
    by_cases he : e = d
    · subst he
      rw [update_self]
      by_cases hs : s = name
      · subst hs
        rw [DirMap.find_bind]
        constructor
        · rintro ⟨hc, hcn⟩
          -- `n` was the only entry of that name
          have hceq : c = n := h.eq_of_name (hp.mem_iff.mp (List.mem_cons_of_mem n hc)) hmem
            (hcn.trans hname.symm)
          exact absurd (hceq ▸ hc) hnot
        · exact nofun
      · rw [DirMap.find_bind_of_not _ fun hb => hs hb.2]
        refine Iff.trans ?_ h.lookup_eq_some.symm
        rw [← hp.mem_iff, List.mem_cons]
        refine and_congr_left fun hcn => (or_iff_right ?_).symm
        rintro rfl
        exact hs (hcn.symm.trans hname)
    · rw [update_of_ne he, DirMap.find_bind_of_not _ fun hb => he hb.1]
      exact h.lookup_eq_some.symm
  rw [RamFs.ref, hfind]
  simp only [RamFs.inode_setChildren]
  rfl

theorem call (h : TreeInv fs) {c : DirCall} (hv : fs.Valid c) :
    ∃ r fs', fs.call c = some (r, fs') ∧ TreeInv fs' ∧ fs.ref.Step c r fs'.ref ∧
      (r = .value enospc ∨ r = .value enoent → fs' = fs) := by
  cases c with
  | create d name type =>
    obtain ⟨hd, -, hlen, hnone⟩ := hv
    rcases ramfsCreate_cases hd (Nat.lt_succ_of_le hlen) type with ⟨hc, hfull⟩ | ⟨hc, hcount, hwidth⟩
    · exact ⟨.value enospc, fs, by rw [RamFs.call, hc]; rfl, h, .full name type (h.full_iff.mpr hfull),
        fun _ => rfl⟩
    · have h' := h.added hd hcount hwidth hnone type
      refine ⟨.value 0, _, by rw [RamFs.call, hc]; rfl, h', ?_, ?_⟩
      · rw [h.ref_added type hnone]
        refine .created name type (fun hf => ?_) (if_neg (Nat.lt_irrefl _))
        rcases h.full_iff.mp hf with hge | hge
        · exact absurd hwidth (Nat.not_lt.mpr hge)
        · exact absurd hcount (Nat.not_lt.mpr hge)
      · rintro (hr | hr) <;> exact absurd (DirReply.value.inj hr) (by decide)
  | unlink d name =>
    rcases ramfsUnlink_cases fs d name with ⟨hn, hu⟩ | ⟨as, n, bs, hsplit, -, -, hn, hu⟩
    · exact ⟨.value enoent, fs, by rw [RamFs.call, hu], h, .missing hn, fun _ => rfl⟩
    · have hp := swapRemove_perm as n bs
      rw [← hsplit] at hp
      refine ⟨.value 0, _, by rw [RamFs.call, hu], h.removed hp, ?_, ?_⟩
      · rw [h.ref_removed hn hp]
        exact .unlinked hn
      · rintro (hr | hr) <;> exact absurd (DirReply.value.inj hr) (by decide)
  | lookup d name => exact ⟨_, fs, rfl, h, .lookup d name, fun _ => rfl⟩

end TreeInv

/-! ## The tree at boot -/

/-- Two nodes with one name, the same children, and inodes of one type and table. -/
structure SameEntry (x y : RamNode) : Prop where
  name : x.name = y.name
  children : x.children = y.children
  type : x.inode.type = y.inode.type
  ops : x.inode.ops = y.inode.ops

theorem SameEntry.refl (x : RamNode) : SameEntry x x := ⟨rfl, rfl, rfl, rfl⟩

theorem SameEntry.trans {x y z : RamNode} (h : SameEntry x y) (h' : SameEntry y z) :
    SameEntry x z :=
  ⟨h.name.trans h'.name, h.children.trans h'.children, h.type.trans h'.type, h.ops.trans h'.ops⟩

section

variable {ι : Type} {x x' : RamNode} {f f' : File ι} {buf : List Byte} {ret : U64}

theorem ramfsStore_sameEntry (h : ramfsStore x f buf = some (ret, x', f')) : SameEntry x' x := by
  simp only [ramfsStore, Option.bind_eq_bind, Option.bind_eq_some_iff] at h
  obtain ⟨block, -, h⟩ := h
  cases h
  split <;> exact ⟨rfl, rfl, rfl, rfl⟩

theorem ramfsGrow_sameEntry {cap : Nat} {block : List Byte} (h : ramfsGrow x cap block = some x') :
    SameEntry x' x := by
  unfold ramfsGrow at h
  split at h
  · cases h
    exact ⟨rfl, rfl, rfl, rfl⟩
  · simp only [Option.bind_eq_bind, Option.bind_eq_some_iff] at h
    obtain ⟨kept, -, block, -, h⟩ := h
    cases h
    exact ⟨rfl, rfl, rfl, rfl⟩

theorem ramfsWrite_sameEntry {fresh : Option (List Byte)}
    (h : ramfsWrite x f buf fresh = some (ret, x', f')) : SameEntry x' x := by
  unfold ramfsWrite at h
  split at h
  · split at h
    · cases h
      exact .refl x
    · simp only [Option.bind_eq_bind, Option.bind_eq_some_iff] at h
      obtain ⟨y, hy, h⟩ := h
      exact (ramfsStore_sameEntry h).trans (ramfsGrow_sameEntry hy)
  · exact ramfsStore_sameEntry h

end

theorem TreeShape.setNode {fs : RamFs} (h : TreeShape fs) {i : Nat} {x : RamNode}
    (hchildren : (fs.setNode i x).children = fs.children) : TreeShape (fs.setNode i x) := by
  obtain ⟨h1, h2, h3, h4, h5⟩ := h
  rw [← hchildren] at h1 h2 h3 h4
  exact ⟨h1, h2, h3, h4, h5⟩

namespace TreeInv

variable {fs : RamFs}

theorem setNode_shape {i : Nat} {x : RamNode} (hn : x.name = (fs.nodes i).name)
    (hc : x.children = (fs.nodes i).children) : (fs.setNode i x).name = fs.name ∧
      (fs.setNode i x).children = fs.children := by
  constructor
  · funext j
    by_cases hj : j = i
    · subst hj
      simp [RamFs.name, RamFs.setNode, hn]
    · simp [RamFs.name, RamFs.setNode, hj]
  · funext j
    by_cases hj : j = i
    · subst hj
      simp [RamFs.children, RamFs.setNode, hc]
    · simp [RamFs.children, RamFs.setNode, hj]

theorem setNode (h : TreeInv fs) {i : Nat} {x : RamNode} (hn : x.name = (fs.nodes i).name)
    (hc : x.children = (fs.nodes i).children) : TreeInv (fs.setNode i x) := by
  obtain ⟨hname, hchildren⟩ := setNode_shape hn hc
  refine ⟨h.toTreeShape.setNode hchildren, ?_⟩
  rw [hchildren, hname]
  exact h.distinct

theorem addDirs (root : Nat) : ∀ (names : List Str) {fs : RamFs}, TreeInv fs →
    root < fs.nodeCount → names.Nodup →
    (∀ s ∈ names, s.length < 255 ∧ ramfsLookup fs root s = none) →
    fs.nodeCount + names.length ≤ ramfsMaxNodes →
    (fs.children root).length + names.length ≤ ramfsMaxChildren →
    ∃ fs', names.foldlM (fun fs name => (addNode fs root name .dir).map Prod.snd) fs = some fs' ∧
      TreeInv fs' ∧ root < fs'.nodeCount ∧
      ∀ d c, c ∈ fs'.children d → c ∈ fs.children d ∧ fs'.name c = fs.name c ∨
        d = root ∧ fs'.name c ∈ names
  | [], fs, h, hroot, _, _, _, _ => ⟨fs, rfl, h, hroot, fun _ _ hc => Or.inl ⟨hc, rfl⟩⟩
  | s :: names, fs, h, hroot, hnodup, hnew, hcount, hwidth => by
    rw [List.length_cons] at hcount hwidth
    obtain ⟨hlen, hnone⟩ := hnew s (List.mem_cons_self ..)
    have hadd := addNode_eq hroot hlen .dir
    rw [if_neg (by omega)] at hadd
    have h' := h.added hroot (by omega) (by omega) hnone .dir
    have hself := h.children_added_self root s .dir
    have hrest : ∀ t ∈ names, t.length < 255 ∧
        ramfsLookup (fs.added root s .dir) root t = none := by
      intro t ht
      obtain ⟨hlt, hnt⟩ := hnew t (List.mem_cons_of_mem s ht)
      refine ⟨hlt, ?_⟩
      have hne : ¬(root = root ∧ t = s) := by
        rintro ⟨-, rfl⟩
        exact (List.nodup_cons.mp hnodup).1 ht
      have hfind := congrArg (fun m => m.find root t) (h.ref_added .dir hnone)
      exact (hfind.trans (DirMap.find_bind_of_not fs.ref hne _)).trans hnt
    obtain ⟨fs', hfold, hfs', hroot', hmem⟩ := addDirs root names h' (hroot.trans (Nat.lt_succ_self _))
      (List.nodup_cons.mp hnodup).2 hrest (by rw [RamFs.nodeCount_added]; omega)
      (by rw [hself, List.length_append, List.length_singleton]; omega)
    refine ⟨fs', ?_, hfs', hroot', fun d c hc => ?_⟩
    · rw [List.foldlM_cons, hadd]
      exact hfold
    · rcases hmem d c hc with ⟨hold, hn⟩ | ⟨hd, hn⟩
      · rcases h.mem_added.mp hold with hold | ⟨rfl, rfl⟩
        · exact Or.inl ⟨hold, hn.trans (h.name_added hold root s .dir)⟩
        · rw [RamFs.name_added, update_self] at hn
          exact Or.inr ⟨rfl, hn ▸ List.mem_cons_self ..⟩
      · exact Or.inr ⟨hd, List.mem_cons_of_mem s hn⟩

theorem of_empty (h : ∀ d, fs.children d = []) (hcount : fs.nodeCount ≤ ramfsMaxNodes) :
    TreeInv fs where
  nodup d := by rw [h]; exact List.nodup_nil
  distinct d := by rw [h]; exact List.nodup_nil
  younger d c hc := by rw [h] at hc; exact nomatch hc
  parent d e c hc := by rw [h] at hc; exact nomatch hc
  width d := by rw [h]; exact Nat.zero_le _
  count := hcount

theorem tree {root : Option Nat} (ht : ramfsTree .zero = some (root, fs)) :
    TreeInv fs ∧ root = some 0 ∧ 0 < fs.nodeCount ∧
      ∀ d c, c ∈ fs.children d → d = 0 ∧ fs.name c ∈ ramfsDirs := by
  -- the root alone
  have halloc : allocNode .zero (str ['/']) .dir = some (some 0,
      { RamFs.zero.setNode 0 (newNode (str ['/']) .dir) with nodeCount := 1 }) := rfl
  rw [ramfsTree, halloc] at ht
  simp only [Option.bind_eq_bind, Option.bind_some] at ht
  generalize hfs₀ : RamFs.setNode _ 0 _ = fs₀ at ht
  have hcount : fs₀.nodeCount = 1 := by rw [← hfs₀]; rfl
  have hempty : ∀ d, fs₀.children d = [] := by
    intro d
    rw [← hfs₀]
    by_cases hd : d = 0
    · subst hd
      rfl
    · simp [RamFs.children, RamFs.setNode, hd, RamFs.zero, newNode]
  have hnone : ∀ s, ramfsLookup fs₀ 0 s = none := by
    intro s
    rw [ramfsLookup, hempty]
    rfl
  obtain ⟨fs', hfold, hfs', hroot, hmem⟩ := addDirs 0 ramfsDirs
    (of_empty hempty (by rw [hcount]; decide)) (by omega) (by decide)
    (fun s hs => ⟨(by decide : ∀ s ∈ ramfsDirs, s.length < 255) s hs, hnone s⟩)
    (by rw [hcount]; decide) (by rw [hempty]; decide)
  rw [hfold] at ht
  cases ht
  refine ⟨hfs', rfl, hroot, fun d c hc => ?_⟩
  rcases hmem d c hc with ⟨hold, -⟩ | hnew
  · rw [hempty] at hold
    cases hold
  · exact hnew

/-- The mounted tree: the directories in the root, and at most `hostname` in one of them. -/
theorem mount {fresh : Option (List Byte)} (hm : ramfsMount .zero fresh = some fs) :
    TreeInv fs ∧ 0 < fs.nodeCount ∧ ∀ d c, c ∈ fs.children d →
      d = 0 ∧ fs.name c ∈ ramfsDirs ∨ d ≠ 0 ∧ fs.name c = hostname := by
  rw [ramfsMount, Option.bind_eq_bind, Option.bind_eq_some_iff] at hm
  obtain ⟨⟨root, fs₁⟩, htree, hm⟩ := hm
  obtain ⟨h₁, rfl, hroot, hentry⟩ := tree htree
  have hentry₁ : ∀ d c, c ∈ fs₁.children d →
      d = 0 ∧ fs₁.name c ∈ ramfsDirs ∨ d ≠ 0 ∧ fs₁.name c = hostname :=
    fun d c hc => Or.inl (hentry d c hc)
  dsimp only at hm
  split at hm
  · cases hm
    exact ⟨h₁, hroot, hentry₁⟩
  · next etc hetc =>
    obtain ⟨hpos, hd⟩ := h₁.younger 0 etc (h₁.lookup_eq_some.mp hetc).1
    have hnone : ramfsLookup fs₁ etc hostname = none :=
      ramfsLookup_none.mpr fun c hc => absurd (hentry etc c hc).1 hpos.ne'
    rw [Option.bind_eq_bind, Option.bind_eq_some_iff] at hm
    obtain ⟨⟨ret, fs₂⟩, hcreate, hm⟩ := hm
    have h₂ : TreeInv fs₂ ∧ 0 < fs₂.nodeCount ∧ ∀ d c, c ∈ fs₂.children d →
        d = 0 ∧ fs₂.name c ∈ ramfsDirs ∨ d ≠ 0 ∧ fs₂.name c = hostname := by
      rcases ramfsCreate_cases hd (by decide : hostname.length < 255) .reg with
        ⟨hc, -⟩ | ⟨hc, hcount, hwidth⟩
      · cases hc.symm.trans hcreate
        exact ⟨h₁, hroot, hentry₁⟩
      · cases hc.symm.trans hcreate
        refine ⟨h₁.added hd hcount hwidth hnone .reg, Nat.succ_pos _, fun d c hc => ?_⟩
        rcases h₁.mem_added.mp hc with hold | ⟨rfl, rfl⟩
        · rw [h₁.name_added hold]
          exact hentry₁ d c hold
        · rw [RamFs.name_added, update_self]
          exact Or.inr ⟨hpos.ne', rfl⟩
    split at hm
    · cases hm
      exact h₂
    · simp only [Option.bind_eq_bind, Option.bind_eq_some_iff] at hm
      obtain ⟨⟨ret, x, f⟩, hw, hm⟩ := hm
      cases hm
      have hx := ramfsWrite_sameEntry hw
      obtain ⟨hname, hchildren⟩ := setNode_shape hx.name hx.children
      refine ⟨h₂.1.setNode hx.name hx.children, h₂.2.1, ?_⟩
      rw [hname, hchildren]
      exact h₂.2.2

end TreeInv

/-! ## Runs -/

/-- A run of calls. -/
def DirReach : RamFs → RamFs → Prop :=
  Relation.ReflTransGen fun fs fs' => ∃ c r, fs.Valid c ∧ fs.call c = some (r, fs')

theorem TreeInv.reach {fs₀ fs : RamFs} (h : TreeInv fs₀) (hr : DirReach fs₀ fs) : TreeInv fs := by
  induction hr with
  | refl => exact h
  | tail _ hstep ih =>
    obtain ⟨c, r, hv, hc⟩ := hstep
    obtain ⟨r', fs', hc', hfs', -⟩ := ih.call hv
    obtain ⟨-, rfl⟩ := Prod.mk.inj (Option.some_inj.mp (hc.symm.trans hc'))
    exact hfs'

/-- The nodes on a way from the root to a node, the last one first. -/
inductive Trail (fs : RamFs) : List Nat → Nat → Prop
  | root : Trail fs [] 0
  | child {p : List Nat} {d c : Nat} (hp : Trail fs p d) (hc : c ∈ fs.children d) :
    Trail fs (c :: p) c

theorem TreeInv.trail_unique {fs : RamFs} (h : TreeInv fs) {p q : List Nat} {n : Nat}
    (hp : Trail fs p n) (hq : Trail fs q n) : p = q := by
  induction hp generalizing q with
  | root =>
    cases hq with
    | root => rfl
    | child _ hc => exact absurd (h.younger _ 0 hc).1 (Nat.not_lt_zero _)
  | child hp hc ih =>
    cases hq with
    | root => exact absurd (h.younger _ 0 hc).1 (Nat.not_lt_zero _)
    | child hq hc' =>
      obtain rfl := h.parent _ _ _ hc hc'
      rw [ih hq]

/-- **Directories of the ramfs are finite maps.** In every run that starts with the mounted ramfs and
creates only names that `ramfs_lookup` does not find: names in a directory are distinct, a node has at
most one parent, and there is one way from the root to each node. Every further such call returns and
does to the maps what it means, and one that returns `-ENOSPC` or `-ENOENT` changes nothing. -/
theorem ramfs_finite_map {fresh : Option (List Byte)} {fs₀ fs : RamFs}
    (hm : ramfsMount .zero fresh = some fs₀) (hr : DirReach fs₀ fs) :
    ((∀ d, ((fs.children d).map fs.name).Nodup) ∧
      (∀ d e c, c ∈ fs.children d → c ∈ fs.children e → d = e) ∧
      (∀ p q n, Trail fs p n → Trail fs q n → p = q)) ∧
    ∀ c, fs.Valid c → ∃ r fs', fs.call c = some (r, fs') ∧ fs.ref.Step c r fs'.ref ∧
      (r = .value enospc ∨ r = .value enoent → fs' = fs) := by
  have h := (TreeInv.mount hm).1.reach hr
  refine ⟨⟨h.distinct, h.parent, fun p q n hp hq => h.trail_unique hp hq⟩, fun c hv => ?_⟩
  obtain ⟨r, fs', hc, -, hstep, hfail⟩ := h.call hv
  exact ⟨r, fs', hc, hstep, hfail⟩

/-- After `ramfs_mount`, a file `a` is made in the root and `tmp` is removed. Then there is room for
another `tmp`. -/
theorem ramfs_finite_map_again : ∃ fs₀ fs fs' : RamFs, ramfsMount .zero none = some fs₀ ∧
    DirReach fs₀ fs ∧ (ramfsLookup fs 0 (str ['a'])).isSome ∧
    ramfsLookup fs 0 (str ['t', 'm', 'p']) = none ∧
    fs.call (.create 0 (str ['t', 'm', 'p']) .dir) = some (.value 0, fs') ∧
    fs.ref.Step (.create 0 (str ['t', 'm', 'p']) .dir) (.value 0) fs'.ref := by
  have hrun : ((ramfsMount .zero none).bind fun fs₀ =>
      (fs₀.call (.create 0 (str ['a']) .reg)).bind fun x =>
      (x.2.call (.unlink 0 (str ['t', 'm', 'p']))).map fun y =>
        decide (0 < fs₀.nodeCount ∧ ramfsLookup fs₀ 0 (str ['a']) = none ∧ 0 < x.2.nodeCount ∧
          0 < y.2.nodeCount ∧ (ramfsLookup y.2 0 (str ['a'])).isSome ∧
          ramfsLookup y.2 0 (str ['t', 'm', 'p']) = none ∧ ¬ y.2.NoRoom 0)) = some true := by
    decide +kernel
  obtain ⟨fs₀, hm, hrun⟩ := Option.bind_eq_some_iff.mp hrun
  obtain ⟨⟨r, fs₁⟩, h₁, hrun⟩ := Option.bind_eq_some_iff.mp hrun
  obtain ⟨⟨r', fs⟩, h₂, hrun⟩ := Option.map_eq_some_iff.mp hrun
  obtain ⟨hc₀, hnone, hc₁, hc, ha, htmp, hroom⟩ := of_decide_eq_true hrun
  have hreach : DirReach fs₀ fs := (Relation.ReflTransGen.single
    ⟨.create 0 (str ['a']) .reg, r, ⟨hc₀, by decide, by decide, hnone⟩, h₁⟩).tail
    ⟨.unlink 0 (str ['t', 'm', 'p']), r', ⟨hc₁, by decide, by decide⟩, h₂⟩
  obtain ⟨r'', fs', hcall, hstep, -⟩ := (ramfs_finite_map hm hreach).2
    (.create 0 (str ['t', 'm', 'p']) .dir) ⟨hc, by decide, by decide, htmp⟩
  have hinv := (TreeInv.mount hm).1.reach hreach
  generalize href : fs'.ref = m at hstep
  cases hstep with
  | full _ _ hfull => exact absurd (hinv.full_iff.mp hfull) hroom
  | created _ _ hfree hnew =>
    refine ⟨fs₀, fs, fs', hm, hreach, ha, htmp, hcall, ?_⟩
    rw [href]
    exact .created _ _ hfree hnew

end Sinux.Fs

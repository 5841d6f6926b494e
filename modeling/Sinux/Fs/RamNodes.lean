import Sinux.Fs.RamDir
import Sinux.Mm.Kmalloc

/-!
# The nodes and blocks of the ramfs

`alloc_node` takes the next of 2048 nodes and none is given back: `ramfs_unlink` takes the entry out of
its directory and leaves the node, and the block of its contents, as they are. A block has always more
than 4096 bytes, so `kmalloc` takes at least two pages for it; when `ramfs_write` replaces it by a larger
one, `kfree` gives back the first of its pages.

* `RamHeap`: the ramfs with the heap of the kernel; `RamCall`: creates, writes and unlinks.
* `Frugal`: what is not in the tree holds nothing.
* `ramfs_frugal`: that is so as long as no unlink succeeds and no file outgrows its block.
* `ramfs_unlink_leaks`: a file that is deleted keeps its node and its pages.

**Out of scope**: other users of the heap between the calls, and positions near 2^64, at which the size
of the new block wraps.
-/

namespace Sinux.Fs

open Function Sinux.Lib Sinux.Mm

/-- The node is in the tree. -/
def RamFs.Linked (fs : RamFs) (i : Nat) : Prop :=
  Relation.ReflTransGen (fun d c => c ∈ fs.children d) 0 i

/-- The ramfs and the heap; `addr` is `node->data`. -/
structure RamHeap where
  fs : RamFs
  kheap : KHeap
  addr : Nat → U64

/-- A call. Of a write also the contents of the new block, if there is one, and of memory when the old
one is freed. -/
inductive RamCall where
  | create (d : Nat) (name : Str) (type : FileType)
  | write (i : Nat) (f : File Nat) (buf block : List Byte) (mem : Mem)
  | unlink (d : Nat) (name : Str)

namespace RamHeap

variable (s : RamHeap)

/-- The free pages. -/
def pmm : Pmm := s.kheap.heap.phys.pmm

/-- The heap calls of a `ramfs_write` that ends at `pos`: the address of the new block, 0 if there is
none, and the heap. -/
def blockCalls (i pos : Nat) (mem : Mem) : Option (U64 × KHeap) :=
  if (s.fs.nodes i).capacity < pos % 2 ^ 64 then do
    let (p, k) ← kmalloc (BitVec.ofNat 64 (pos + 4096)) s.kheap
    if p = 0 ∨ (s.fs.nodes i).data = none then some (p, k)
    else
      let k := { k with heap := { k.heap with phys := { k.heap.phys with mem } } }
      (kfree (s.addr i) k).map fun k => (p, k)
  else some (0, s.kheap)

/-- The state after the call. -/
def step : RamCall → Option RamHeap
  | .create d name type => (ramfsCreate s.fs d name type).map fun r => { s with fs := r.2 }
  | .write i f buf block mem => do
    let (p, k) ← s.blockCalls i (f.pos + buf.length) mem
    let (_, x, _) ← ramfsWrite (s.fs.nodes i) f buf (if p = 0 then none else some block)
    return ⟨s.fs.setNode i x, k, if p = 0 then s.addr else update s.addr i p⟩
  | .unlink d name => some { s with fs := (ramfsUnlink s.fs d name).2 }

/-- The call is on a node of the tree, with a name that fits and a position that does not wrap. -/
def Legal : RamCall → Prop
  | .create d name _ => s.fs.Linked d ∧ name.length < 255
  | .write i f buf _ _ => s.fs.Linked i ∧ f.pos + buf.length + 4096 < 2 ^ 64
  | .unlink d _ => s.fs.Linked d

/-- The call loses nothing: a write stays in its block, or there is none yet and the lowest free pages
are consecutive; an unlink finds no entry. -/
def Tight : RamCall → Prop
  | .create _ _ _ => True
  | .write i f buf _ _ => f.pos + buf.length ≤ (s.fs.nodes i).capacity ∨
      (s.fs.nodes i).data = none ∧ LargeOk s.pmm (BitVec.ofNat 64 (f.pos + buf.length + 4096))
  | .unlink d name => ramfsLookup s.fs d name = none

/-- The page `g` is one of the block of a file in the tree. -/
def InBlock (g : Nat) : Prop :=
  ∃ i, s.fs.Linked i ∧ (s.fs.nodes i).data ≠ none ∧
    g ∈ List.range' (pageOf (s.addr i)) (((s.fs.nodes i).capacity + 4095) / 4096)

/-- A create in a directory with room fails only when all nodes are in the tree, and of the pages that
were free in `k₀` exactly those of the blocks of files in the tree are taken. -/
structure Frugal (k₀ : KHeap) : Prop where
  create {d : Nat} {name : Str} {type : FileType} {fs' : RamFs} : s.fs.Linked d →
    (s.fs.children d).length < ramfsMaxChildren → name.length < 255 →
    ramfsCreate s.fs d name type = some (enospc, fs') → ∀ i < ramfsMaxNodes, s.fs.Linked i
  heap (g : Nat) : s.pmm.Free g ↔ k₀.heap.phys.pmm.Free g ∧ ¬s.InBlock g

/-- A run. -/
def Run (ok : RamHeap → RamCall → Prop) : RamHeap → RamHeap → Prop :=
  Relation.ReflTransGen fun s s' => ∃ c, s.Legal c ∧ ok s c ∧ s.step c = some s'

end RamHeap

/-! ## Runs that lose nothing -/

namespace RamFs

variable {fs : RamFs}

theorem Linked.mono {fs' : RamFs} (h : ∀ d, fs.children d ⊆ fs'.children d) {i : Nat}
    (hi : fs.Linked i) : fs'.Linked i :=
  Relation.ReflTransGen.mono (fun d _ hc => h d hc) 0 i hi

theorem Linked.lt {i : Nat} (hi : fs.Linked i) (h : TreeShape fs) (hpos : 0 < fs.nodeCount) :
    i < fs.nodeCount := by
  cases hi with
  | refl => exact hpos
  | tail _ hc => exact (h.younger _ _ hc).2

/-- Every node that was taken is in the tree. -/
structure AllLinked (fs : RamFs) : Prop where
  tree : TreeShape fs
  pos : 0 < fs.nodeCount
  linked : ∀ i < fs.nodeCount, fs.Linked i

theorem AllLinked.lt (h : fs.AllLinked) {i : Nat} (hi : fs.Linked i) : i < fs.nodeCount :=
  hi.lt h.tree h.pos

theorem AllLinked.added (h : fs.AllLinked) {d : Nat} (hd : fs.Linked d)
    (hcount : fs.nodeCount < ramfsMaxNodes) (hwidth : (fs.children d).length < ramfsMaxChildren)
    (name : Str) (type : FileType) : (fs.added d name type).AllLinked := by
  refine ⟨h.tree.added (h.lt hd) hcount hwidth name type, Nat.succ_pos _, fun i hi => ?_⟩
  have hsub : ∀ e, fs.children e ⊆ (fs.added d name type).children e := fun e c hc =>
    h.tree.mem_added.mpr (Or.inl hc)
  rcases Nat.lt_succ_iff_lt_or_eq.mp hi with hlt | rfl
  · exact (h.linked i hlt).mono hsub
  · exact (hd.mono hsub).tail (h.tree.mem_added.mpr (Or.inr ⟨rfl, rfl⟩))

theorem AllLinked.setNode (h : fs.AllLinked) {i : Nat} {x : RamNode}
    (hx : SameEntry x (fs.nodes i)) : (fs.setNode i x).AllLinked := by
  obtain ⟨-, hchildren⟩ := TreeInv.setNode_shape hx.name hx.children
  refine ⟨h.tree.setNode hchildren, h.pos, fun j hj => ?_⟩
  rw [Linked, hchildren]
  exact h.linked j hj

theorem setNode_self (fs : RamFs) (i : Nat) (x : RamNode) : (fs.setNode i x).nodes i = x :=
  update_self ..

theorem setNode_ne (fs : RamFs) {i j : Nat} {x : RamNode} (h : j ≠ i) :
    (fs.setNode i x).nodes j = fs.nodes j := update_of_ne h ..

end RamFs

theorem block_added (fs : RamFs) (d : Nat) (name : Str) (type : FileType) (i : Nat) :
    ((fs.added d name type).nodes i).data =
        (if i = fs.nodeCount then none else (fs.nodes i).data) ∧
      ((fs.added d name type).nodes i).capacity =
        if i = fs.nodeCount then 0 else (fs.nodes i).capacity := by
  unfold RamFs.added RamFs.setChildren RamFs.setNode
  by_cases hd : i = d <;> by_cases hi : i = fs.nodeCount <;> simp_all [ramfsNode, newNode]

section

variable {x x' : RamNode} {f f' : File Nat} {buf : List Byte} {ret : U64}

/-- A write that needs no block, or gets none, leaves the block. -/
theorem ramfsWrite_block (h : ramfsWrite x f buf none = some (ret, x', f')) :
    x'.capacity = x.capacity ∧ (x'.data = none ↔ x.data = none) := by
  unfold ramfsWrite at h
  split at h
  · cases h
    exact ⟨rfl, Iff.rfl⟩
  · exact (ramfsStore_keeps h).2.2

/-- The first block of a file. -/
theorem ramfsWrite_newBlock {block : List Byte} (hnone : x.data = none)
    (hcap : x.capacity < f.pos + buf.length) (hfit : f.pos + buf.length + 4096 < 2 ^ 64)
    (h : ramfsWrite x f buf (some block) = some (ret, x', f')) :
    x'.capacity = f.pos + buf.length + 4096 ∧ x'.data ≠ none := by
  unfold ramfsWrite at h
  rw [Nat.mod_eq_of_lt (by omega), if_pos hcap, Nat.mod_eq_of_lt hfit] at h
  simp only [ramfsGrow, hnone, Option.bind_eq_bind, Option.bind_some] at h
  obtain ⟨-, -, h1, h2⟩ := ramfsStore_keeps h
  exact ⟨h1, fun hx => nomatch h2.mp hx⟩

end

namespace RamHeap

/-- Nothing was lost since the heap was `k₀`. -/
structure Kept (k₀ : KHeap) (s : RamHeap) : Prop where
  all : s.fs.AllLinked
  valid : s.pmm.Valid
  ready : s.kheap.slabReady = true
  heap : ∀ g, s.pmm.Free g ↔ k₀.heap.phys.pmm.Free g ∧ ¬s.InBlock g

namespace Kept

variable {k₀ : KHeap} {s s' : RamHeap}

theorem inBlock_congr
    (h : ∀ i, s'.fs.Linked i ∧ (s'.fs.nodes i).data ≠ none ↔
      s.fs.Linked i ∧ (s.fs.nodes i).data ≠ none)
    (hc : ∀ i, s.fs.Linked i → (s'.fs.nodes i).capacity = (s.fs.nodes i).capacity)
    (ha : s'.addr = s.addr) (g : Nat) : s'.InBlock g ↔ s.InBlock g := by
  constructor
  · rintro ⟨i, hi, hne, hg⟩
    obtain ⟨hi, hne⟩ := (h i).mp ⟨hi, hne⟩
    rw [ha, hc i hi] at hg
    exact ⟨i, hi, hne, hg⟩
  · rintro ⟨i, hi, hne, hg⟩
    obtain ⟨hi', hne'⟩ := (h i).mpr ⟨hi, hne⟩
    refine ⟨i, hi', hne', ?_⟩
    rwa [ha, hc i hi]

theorem create (h : Kept k₀ s) {d : Nat} {name : Str} {type : FileType} (hd : s.fs.Linked d)
    (hlen : name.length < 255) (hs : s.step (.create d name type) = some s') : Kept k₀ s' := by
  obtain ⟨r, hr, rfl⟩ := Option.map_eq_some_iff.mp hs
  rcases ramfsCreate_cases (h.all.lt hd) hlen type with ⟨hc, -⟩ | ⟨hc, hcount, hwidth⟩
  · cases hr.symm.trans hc
    exact h
  · cases hr.symm.trans hc
    have hall := h.all.added hd hcount hwidth name type
    refine ⟨hall, h.valid, h.ready, fun g => (h.heap g).trans (and_congr_right fun _ => not_congr ?_)⟩
    refine (@inBlock_congr s ⟨s.fs.added d name type, s.kheap, s.addr⟩ (fun i => ?_)
      (fun i hi => ?_) rfl g).symm
    · have hlinked : (s.fs.added d name type).Linked i ↔ s.fs.Linked i ∨ i = s.fs.nodeCount := by
        refine ⟨fun hi => ?_, fun hi => hall.linked i ?_⟩
        · exact (Nat.lt_succ_iff_lt_or_eq.mp (hall.lt hi)).imp_left (h.all.linked i)
        · rcases hi with hi | rfl
          · exact Nat.lt_succ_of_lt (h.all.lt hi)
          · exact Nat.lt_succ_self _
      rw [hlinked]
      by_cases hi : i = s.fs.nodeCount
      · -- the new node has no block
        rw [(block_added s.fs d name type i).1, if_pos hi]
        refine ⟨fun hx => absurd rfl hx.2, fun hx => absurd (h.all.lt hx.1) ?_⟩
        omega
      · rw [(block_added s.fs d name type i).1, if_neg hi, or_iff_left hi]
    · rw [(block_added s.fs d name type i).2, if_neg (h.all.lt hi).ne]

section SetNode

variable {i : Nat} {x : RamNode} (hx : SameEntry x (s.fs.nodes i))
include hx

theorem linked_setNode (j : Nat) : (s.fs.setNode i x).Linked j ↔ s.fs.Linked j := by
  rw [RamFs.Linked, RamFs.Linked, (TreeInv.setNode_shape hx.name hx.children).2]

theorem keepsBlock (h : Kept k₀ s) (hcap : x.capacity = (s.fs.nodes i).capacity)
    (hdata : x.data = none ↔ (s.fs.nodes i).data = none) :
    Kept k₀ ⟨s.fs.setNode i x, s.kheap, s.addr⟩ := by
  refine ⟨h.all.setNode hx, h.valid, h.ready,
    fun g => (h.heap g).trans (and_congr_right fun _ => not_congr ?_)⟩
  refine (@inBlock_congr s ⟨s.fs.setNode i x, s.kheap, s.addr⟩ (fun j => ?_) (fun j _ => ?_) rfl g).symm
  · rw [linked_setNode hx]
    by_cases hj : j = i
    · rw [hj, s.fs.setNode_self, Ne, hdata]
    · rw [s.fs.setNode_ne hj]
  · by_cases hj : j = i
    · rw [hj, s.fs.setNode_self, hcap]
    · rw [s.fs.setNode_ne hj]

/-- The block of a node that had none is in the pages from `n` on. -/
theorem takesBlock (h : Kept k₀ s) (hi : s.fs.Linked i) (hnone : (s.fs.nodes i).data = none)
    (hdata : x.data ≠ none) {n : Nat} (hn : n < 2 ^ 52) {k : KHeap} (hready : k.slabReady = true)
    (htakes : s.pmm.Takes (List.range' n ((x.capacity + 4095) / 4096)) k.heap.phys.pmm) :
    Kept k₀ ⟨s.fs.setNode i x, k, update s.addr i (pageAddr n)⟩ := by
  refine ⟨h.all.setNode hx, htakes.valid h.valid, hready, fun g => (htakes.free_iff g).trans ?_⟩
  rw [h.heap g, and_assoc, ← not_or]
  refine and_congr_right fun _ => not_congr ⟨?_, ?_⟩ <;> dsimp only [InBlock]
  · rintro (⟨j, hj, hne, hg⟩ | hg)
    · have hji : j ≠ i := fun e => hne (e ▸ hnone)
      refine ⟨j, (linked_setNode hx j).mpr hj, ?_, ?_⟩
      · rwa [s.fs.setNode_ne hji]
      · rwa [s.fs.setNode_ne hji, update_of_ne hji]
    · refine ⟨i, (linked_setNode hx i).mpr hi, ?_, ?_⟩
      · rwa [s.fs.setNode_self]
      · rwa [s.fs.setNode_self, update_self, pageOf_pageAddr hn]
  · rintro ⟨j, hj, hne, hg⟩
    by_cases hji : j = i
    · rw [hji, s.fs.setNode_self, update_self, pageOf_pageAddr hn] at hg
      exact Or.inr hg
    · rw [s.fs.setNode_ne hji, update_of_ne hji] at hg
      rw [s.fs.setNode_ne hji] at hne
      exact Or.inl ⟨j, (linked_setNode hx j).mp hj, hne, hg⟩

end SetNode

theorem write (h : Kept k₀ s) {i : Nat} {f : File Nat} {buf block : List Byte} {mem : Mem}
    (hi : s.fs.Linked i) (hfit : f.pos + buf.length + 4096 < 2 ^ 64)
    (ht : s.Tight (.write i f buf block mem)) (hs : s.step (.write i f buf block mem) = some s') :
    Kept k₀ s' := by
  obtain ⟨⟨p, k⟩, hcalls, hs⟩ := Option.bind_eq_some_iff.mp hs
  obtain ⟨⟨ret, x, f'⟩, hw, hs⟩ := Option.bind_eq_some_iff.mp hs
  cases hs
  have hx := ramfsWrite_sameEntry hw
  unfold blockCalls at hcalls
  rw [Nat.mod_eq_of_lt (by omega)] at hcalls
  by_cases hcap : (s.fs.nodes i).capacity < f.pos + buf.length
  · rw [if_pos hcap] at hcalls
    obtain ⟨hnone, hok⟩ := ht.resolve_left (by omega)
    set size : U64 := BitVec.ofNat 64 (f.pos + buf.length + 4096) with hsize
    have hval : size.toNat = f.pos + buf.length + 4096 := by
      rw [hsize, BitVec.toNat_ofNat, Nat.mod_eq_of_lt hfit]
    have hlarge : 2048 < size := by
      rw [BitVec.lt_def, hval]
      show 2048 < _
      omega
    rw [kmalloc_large h.ready hlarge] at hcalls
    simp only [Option.bind_eq_bind, Option.bind_some, hnone, or_true, if_true, Option.some_inj,
      Prod.mk.injEq] at hcalls
    obtain ⟨rfl, rfl⟩ := hcalls
    rcases kmallocLarge_spec h.valid (by omega) hok with he | ⟨n, t, he, hn, hn0, -, htakes⟩
    · rw [he] at hw ⊢
      obtain ⟨hcap', hdata'⟩ := ramfsWrite_block hw
      exact h.keepsBlock hx hcap' hdata'
    · rw [he] at hw ⊢
      dsimp only at hw ⊢
      rw [if_neg hn0] at hw ⊢
      obtain ⟨hcap', hdata'⟩ := ramfsWrite_newBlock hnone hcap hfit hw
      rw [hval, ← hcap'] at htakes
      exact h.takesBlock hx hi hnone hdata' hn.lt h.ready htakes
  · rw [if_neg hcap] at hcalls
    cases hcalls
    obtain ⟨hcap', hdata'⟩ := ramfsWrite_block hw
    exact h.keepsBlock hx hcap' hdata'

theorem step (h : Kept k₀ s) {c : RamCall} (hl : s.Legal c) (ht : s.Tight c)
    (hs : s.step c = some s') : Kept k₀ s' := by
  cases c with
  | create d name type => exact h.create hl.1 hl.2 hs
  | write i f buf block mem => exact h.write hl.1 hl.2 ht hs
  | unlink d name =>
    cases hs
    rcases ramfsUnlink_cases s.fs d name with ⟨-, hu⟩ | ⟨-, n, -, -, -, -, hn, -⟩
    · rw [hu]
      exact h
    · cases ht.symm.trans hn

theorem run (h : Kept k₀ s) (hr : Run Tight s s') : Kept k₀ s' := by
  induction hr with
  | refl => exact h
  | tail _ hs ih =>
    obtain ⟨c, hl, ht, hs⟩ := hs
    exact ih.step hl ht hs

theorem frugal (h : Kept k₀ s) : s.Frugal k₀ where
  create {d name type fs'} hd hwidth hlen hc i hi := by
    rcases ramfsCreate_cases (h.all.lt hd) hlen type with ⟨-, hfull⟩ | ⟨hc', -⟩
    · rcases hfull with hfull | hfull
      · exact absurd hwidth (Nat.not_lt.mpr hfull)
      · exact h.all.linked i (by omega)
    · cases hc.symm.trans hc'
  heap := h.heap

end Kept

theorem Kept.start {fs : RamFs} {root : Option Nat} (ht : ramfsTree .zero = some (root, fs))
    {k₀ : KHeap} (hv : k₀.heap.phys.pmm.Valid) (hready : k₀.slabReady = true) (addr : Nat → U64) :
    Kept k₀ ⟨fs, k₀, addr⟩ := by
  obtain ⟨htree, -, hpos, -⟩ := TreeInv.tree ht
  have hval : ((ramfsTree .zero).map fun r => (r.2.nodeCount, r.2.children 0,
      (List.range 8).all fun i => (r.2.nodes i).data.isNone)) =
      some (8, [1, 2, 3, 4, 5, 6, 7], true) := by decide +kernel
  rw [ht, Option.map_some, Option.some_inj] at hval
  obtain ⟨hcount, hval⟩ := Prod.mk.inj hval
  obtain ⟨hchildren, hdata⟩ := Prod.mk.inj hval
  dsimp only at hcount hchildren hdata
  have hall : fs.AllLinked := by
    refine ⟨htree.toTreeShape, hpos, fun i hi => ?_⟩
    rcases Nat.eq_zero_or_pos i with rfl | hi0
    · exact .refl
    · refine .single ?_
      rw [hchildren]
      simp only [List.mem_cons]
      omega
  refine ⟨hall, hv, hready, fun g => (and_iff_left ?_).symm⟩
  rintro ⟨i, hi, hne, -⟩
  have hi8 := hcount ▸ hall.lt hi
  exact hne (Option.isNone_iff_eq_none.mp (List.all_eq_true.mp hdata i (List.mem_range.mpr hi8)))

end RamHeap

open RamHeap

/-- **Nothing is held by what is not in the tree**, in every run from the mounted directories in which no
unlink succeeds and no file outgrows its block. -/
theorem ramfs_frugal {root : Option Nat} {fs : RamFs} (ht : ramfsTree .zero = some (root, fs))
    {k₀ : KHeap} (hv : k₀.heap.phys.pmm.Valid) (hready : k₀.slabReady = true) (addr : Nat → U64)
    {s : RamHeap} (hr : Run Tight ⟨fs, k₀, addr⟩ s) : s.Frugal k₀ :=
  ((Kept.start ht hv hready addr).run hr).frugal

/-- The file `/a` is made. -/
def makeA : RamCall := .create 0 (str ['a']) .reg

/-- A byte is written to it. -/
def writeA : RamCall :=
  .write 8 ⟨8, 0, oWronly, 1, some .ramfs⟩ [65] (List.replicate 4097 0) fun _ _ => 0

/-- It is deleted. -/
def unlinkA : RamCall := .unlink 0 (str ['a'])

theorem largeOk_eightPages : LargeOk eightPages.pmm 4097 := by
  intro f hf hlow
  obtain rfl : f = 1 := by
    have hlt : f < 8 := hf.1
    rcases Nat.lt_trichotomy f 1 with h | h | h
    · obtain rfl : f = 0 := by omega
      exact absurd hf (by decide)
    · exact h
    · exact absurd (by decide : eightPages.pmm.Free 1) (hlow 1 h)
  decide

/-- `/a` holds two pages. -/
theorem ramfs_frugal_first : ∃ fs s, ramfsTree .zero = some (some 0, fs) ∧
    Run Tight ⟨fs, vmmInit eightHeap, fun _ => 0⟩ s ∧ s.Frugal (vmmInit eightHeap) ∧
    s.InBlock 1 ∧ s.InBlock 2 := by
  have hrun : ((ramfsTree .zero).bind fun r =>
      (RamHeap.step ⟨r.2, vmmInit eightHeap, fun _ => 0⟩ makeA).bind fun s₁ =>
        (s₁.step writeA).map fun s => decide (r.1 = some 0 ∧
          (8 ∈ s₁.fs.children 0 ∧ (s₁.fs.nodes 8).data = none) ∧ 8 ∈ s.fs.children 0 ∧
          (s.fs.nodes 8).data ≠ none ∧ pageOf (s.addr 8) = 1 ∧ (s.fs.nodes 8).capacity = 4097)) =
      some true := by
    decide +kernel
  obtain ⟨⟨root, fs⟩, ht, hrun⟩ := Option.bind_eq_some_iff.mp hrun
  obtain ⟨s₁, hs₁, hrun⟩ := Option.bind_eq_some_iff.mp hrun
  obtain ⟨s, hs, heq⟩ := Option.map_eq_some_iff.mp hrun
  obtain ⟨rfl, ⟨hmem₁, hnone⟩, hmem, hdata, haddr, hcap⟩ := of_decide_eq_true heq
  have hpmm : s₁.pmm = eightPages.pmm := by
    obtain ⟨r, -, rfl⟩ := Option.map_eq_some_iff.mp hs₁
    rfl
  have hr : Run Tight ⟨fs, vmmInit eightHeap, fun _ => 0⟩ s := by
    refine .tail (.single ⟨makeA, ⟨.refl, by decide⟩, trivial, hs₁⟩)
      ⟨writeA, ⟨.single hmem₁, by decide⟩, Or.inr ⟨hnone, ?_⟩, hs⟩
    rw [hpmm]
    exact largeOk_eightPages
  have hblock : ∀ g ∈ List.range' 1 2, s.InBlock g := fun g hg => by
    refine ⟨8, .single hmem, hdata, ?_⟩
    rw [haddr, hcap]
    exact hg
  exact ⟨fs, s, ht, hr, ramfs_frugal ht eightPages_valid rfl _ hr, hblock 1 (by decide),
    hblock 2 (by decide)⟩

theorem RamFs.Linked.mem_of_closed {fs : RamFs} {L : List Nat} (h0 : 0 ∈ L)
    (hc : ∀ d ∈ L, ∀ c ∈ fs.children d, c ∈ L) {i : Nat} (hi : fs.Linked i) : i ∈ L := by
  induction hi with
  | refl => exact h0
  | tail _ hmem ih => exact hc _ ih _ hmem

/-- **A deleted file keeps its block and its node**: after `/a` was made, written and deleted the pages
1 and 2 are taken, no file in the tree has a block, and nine nodes are used for eight in the tree. -/
theorem ramfs_unlink_leaks : ∃ fs s, ramfsTree .zero = some (some 0, fs) ∧
    Run (fun _ _ => True) ⟨fs, vmmInit eightHeap, fun _ => 0⟩ s ∧
    (¬s.pmm.Free 1 ∧ ¬s.pmm.Free 2 ∧ ∀ g, ¬s.InBlock g) ∧
    (s.fs.nodeCount = 9 ∧ ∀ i, s.fs.Linked i → i < 8) ∧ ¬s.Frugal (vmmInit eightHeap) := by
  have hrun : ((ramfsTree .zero).bind fun r =>
      (RamHeap.step ⟨r.2, vmmInit eightHeap, fun _ => 0⟩ makeA).bind fun s₁ =>
        (s₁.step writeA).bind fun s₂ => (s₂.step unlinkA).map fun s =>
          decide (r.1 = some 0 ∧ 8 ∈ s₁.fs.children 0 ∧ s.fs.nodeCount = 9 ∧
          (∀ d ∈ List.range 8, ∀ c ∈ s.fs.children d, c ∈ List.range 8) ∧
          (∀ i ∈ List.range 8, (s.fs.nodes i).data = none) ∧ ¬s.pmm.Free 1 ∧ ¬s.pmm.Free 2)) =
      some true := by
    decide +kernel
  obtain ⟨⟨root, fs⟩, ht, hrun⟩ := Option.bind_eq_some_iff.mp hrun
  obtain ⟨s₁, hs₁, hrun⟩ := Option.bind_eq_some_iff.mp hrun
  obtain ⟨s₂, hs₂, hrun⟩ := Option.bind_eq_some_iff.mp hrun
  obtain ⟨s, hs, heq⟩ := Option.map_eq_some_iff.mp hrun
  obtain ⟨rfl, hmem, hcount, hclosed, hdata, hused⟩ := of_decide_eq_true heq
  have hlinked {i : Nat} (hi : s.fs.Linked i) : i ∈ List.range 8 :=
    hi.mem_of_closed (by decide) hclosed
  have hblock : ∀ g, ¬s.InBlock g := fun g ⟨i, hi, hne, _⟩ => hne (hdata i (hlinked hi))
  refine ⟨fs, s, ht, .tail (.tail (.single ⟨makeA, ⟨.refl, by decide⟩, trivial, hs₁⟩)
    ⟨writeA, ⟨.single hmem, by decide⟩, trivial, hs₂⟩) ⟨unlinkA, .refl, trivial, hs⟩,
    ⟨hused.1, hused.2, hblock⟩, ⟨hcount, fun i hi => List.mem_range.mp (hlinked hi)⟩, fun hf => ?_⟩
  exact hused.1 ((hf.heap 1).mpr ⟨by decide, hblock 1⟩)

end Sinux.Fs

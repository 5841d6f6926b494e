import Sinux.Mm.Fork
import Sinux.Proc.ContextSwitch
import Sinux.Proc.Files
import Sinux.Proc.Spaces
import Mathlib.Data.Set.Card

/-!
# What a child inherits

`sys_fork` lets `proc_create` make a blank process and then assigns to its fields. A fork that
succeeds has copied the whole address space, since the copy only stops early when no page is left,
and `proc_create` needs two more.

* `FaithfulCopy`: what a child should get.
* `TakesLowest`: `pmm_alloc` hands out the lowest free page, so the pages of the copy lie below the
  child's kernel stack and the first frame, which reaches behind that page, hits none of them.
* `fork_never_faithful`: no child is a faithful copy. The PML4 that `proc_create` takes for it is
  overwritten with the copy and nobody frees it; besides, `brk_start` is lost.

Out of scope: the order in which parent and child run, which is the scheduler's.
-/

namespace Sinux.Proc

open Function Sinux.Lib Sinux.Lib.Radix Sinux.Lib.X86 Sinux.Mm Sinux.Arch

/-! ## The copy -/

/-- What a process sees at a virtual page: the flags of the mapping and the contents of the frame.
All bits of an entry above its flags belong to the frame's number. -/
def pageView (m : Mem) (r : Nat) (v : VPage) : Option (U64 × (Fin 512 → U64)) :=
  (childOf (leafEntry m r v)).map fun g => (leafEntry m r v &&& 0xFFF, m g)

/-- The pages of the address space of process `i`. -/
def spaceOf (k : Kernel) (i : Fin maxProcs) : Set Nat :=
  {x | Node childOf userIdx 4 k.phys.mem {pageOf (k.procTable i).pml4} x}

/-- The page that was obtained for its kernel stack. -/
def stackOf (k : Kernel) (i : Fin maxProcs) : Set Nat := {pageOf (k.procTable i).kstack}

/-- What `cur` hands on to its child `i`, in `m` before `sys_fork` and `m'` after it. -/
structure Inherits (ctx : UserCtx) (cur i : Fin maxProcs) (m m' : Machine) : Prop where
  pid : m'.pid i = m.kernel.nextPid
  ppid : (m'.kernel.procTable i).ppid = m.pid cur
  brk : (m'.kernel.procTable i).brk = (m.kernel.procTable cur).brk
  cwd : (m'.kernel.procTable i).cwd = (m.kernel.procTable cur).cwd
  fds : (m'.kernel.procTable i).fds = (m.kernel.procTable cur).fds
  /-- One reference more for each descriptor. -/
  refcount : ∀ f : U64, f ≠ 0 → m'.kernel.refcount f =
    m.kernel.refcount f + BitVec.ofNat 32 (fdCount (m.kernel.procTable cur) f)
  pending : (m'.sig i).pending = 0
  /-- The child comes to user mode where the parent called, with 0 in `rax`. -/
  returns : ∀ c : Core, Saved (wordAt m'.kernel.phys.mem) (m'.kernel.procTable i).rsp (contextOf c) →
    InUser (forkChildStub c) ctx.rip ctx.rsp ctx.rflags

/-- The child `i` is a copy of `cur`. -/
structure FaithfulCopy (ctx : UserCtx) (cur i : Fin maxProcs) (m m' : Machine) : Prop
    extends Inherits ctx cur i m m' where
  brkStart : (m'.kernel.procTable i).brkStart = (m.kernel.procTable cur).brkStart
  blocked : (m'.sig i).blocked = (m.sig cur).blocked
  handler : (m'.sig i).handler = (m.sig cur).handler
  /-- The child sees what the parent saw. -/
  memory : ∀ v : VPage, v.User → pageView m'.kernel.phys.mem (pageOf (m'.kernel.procTable i).pml4) v =
    pageView m.kernel.phys.mem (pageOf (m.kernel.procTable cur).pml4) v
  /-- So does the parent. -/
  parent : ∀ v : VPage, v.User →
    pageView m'.kernel.phys.mem (pageOf (m'.kernel.procTable cur).pml4) v =
      pageView m.kernel.phys.mem (pageOf (m.kernel.procTable cur).pml4) v
  /-- The pages taken are the child's address space and kernel stack. -/
  pages : ∀ x, (m.kernel.phys.pmm.Free x ∧ ¬ m'.kernel.phys.pmm.Free x) ↔
    x ∈ spaceOf m'.kernel i ∨ x ∈ stackOf m'.kernel i
  count : m.kernel.phys.pmm.freePages.toNat = m'.kernel.phys.pmm.freePages.toNat +
    ((spaceOf m'.kernel i).ncard + (stackOf m'.kernel i).ncard)

/-- The memory when `sys_fork` calls `proc_create`. -/
def copiedPhys (cur : Fin maxProcs) (m : Machine) : Phys := (afterClone cur m.kernel).phys

/-! ## The record of the child -/

theorem procCreate_brkStart {i : Fin maxProcs} {k : Kernel} (h : freeSlot k = some i) :
    ((procCreate k).2.procTable i).brkStart = 0 := by
  have hclaim : ((claimSlot i k).procTable i).brkStart = 0 := by
    unfold claimSlot
    dsimp only
    rw [upd_self]
    dsimp only
    rw [upd_self]
    rfl
  simp only [procCreate, h]
  split
  · rw [upd_self]
    exact hclaim
  · rw [attachPml4_field (g := Process.brkStart) fun _ _ _ _ _ => rfl, upd_self]
    exact hclaim

section Record

variable {ctx : UserCtx} {cur i : Fin maxProcs} {k k' : Kernel} {pml4 : U64} {t : Phys}

/-- The bounds of the heap of a new child: what `sys_fork` assigns, and what `proc_create` left. -/
structure ChildHeap (cur i : Fin maxProcs) (k k' : Kernel) : Prop where
  brk : (k'.procTable i).brk = (k.procTable cur).brk
  brkStart : (k'.procTable i).brkStart = 0

theorem sysFork_heap (ctx : UserCtx)
    (hclone : vmmClonePml4 k.kernelPml4 (k.procTable cur).pml4 k.phys = (pml4, t))
    (hpml4 : pml4 ≠ 0) (hslot : freeSlot k = some i)
    (hcreate : procCreate (k.withPhys t) = (some i, k')) (hne : cur ≠ i) :
    ChildHeap cur i k (sysFork ctx cur k).2 := by
  have hpar : k'.procTable cur = k.procTable cur := by
    have h := (procCreate_claims (k := k.withPhys t) hslot).1.others cur hne
    rwa [hcreate] at h
  have hbrkStart : (k'.procTable i).brkStart = 0 := by
    have h := procCreate_brkStart (k := k.withPhys t) hslot
    rwa [hcreate] at h
  let child (p : Process) : Process := { p with
    pml4 := pml4, ppid := (k'.procTable cur).pid, brk := (k'.procTable cur).brk,
    cwd := (k'.procTable cur).cwd }
  let k₂ := k'.upd i child
  have hfork : (sysFork ctx cur k).2 = schedAdd i
      (pushFrame i (switchFrame ctx.stub ctx.rip ctx.rsp ctx.rflags) (inheritFds 64 i cur k₂)) := by
    simp only [sysFork, hclone, if_neg hpml4, hcreate]
    rfl
  have hself : k₂.procTable i = child (k'.procTable i) := upd_self
  have hfield {β : Type} (h : Process → β) (hh : ∀ (p : Process) rsp fds,
      h { p with rsp := rsp, fds := fds } = h p) :
      h ((sysFork ctx cur k).2.procTable i) = h (child (k'.procTable i)) := by
    rw [hfork, schedAdd_procTable, pushFrame_field _ fun p rsp => hh p rsp p.fds,
      inheritFds_field 64 cur fun p fds => hh p p.rsp fds, hself]
  refine ⟨?_, (hfield Process.brkStart fun _ _ _ => rfl).trans hbrkStart⟩
  rw [hfield Process.brk fun _ _ _ => rfl, ← hpar]

end Record

/-! ## The lowest pages -/

/-- From `s` to `t` pages were taken, each time the lowest one that was free. -/
structure TakesLowest (s t : Pmm) : Prop where
  sub : ∀ y, t.Free y → s.Free y
  below : ∀ x, s.Free x → ¬ t.Free x → ∀ y, t.Free y → x < y

theorem TakesLowest.refl (s : Pmm) : TakesLowest s s := ⟨fun _ => id, fun _ h hn => absurd h hn⟩

theorem TakesLowest.trans {s t u : Pmm} (h : TakesLowest s t) (h' : TakesLowest t u) :
    TakesLowest s u := by
  refine ⟨fun y hy => h.sub y (h'.sub y hy), fun x hx hn y hy => ?_⟩
  by_cases ht : t.Free x
  · exact h'.below x ht hn y hy
  · exact h.below x hx ht y (h'.sub y hy)

section Lowest

variable {s : Phys}

theorem takesLowest_alloc (s : Phys) : TakesLowest s.pmm s.alloc.2.pmm := by
  unfold Phys.alloc
  rcases pmmAlloc_cases s.pmm with ⟨-, he⟩ | ⟨i, -, hlow, he⟩
  · rw [he]
    exact .refl _
  · rw [he]
    refine ⟨fun y hy => (Pmm.free_mark.mp hy).1, fun x hx hn y hy => ?_⟩
    obtain ⟨hfree, hyi⟩ := Pmm.free_mark.mp hy
    obtain rfl : x = i := by
      by_contra hxi
      exact hn (Pmm.free_mark.mpr ⟨hx, hxi⟩)
    exact lt_of_le_of_ne (Nat.le_of_not_lt fun hlt => hlow y hlt hfree) (Ne.symm hyi)

theorem takesLowest_getOrAlloc (table : U64) (i : Fin 512) (fl : U64) :
    TakesLowest s.pmm (getOrAlloc table i fl s).2.pmm := by
  have halloc := takesLowest_alloc s
  unfold getOrAlloc
  split
  · dsimp only
    split <;> exact halloc
  · exact .refl _

theorem takesLowest_vmmMap (pml4 virt phys flags : U64) :
    TakesLowest s.pmm (vmmMap pml4 virt phys flags s).pmm :=
  ((takesLowest_getOrAlloc _ _ _).trans (takesLowest_getOrAlloc _ _ _)).trans
    (takesLowest_getOrAlloc _ _ _)

theorem takesLowest_vmmNewPml4 (kernelPml4 : U64) :
    TakesLowest s.pmm (vmmNewPml4 kernelPml4 s).2.pmm := by
  have halloc := takesLowest_alloc s
  unfold vmmNewPml4
  dsimp only
  split
  · exact halloc
  · split
    · exact halloc
    · rw [(copyKernel_loop _ _ _).1]
      exact halloc

theorem takesLowest_cloneLeaf (dst srcPt : U64) (p4 p3 p2 p1 : Fin 512) {t : Phys}
    (h : TakesLowest s.pmm t.pmm) : Ends (fun _ => True) (fun u => TakesLowest s.pmm u.pmm)
      (cloneLeaf dst srcPt p4 p3 p2 p1 t) := by
  unfold cloneLeaf
  split
  · exact .ok h
  · dsimp only
    split
    · exact .error trivial
    · refine .ok (TakesLowest.trans ?_ (takesLowest_vmmMap _ _ _ _))
      exact h.trans (takesLowest_alloc t)

/-- The copy that `vmm_clone_pml4` returns consists of the lowest free pages. -/
theorem takesLowest_clone {kernelPml4 src pml4 : U64} {t : Phys}
    (h : vmmClonePml4 kernelPml4 src s = (pml4, t)) (hne : pml4 ≠ 0) : TakesLowest s.pmm t.pmm := by
  have hnew := takesLowest_vmmNewPml4 (s := s) kernelPml4
  have hloop : Ends (fun _ => True) (fun u : Phys => TakesLowest s.pmm u.pmm) (forUpToM 256
      (fun p4 u => clonePdpt (vmmNewPml4 kernelPml4 s).1 src (p4.castLE userEntries_le) u)
      (vmmNewPml4 kernelPml4 s).2) := forUpToM_ends hnew fun p4 u hu => by
      unfold clonePdpt
      split
      · exact .ok hu
      refine forUpToM_ends hu fun p3 u hu => ?_
      unfold clonePdt
      split
      · exact .ok hu
      refine forUpToM_ends hu fun p2 u hu => ?_
      unfold clonePt
      split
      · exact .ok hu
      exact forUpToM_ends hu fun p1 u hu => takesLowest_cloneLeaf _ _ _ _ _ _ hu
  unfold vmmClonePml4 at h
  dsimp only at h
  split at h
  · cases h
    exact absurd rfl hne
  · generalize forUpToM 256 _ _ = r at h hloop
    cases hloop with
    | ok hu =>
      cases h
      exact hu
    | error _ =>
      cases h
      exact absurd rfl hne

end Lowest

/-! ## A fork that succeeds -/

theorem attachPml4_some {i j : Fin maxProcs} {k : Kernel} (hv : k.phys.pmm.Valid)
    (h : (attachPml4 i k).1 = some j) : j = i ∧ 0 < k.phys.pmm.clearBits := by
  unfold attachPml4 at h
  dsimp only at h
  split at h
  · cases h
  · next hne =>
    cases h
    refine ⟨rfl, ?_⟩
    rcases vmmNewPml4_cases (s := k.phys.kmemsetPage (k.procTable i).kstack) hv k.kernelPml4 with
      ⟨-, he⟩ | ⟨f, hf, -, -⟩
    · exact absurd (congrArg Prod.fst he) hne
    · exact Pmm.clearBits_pos hf

theorem procCreate_some {i : Fin maxProcs} {k k' : Kernel} (hv : k.phys.pmm.Valid)
    (h : procCreate k = (some i, k')) : freeSlot k = some i ∧ 2 ≤ k.phys.pmm.clearBits := by
  unfold procCreate at h
  cases hslot : freeSlot k with
  | none =>
    rw [hslot] at h
    cases h
  | some j =>
    rw [hslot] at h
    dsimp only at h
    rw [claimSlot_phys] at h
    rcases Phys.alloc_cases hv with ⟨-, he⟩ | ⟨g, hg, -, hne, he⟩
    · rw [he, if_pos rfl] at h
      cases h
    · rw [he, if_neg hne] at h
      obtain ⟨rfl, hpos⟩ := attachPml4_some (hv.mark hg) (congrArg Prod.fst h)
      have hbits := Pmm.clearBits_mark hg
      have hpos : 0 < (k.phys.pmm.mark g).clearBits := hpos
      exact ⟨rfl, by omega⟩

theorem procCreate_no_page {k : Kernel} (h : k.phys.pmm.clearBits = 0) :
    (procCreate k).1 = none := by
  have halloc : k.phys.alloc.1 = 0 := by
    unfold Phys.alloc
    rcases pmmAlloc_cases k.phys.pmm with ⟨-, he⟩ | ⟨i, hf, -, -⟩
    · rw [he]
    · exact absurd (Pmm.clearBits_pos hf) (by omega)
  unfold procCreate
  split
  · rfl
  · dsimp only
    rw [claimSlot_phys, if_pos halloc]

theorem sysFork_nonneg {ctx : UserCtx} {cur : Fin maxProcs} {k : Kernel} {pml4 : U64} {t : Phys}
    (hclone : vmmClonePml4 k.kernelPml4 (k.procTable cur).pml4 k.phys = (pml4, t))
    (h : 0 ≤ (sysFork ctx cur k).1) :
    pml4 ≠ 0 ∧ ∃ i k', procCreate (k.withPhys t) = (some i, k') ∧
      (sysFork ctx cur k).1 = (((sysFork ctx cur k).2.procTable i).pid).toInt := by
  simp only [sysFork, hclone] at h ⊢
  split at h
  · exact absurd (show (0 : Int) ≤ -12 from h) (by decide)
  · next hne =>
    rw [if_neg hne]
    refine ⟨hne, ?_⟩
    rcases hcreate : procCreate (k.withPhys t) with ⟨_ | i, k'⟩
    · rw [hcreate] at h
      exact absurd (show (0 : Int) ≤ -12 from h) (by decide)
    · exact ⟨i, k', rfl, rfl⟩

/-- A fork that succeeded: the copy in page `c`, made of the pages `L`, the child's kernel stack in
page `g`, and the PML4 of `proc_create` in page `f`. -/
structure ForkMade (ctx : UserCtx) (cur i : Fin maxProcs) (c g f : Nat) (L : List Nat)
    (m m' : Machine) : Prop where
  made : ForkedIn ctx cur i c g f (copiedPhys cur m) m m'
  clone : Cloned m.kernel.kernelPml4 m.kernel.phys (pageOf (m.kernel.procTable cur).pml4) c
    (mappedPages m.kernel.phys.mem (pageOf (m.kernel.procTable cur).pml4)) L (copiedPhys cur m)
  copy_lt : c < 2 ^ 52
  lowest : TakesLowest m.kernel.phys.pmm (copiedPhys cur m).pmm
  heap : ChildHeap cur i m.kernel m'.kernel

section ForkMade

variable {ctx : UserCtx} {cur : Fin maxProcs} {roots : Set Nat} {m : Machine}

theorem fork_made (ht : Tables 4 roots m.kernel.phys)
    (hr : pageOf (m.kernel.procTable cur).pml4 ∈ roots) (hlive : m.state cur ≠ .unused)
    {pml4 : U64} {t : Phys} {i : Fin maxProcs} {k' : Kernel}
    (hclone : vmmClonePml4 m.kernel.kernelPml4 (m.kernel.procTable cur).pml4 m.kernel.phys = (pml4, t))
    (hne : pml4 ≠ 0) (hcreate : procCreate (m.kernel.withPhys t) = (some i, k')) :
    freeSlot m.kernel = some i ∧ (m.fork ctx cur).kernel = (sysFork ctx cur m.kernel).2 ∧
      ∃ c g f L, ForkMade ctx cur i c g f L m (m.fork ctx cur) := by
  have hsrc : ∀ x, Node childOf userIdx 4 m.kernel.phys.mem
      {pageOf (m.kernel.procTable cur).pml4} x → ¬ m.kernel.phys.pmm.Free x := fun x hx =>
    Pmm.not_free_of_used ((ht.root hr).used x hx)
  -- a copy that stopped early has left no page for `proc_create`
  obtain ⟨c, L, t', hclone', hc, hcl⟩ : ∃ c L t, vmmClonePml4 m.kernel.kernelPml4
      (m.kernel.procTable cur).pml4 m.kernel.phys = (pageAddr c, t) ∧ m.kernel.phys.pmm.Free c ∧
      Cloned m.kernel.kernelPml4 m.kernel.phys (pageOf (m.kernel.procTable cur).pml4) c
        (mappedPages m.kernel.phys.mem (pageOf (m.kernel.procTable cur).pml4)) L t := by
    refine (vmmClonePml4_cases (fun _ => mem_mappedPages) hsrc ht.valid rfl).resolve_right ?_
    rw [hclone]
    rintro ⟨-, h0 | h0⟩
    · exact hne h0
    · have h := procCreate_no_page (k := m.kernel.withPhys t) h0
      rw [hcreate] at h
      cases h
  obtain ⟨rfl, rfl⟩ := Prod.mk.inj (hclone.symm.trans hclone')
  have hcopied : copiedPhys cur m = t := congrArg Prod.snd hclone
  obtain ⟨hslot, hroom⟩ := procCreate_some (k := m.kernel.withPhys t) hcl.tables.valid hcreate
  have hslot : freeSlot m.kernel = some i := hslot
  have hci : cur ≠ i := fun e => hlive (e ▸ (freeSlot_some hslot).2)
  obtain ⟨g, f, hF⟩ := fork_eq hclone hne hslot hcl.tables.valid hroom ctx
  have hkernel : (m.fork ctx cur).kernel = (sysFork ctx cur m.kernel).2 := by
    simp only [Machine.fork, hclone, if_neg hne, hslot]
    rfl
  have hheap := sysFork_heap ctx hclone hne hslot hcreate hci
  rw [← hkernel] at hheap
  exact ⟨hslot, hkernel, c, g, f, L, hcopied ▸ hF, hcopied ▸ hcl, hc.lt,
    hcopied ▸ takesLowest_clone hclone hne, hheap⟩

theorem fork_success (ht : Tables 4 roots m.kernel.phys)
    (hr : pageOf (m.kernel.procTable cur).pml4 ∈ roots) (hlive : m.state cur ≠ .unused)
    (hok : 0 ≤ (sysFork ctx cur m.kernel).1) :
    ∃ i c g f L, freeSlot m.kernel = some i ∧
      (sysFork ctx cur m.kernel).1 = ((m.fork ctx cur).pid i).toInt ∧
      ForkMade ctx cur i c g f L m (m.fork ctx cur) := by
  obtain ⟨pml4, t, hclone⟩ : ∃ pml4 t, vmmClonePml4 m.kernel.kernelPml4
      (m.kernel.procTable cur).pml4 m.kernel.phys = (pml4, t) := ⟨_, _, rfl⟩
  obtain ⟨hne, i, k', hcreate, hpid⟩ := sysFork_nonneg hclone hok
  obtain ⟨hslot, hkernel, c, g, f, L, h⟩ := fork_made ht hr hlive hclone hne hcreate
  refine ⟨i, c, g, f, L, hslot, ?_, h⟩
  rw [hpid, ← hkernel]
  rfl

theorem sysFork_room {i : Fin maxProcs} (ht : Tables 4 roots m.kernel.phys)
    (hr : pageOf (m.kernel.procTable cur).pml4 ∈ roots)
    (hroom : cloneCost (mappedPages m.kernel.phys.mem (pageOf (m.kernel.procTable cur).pml4)) + 2 ≤
      m.kernel.phys.pmm.clearBits) (hslot : freeSlot m.kernel = some i) :
    (sysFork ctx cur m.kernel).1 = m.kernel.nextPid.toInt := by
  obtain ⟨c, t, hclone, hc, hgrow, -, -, -⟩ := grows_clone ht hr (by omega) m.kernel.kernelPml4
  have hc0 : pageAddr c ≠ 0 := fun h0 =>
    ht.valid.free_ne_zero hc ((pageAddr_eq_zero hc.lt).mp h0)
  have hbits := hgrow.bits
  obtain ⟨g, f, k', hcreate, -⟩ := procCreate_ok (k := m.kernel.withPhys t) hslot
    hgrow.tables.valid (by show 2 ≤ t.pmm.clearBits; omega)
  have hclaims := claims_of_procCreate hslot hcreate
  have hpid := (sysFork_claims ctx hclone hc0 hcreate hclaims).pid
  rw [← hpid]
  simp only [sysFork, hclone, if_neg hc0, hcreate]

variable {i : Fin maxProcs} {c g f : Nat} {L : List Nat} {m' : Machine}

namespace ForkMade

theorem takes (h : ForkMade ctx cur i c g f L m m') :
    m.kernel.phys.pmm.Takes (L ++ [g, f]) m'.kernel.phys.pmm := by
  rw [h.made.phys, pushWords_pmm]
  exact h.clone.takes.append (.cons h.made.free_stack (.single h.made.free_pml4))

theorem taken (h : ForkMade ctx cur i c g f L m m') (x : Nat) :
    (m.kernel.phys.pmm.Free x ∧ ¬ m'.kernel.phys.pmm.Free x) ↔ x ∈ L ∨ x = g ∨ x = f := by
  rw [h.takes.free_iff]
  have hfree := h.takes.free_of_mem x
  simp only [List.mem_append, List.mem_cons, List.not_mem_nil, or_false] at hfree ⊢
  tauto

theorem stack_not_mem (h : ForkMade ctx cur i c g f L m m') : g ∉ L ∧ f ∉ L := by
  have hnodup := List.disjoint_of_nodup_append h.takes.nodup
  exact ⟨fun hg => hnodup hg (List.mem_cons_self ..),
    fun hf => hnodup hf (List.mem_cons_of_mem g (List.mem_cons_self ..))⟩

theorem copy_ne (h : ForkMade ctx cur i c g f L m m') {x : Nat} (hx : x ∈ L) : x ≠ g ∧ x ≠ f :=
  ⟨fun e => h.stack_not_mem.1 (e ▸ hx), fun e => h.stack_not_mem.2 (e ▸ hx)⟩

theorem mem (h : ForkMade ctx cur i c g f L m m') {x : Nat} (hg : x ≠ g) (hf : x ≠ f)
    (hg' : x ≠ g + 1) : m'.kernel.phys.mem x = (copiedPhys cur m).mem x := by
  rw [h.made.phys, pushWords_stack (stack_lt h.made.free_stack) (by show 8 ≤ 512; decide) _ hg']
  unfold createdPhys
  dsimp only
  rw [update_of_ne hf, update_of_ne hg]

theorem mem_spaceOf (h : ForkMade ctx cur i c g f L m m') {x : Nat} :
    x ∈ spaceOf m'.kernel i ↔ Node childOf userIdx 4 m'.kernel.phys.mem {c} x := by
  rw [spaceOf, h.made.pml4, pageOf_pageAddr h.copy_lt]
  exact Iff.rfl

/-- The first frame of the child hits no page of the copy. -/
theorem space_iff (h : ForkMade ctx cur i c g f L m m') {x : Nat} :
    x ∈ spaceOf m'.kernel i ↔ x ∈ L := by
  rw [h.mem_spaceOf, ← h.clone.node x]
  refine Node.congr (fun y hy => ?_) (Nat.le_succ 4)
  have hyL := (h.clone.node y).mp hy
  obtain ⟨hg, hf⟩ := h.copy_ne hyL
  have hlt : y < g := h.lowest.below y (h.clone.takes.free_of_mem y hyL)
    (Pmm.not_free_of_used (h.clone.takes.used_of_mem y hyL)) g h.made.free_stack
  exact h.mem hg hf (by omega)

/-- The PML4 of `proc_create` is taken and belongs to nobody. -/
theorem lost (h : ForkMade ctx cur i c g f L m m') :
    (m.kernel.phys.pmm.Free f ∧ ¬ m'.kernel.phys.pmm.Free f) ∧ f ∉ spaceOf m'.kernel i ∧
      f ∉ stackOf m'.kernel i := by
  refine ⟨(h.taken f).mpr (.inr (.inr rfl)), fun hf => h.stack_not_mem.2 (h.space_iff.mp hf), ?_⟩
  rw [stackOf, h.made.kstack, pageOf_pageAddr h.made.free_stack.lt]
  exact (Pmm.free_mark.mp h.made.free_pml4).2

end ForkMade

/-- **No fork is faithful.** The child of a fork that succeeds is never a copy of its parent: the
page that `proc_create` took for its PML4 is reachable from nowhere. -/
theorem fork_never_faithful (ht : Tables 4 roots m.kernel.phys)
    (hr : pageOf (m.kernel.procTable cur).pml4 ∈ roots) (hlive : m.state cur ≠ .unused)
    (hok : 0 ≤ (sysFork ctx cur m.kernel).1) :
    ∃ i, freeSlot m.kernel = some i ∧
      (sysFork ctx cur m.kernel).1 = ((m.fork ctx cur).pid i).toInt ∧
      ¬ FaithfulCopy ctx cur i m (m.fork ctx cur) := by
  obtain ⟨i, c, g, f, L, hslot, hpid, h⟩ := fork_success ht hr hlive hok
  refine ⟨i, hslot, hpid, fun hc => ?_⟩
  obtain ⟨htaken, hspace, hstack⟩ := h.lost
  exact ((hc.pages f).mp htaken).elim hspace hstack

end ForkMade

/-- A process with its tables in page 2 and its heap at `brk`. -/
def heapProcess (brk : U64) : Process :=
  { Process.zero with pid := 1, state := .running, pml4 := 0x2000, brk := brk, brkStart := brk }

/-- This process with one page mapped. -/
def oneParent (brk : U64) : Machine :=
  { Machine.boot (fun _ => 0) bootKernel with
    kernel := { bootKernel with
      phys := oneMapped
      procTable := update (fun _ => Process.zero) 1 (heapProcess brk)
      currentProc := some 1
      nextPid := 2 } }

theorem oneMapped_tables : Tables 4 {2} oneMapped := by
  have hnew : SpaceStep 0x1000 ⟨sixteenPages, ∅⟩ _ := SpaceStep.new ⟨sixteenPages, ∅⟩ (by decide)
  have hlive : insert (pageOf (vmmNewPml4 0x1000 sixteenPages).1) (∅ : Set Nat) = {2} := by
    rw [insert_empty_eq]
    congr 1
  rw [hlive] at hnew
  have hmap : SpaceStep 0x1000 ⟨(vmmNewPml4 0x1000 sixteenPages).2, {2}⟩ _ :=
    SpaceStep.map _ 0x2000 0x400000 7 rfl (by decide) (by decide) (by decide +kernel)
  have h := tables_step (tables_step (tables_empty sixteenPages_valid) hnew) hmap
  have halloc : (vmmNewPml4 0x1000 sixteenPages).2.alloc.1 = 0x3000 := by decide
  dsimp only at h
  rw [halloc] at h
  exact h

theorem oneParent_proc (brk : U64) : (oneParent brk).kernel.procTable 1 = heapProcess brk := by
  simp only [oneParent, update_self]

theorem oneParent_root (brk : U64) :
    pageOf ((oneParent brk).kernel.procTable 1).pml4 ∈ ({2} : Set Nat) := by
  rw [oneParent_proc]
  show pageOf 0x2000 = 2
  rfl

theorem oneParent_live (brk : U64) : (oneParent brk).state 1 ≠ .unused := by
  show ((oneParent brk).kernel.procTable 1).state ≠ .unused
  rw [oneParent_proc]
  nofun

theorem oneParent_forks (ctx : UserCtx) (brk : U64) :
    0 ≤ (sysFork ctx 1 (oneParent brk).kernel).1 := by
  have hroom : cloneCost (mappedPages oneMapped.mem (pageOf 0x2000)) + 2 ≤
      oneMapped.pmm.clearBits := by
    rw [oneMapped_mapped]
    decide +kernel
  have hunused : (oneParent brk).kernel.procTable 2 = Process.zero := by
    have hne : (2 : Fin maxProcs) ≠ 1 := by decide
    simp only [oneParent, update_of_ne hne]
  obtain ⟨i, hslot⟩ : ∃ i, freeSlot (oneParent brk).kernel = some i :=
    freeSlot_isSome (i := 2) (by decide) (congrArg Process.state hunused)
  rw [sysFork_room (m := oneParent brk) oneMapped_tables (oneParent_root brk)
    (by rw [oneParent_proc]; exact hroom) hslot]
  show (0 : Int) ≤ (2 : BitVec 32).toInt
  decide

/-- A process that has neither a heap nor signals forks. -/
theorem fork_never_faithful_oneParent :
    let ctx : UserCtx := ⟨0x400010, 0x7000, 0x202, 0x100000⟩
    0 ≤ (sysFork ctx 1 (oneParent 0).kernel).1 ∧
      ∃ i, ¬ FaithfulCopy ctx 1 i (oneParent 0) ((oneParent 0).fork ctx 1) := by
  intro ctx
  have hok := oneParent_forks ctx 0
  obtain ⟨i, -, -, h⟩ := fork_never_faithful (m := oneParent 0) oneMapped_tables (oneParent_root 0)
    (oneParent_live 0) hok
  exact ⟨hok, i, h⟩

/-- **The child's `brk_start` and a page are lost.** A process with its heap at 0x401000 forks; the
child gets that `brk` with `brk_start` 0, and a page is used that is neither in its address space nor
its kernel stack. -/
theorem fork_loses_brk_start : ∃ i f, freeSlot (oneParent 0x401000).kernel = some i ∧
    let m' := (oneParent 0x401000).fork ⟨0x400010, 0x7000, 0x202, 0x100000⟩ 1
    (m'.kernel.procTable i).brk = 0x401000 ∧ (m'.kernel.procTable i).brkStart = 0 ∧
    (oneMapped.pmm.Free f ∧ ¬ m'.kernel.phys.pmm.Free f) ∧ f ∉ spaceOf m'.kernel i ∧
    f ∉ stackOf m'.kernel i := by
  obtain ⟨i, c, g, f, L, hslot, -, h⟩ := fork_success (m := oneParent 0x401000) oneMapped_tables
    (oneParent_root _) (oneParent_live _) (oneParent_forks ⟨0x400010, 0x7000, 0x202, 0x100000⟩ _)
  exact ⟨i, f, hslot, h.heap.brk.trans (congrArg Process.brk (oneParent_proc 0x401000)),
    h.heap.brkStart, h.lost⟩

end Sinux.Proc

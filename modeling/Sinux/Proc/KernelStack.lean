import Sinux.Proc.Process
import Sinux.Mm.PageTable

/-!
# Who owns a kernel stack

`proc_create` obtains one page for the kernel stack of a process, and every user of the stack counts
`KSTACK_SIZE` bytes, two pages, from `kstack`. A run carries the pages each process obtained for its
stack.

* `kernel_stacks_owned_iff`: the stacks of all processes are owned exactly when there is no process
  beside the kernel's own.
* `pushFrame_page`: the first frame of a process goes to the page after the one it obtained.
-/

namespace Sinux.Proc

open Function Sinux.Lib Sinux.Lib.Radix Sinux.Mm

/-! ## Runs -/

/-- The kernel, and for each slot the pages its process obtained for its kernel stack. -/
structure ProcSys where
  kernel : Kernel
  stackPages : Fin maxProcs → Set Nat

/-- The pages the `pmm_alloc()` for `kstack` takes when `proc_create` is called in `k`. -/
def obtained (k : Kernel) : Set Nat := {g | k.phys.pmm.Free g ∧ ¬ k.phys.alloc.2.pmm.Free g}

/-- The stack pages after `proc_create` in `k`; a call that fails keeps none. -/
def claimStack (k : Kernel) (st : Fin maxProcs → Set Nat) : Fin maxProcs → Set Nat :=
  match freeSlot k with
  | none => st
  | some i => update st i (if (procCreate k).1 = none then ∅ else obtained k)

/-- The kernel in which `sys_fork` calls `proc_create`. -/
def afterClone (parent : Fin maxProcs) (k : Kernel) : Kernel :=
  k.withPhys (vmmClonePml4 k.kernelPml4 (k.procTable parent).pml4 k.phys).2

/-- The steps of a run: process creation, `sys_fork`, `proc_spawn_init`, `proc_exit`, a round of
`sys_wait4`, and what else the kernel does, which creates, reaps and moves no process. -/
inductive ProcStep : ProcSys → ProcSys → Prop
  | create (s : ProcSys) :
      ProcStep s ⟨(procCreate s.kernel).2, claimStack s.kernel s.stackPages⟩
  | fork (s : ProcSys) (ctx : UserCtx) (parent : Fin maxProcs)
      (hp : s.kernel.currentProc = some parent) :
      ProcStep s ⟨(sysFork ctx parent s.kernel).2,
        if (vmmClonePml4 s.kernel.kernelPml4 (s.kernel.procTable parent).pml4 s.kernel.phys).1 = 0
        then s.stackPages else claimStack (afterClone parent s.kernel) s.stackPages⟩
  | spawn (s : ProcSys) (ld : Loader) (stub : U64) (r : Int × Kernel)
      (he : procSpawnInit ld stub s.kernel = some r) :
      ProcStep s ⟨r.2, if (ld.fetch s.kernel.phys).1.isSome then s.stackPages
        else claimStack (s.kernel.withPhys (ld.fetch s.kernel.phys).2) s.stackPages⟩
  | exit (s : ProcSys) (i : Fin maxProcs) (code : BitVec 32) :
      ProcStep s ⟨procExit i code s.kernel, s.stackPages⟩
  | wait4 (s : ProcSys) (cur : Fin maxProcs) (pid : BitVec 32)
      (hp : s.kernel.currentProc = some cur) :
      ProcStep s ⟨(wait4Round cur pid s.kernel).2, s.stackPages⟩
  | other (s : ProcSys) (k' : Kernel)
      (hk : ∀ i, (k'.procTable i).kstack = (s.kernel.procTable i).kstack ∧
        ((k'.procTable i).state = .unused ↔ (s.kernel.procTable i).state = .unused)) :
      ProcStep s ⟨k', s.stackPages⟩

/-- The states of the runs from `proc_init`. -/
def ProcReach (tty : Fin 64 → U64) (k0 : Kernel) : ProcSys → Prop :=
  Relation.ReflTransGen ProcStep ⟨procInit tty k0, fun _ => ∅⟩

/-! ## Ownership -/

/-- Slot `i` holds a process with a kernel stack of its own: any but the kernel's in slot 0. -/
def InUse (k : Kernel) (i : Fin maxProcs) : Prop := i ≠ 0 ∧ (k.procTable i).state ≠ .unused

/-- Page `g` has a byte of the kernel stack `[kstack, kstack + KSTACK_SIZE)` of slot `i`. -/
def StackPage (k : Kernel) (i : Fin maxProcs) (g : Nat) : Prop :=
  Overlaps (k.procTable i).kstack kstackSize g

/-- Page `g` is the PML4 of a process, one of its tables or one of its frames. -/
def SpacePage (k : Kernel) (g : Nat) : Prop :=
  ∃ j, (k.procTable j).state ≠ .unused ∧ (k.procTable j).pml4 ≠ 0 ∧
    Node childOf userIdx 4 k.phys.mem {pageOf (k.procTable j).pml4} g

/-- Every kernel stack lies in pages obtained for it, apart from the other stacks and from every
address space. -/
structure StacksOwned (s : ProcSys) : Prop where
  owned : ∀ i, InUse s.kernel i → ∀ g, StackPage s.kernel i g → g ∈ s.stackPages i
  apart : ∀ i j, InUse s.kernel i → InUse s.kernel j → i ≠ j →
    ∀ g, StackPage s.kernel i g → ¬ StackPage s.kernel j g
  spaces : ∀ i, InUse s.kernel i → ∀ g, StackPage s.kernel i g → ¬ SpacePage s.kernel g

/-! ## What the steps do to `kstack` -/

section Kstack

variable {k : Kernel} {i j : Fin maxProcs}

theorem upd_kstack {f : Process → Process} (hf : ∀ p, (f p).kstack = p.kstack) :
    ((k.upd i f).procTable j).kstack = (k.procTable j).kstack :=
  upd_field hf

theorem inheritFds_kstack (n : Nat) (q : Fin maxProcs) :
    ((inheritFds n i q k).procTable j).kstack = (k.procTable j).kstack :=
  inheritFds_field n q fun _ _ => rfl

theorem pushFrame_kstack (frame : List U64) :
    ((pushFrame i frame k).procTable j).kstack = (k.procTable j).kstack :=
  pushFrame_field frame fun _ _ => rfl

theorem attachPml4_field {β : Type*} {g : Process → β} (hg : ∀ (p : Process) rsp pml4 cwd fds,
    g { p with rsp := rsp, pml4 := pml4, cwd := cwd, fds := fds } = g p) :
    g ((attachPml4 i k).2.procTable j) = g (k.procTable j) := by
  have hrsp (p : Process) rsp : g { p with rsp := rsp } = g p := hg p rsp p.pml4 p.cwd p.fds
  have hpml4 (p : Process) pml4 : g { p with pml4 := pml4 } = g p := hg p p.rsp pml4 p.cwd p.fds
  have hend (p : Process) cwd fds : g { p with cwd := cwd, fds := fds } = g p :=
    hg p p.rsp p.pml4 cwd fds
  unfold attachPml4
  dsimp only
  split
  · rw [withPhys_procTable, upd_field fun p => hpml4 p _, withPhys_procTable,
      upd_field fun p => hrsp p _, withPhys_procTable]
  · rw [upd_field fun p => hend p _ _, upd_field fun p => hpml4 p _, withPhys_procTable,
      upd_field fun p => hrsp p _, withPhys_procTable]

theorem attachPml4_kstack :
    ((attachPml4 i k).2.procTable j).kstack = (k.procTable j).kstack :=
  attachPml4_field fun _ _ _ _ _ => rfl

theorem claimSlot_kstack (h : j ≠ i) :
    ((claimSlot i k).procTable j).kstack = (k.procTable j).kstack := by
  unfold claimSlot
  dsimp only
  rw [upd_of_ne h]
  dsimp only
  rw [upd_of_ne h]

theorem claimSlot_phys : (claimSlot i k).phys = k.phys := rfl

/-- **`proc_create`** sets the `kstack` of the slot it claims to what `pmm_alloc` returns, and no
other. -/
theorem procCreate_kstack (k : Kernel) :
    (freeSlot k = none ∧ procCreate k = (none, k)) ∨ ∃ i, freeSlot k = some i ∧
      ((procCreate k).2.procTable i).kstack = k.phys.alloc.1 ∧
      ∀ j, j ≠ i → ((procCreate k).2.procTable j).kstack = (k.procTable j).kstack := by
  unfold procCreate
  cases hs : freeSlot k with
  | none => exact Or.inl ⟨rfl, rfl⟩
  | some i =>
    refine Or.inr ⟨i, rfl, ?_, fun j hj => ?_⟩
    · dsimp only
      rw [claimSlot_phys]
      split
      · rw [upd_self]
      · rw [attachPml4_kstack, upd_self]
    · dsimp only
      split
      · rw [upd_of_ne hj, withPhys_procTable, claimSlot_kstack hj]
      · rw [attachPml4_kstack, upd_of_ne hj, withPhys_procTable, claimSlot_kstack hj]

theorem sysFork_kstack (ctx : UserCtx) (parent : Fin maxProcs) (k : Kernel) (j : Fin maxProcs) :
    ((sysFork ctx parent k).2.procTable j).kstack =
      if (vmmClonePml4 k.kernelPml4 (k.procTable parent).pml4 k.phys).1 = 0
      then (k.procTable j).kstack
      else ((procCreate (afterClone parent k)).2.procTable j).kstack := by
  unfold sysFork
  dsimp only
  split
  · rfl
  · change _ = ((procCreate (k.withPhys _)).2.procTable j).kstack
    split
    · next he =>
      rw [he]
      rfl
    · next he =>
      rw [he]
      dsimp only
      rw [schedAdd_procTable, pushFrame_kstack, inheritFds_kstack, upd_kstack (by intro p; rfl)]

theorem procExit_kstack (code : BitVec 32) :
    ((procExit i code k).procTable j).kstack = (k.procTable j).kstack := by
  unfold procExit
  dsimp only
  split
  · rw [upd_kstack (by intro p; rfl), withPhys_procTable, upd_kstack (by intro p; rfl)]
  · rw [upd_kstack (by intro p; rfl)]

theorem wait4Round_kstack (cur : Fin maxProcs) (pid : BitVec 32) :
    ((wait4Round cur pid k).2.procTable j).kstack = (k.procTable j).kstack := by
  unfold wait4Round
  split
  · rfl
  · split
    · dsimp only
      rw [upd_kstack (by intro p; rfl)]
    · dsimp only
      rw [upd_kstack (by intro p; rfl)]

theorem startInit_kstack {ld : Loader} {stub : U64} {info : ElfInfo} {r : Int × Kernel}
    (h : startInit ld stub i info k = some r) :
    (r.2.procTable j).kstack = (k.procTable j).kstack := by
  unfold startInit at h
  dsimp only at h
  obtain ⟨kp, _, he⟩ := Option.bind_eq_some_iff.mp h
  obtain rfl := (Option.some.inj he)
  dsimp only
  rw [schedAdd_procTable, pushFrame_kstack, inheritFds_kstack, withPhys_procTable,
    upd_kstack (by intro p; rfl)]

theorem procSpawnInit_kstack {ld : Loader} {stub : U64} {r : Int × Kernel}
    (h : procSpawnInit ld stub k = some r) (j : Fin maxProcs) :
    (r.2.procTable j).kstack =
      if (ld.fetch k.phys).1.isSome then (k.procTable j).kstack
      else ((procCreate (k.withPhys (ld.fetch k.phys).2)).2.procTable j).kstack := by
  unfold procSpawnInit at h
  split at h
  · next e s he =>
    obtain rfl := Option.some.inj h
    rw [he]
    rfl
  · next s he =>
    rw [he]
    dsimp only
    rw [if_neg (by decide)]
    split at h
    · next k' hc =>
      obtain rfl := Option.some.inj h
      rw [hc]
      rfl
    · next i k' hc =>
      rw [hc]
      dsimp only at h ⊢
      split at h
      · rw [startInit_kstack h, withPhys_procTable, withPhys_procTable]
      · obtain rfl := Option.some.inj h
        dsimp only
        rw [upd_kstack (by intro p; rfl), withPhys_procTable, withPhys_procTable]

end Kstack

/-! ## The invariant -/

/-- A process obtained at most the page its `kstack` points to. -/
structure StackInv (s : ProcSys) : Prop where
  aligned : ∀ i, Aligned (s.kernel.procTable i).kstack
  single : ∀ i, ∀ g ∈ s.stackPages i, g = pageOf (s.kernel.procTable i).kstack

theorem aligned_zero : Aligned 0 := by
  unfold Aligned
  rfl

theorem alloc_aligned (s : Phys) : Aligned s.alloc.1 := by
  unfold Phys.alloc
  rcases pmmAlloc_cases s.pmm with ⟨_, he⟩ | ⟨i, hf, _, he⟩
  · rw [he]
    exact aligned_zero
  · rw [he]
    exact aligned_pageAddr hf.lt

theorem obtained_eq {k : Kernel} {g : Nat} (hg : g ∈ obtained k) : g = pageOf k.phys.alloc.1 := by
  obtain ⟨hf, hn⟩ := hg
  revert hn
  unfold Phys.alloc
  rcases pmmAlloc_cases k.phys.pmm with ⟨_, he⟩ | ⟨i, hi, _, he⟩
  · rw [he]
    exact fun hn => absurd hf hn
  · rw [he]
    intro hn
    rw [pageOf_pageAddr hi.lt]
    by_contra hne
    exact hn (Pmm.free_mark.mpr ⟨hf, hne⟩)

theorem stackInv_create {k : Kernel} {st : Fin maxProcs → Set Nat} (h : StackInv ⟨k, st⟩) :
    StackInv ⟨(procCreate k).2, claimStack k st⟩ := by
  unfold claimStack
  rcases procCreate_kstack k with ⟨hs, he⟩ | ⟨i, hs, hi, hother⟩
  · rw [hs, he]
    exact h
  · rw [hs]
    refine ⟨fun j => ?_, fun j g hg => ?_⟩
    · dsimp only
      by_cases hj : j = i
      · rw [hj, hi]
        exact alloc_aligned _
      · rw [hother j hj]
        exact h.aligned j
    · dsimp only at hg ⊢
      by_cases hj : j = i
      · subst hj
        rw [update_self] at hg
        rw [hi]
        split at hg
        · exact absurd hg (Set.notMem_empty g)
        · exact obtained_eq hg
      · rw [update_of_ne hj] at hg
        rw [hother j hj]
        exact h.single j g hg

theorem StackInv.congr {k k' : Kernel} {st : Fin maxProcs → Set Nat} (h : StackInv ⟨k, st⟩)
    (hk : ∀ j, (k'.procTable j).kstack = (k.procTable j).kstack) : StackInv ⟨k', st⟩ := by
  refine ⟨fun j => ?_, fun j g hg => ?_⟩
  · rw [hk j]
    exact h.aligned j
  · rw [hk j]
    exact h.single j g hg

theorem stackInv_step {s t : ProcSys} (h : StackInv s) (hst : ProcStep s t) : StackInv t := by
  cases hst with
  | create => exact stackInv_create h
  | fork ctx parent _ =>
    have hk := sysFork_kstack ctx parent s.kernel
    split
    · next h0 => exact h.congr fun j => (hk j).trans (if_pos h0)
    · next h0 =>
      have hc : StackInv ⟨afterClone parent s.kernel, s.stackPages⟩ := h.congr fun _ => rfl
      exact (stackInv_create hc).congr fun j => (hk j).trans (if_neg h0)
  | spawn ld stub r he =>
    have hk := procSpawnInit_kstack he
    split
    · next h0 => exact h.congr fun j => (hk j).trans (if_pos h0)
    · next h0 =>
      have hc : StackInv ⟨s.kernel.withPhys (ld.fetch s.kernel.phys).2, s.stackPages⟩ :=
        h.congr fun _ => rfl
      exact (stackInv_create hc).congr fun j => (hk j).trans (if_neg h0)
  | exit i code => exact h.congr fun _ => procExit_kstack code
  | wait4 cur pid _ => exact h.congr fun _ => wait4Round_kstack cur pid
  | other k' hk => exact h.congr fun j => (hk j).1

theorem stackInv_of_reach {tty : Fin 64 → U64} {k0 : Kernel} {s : ProcSys}
    (hr : ProcReach tty k0 s) : StackInv s := by
  induction hr with
  | refl =>
    refine ⟨fun i => ?_, fun i g hg => absurd hg (Set.notMem_empty g)⟩
    have h0 : ((procInit tty k0).procTable i).kstack = 0 := by
      unfold procInit
      dsimp only
      by_cases hi : i = 0
      · rw [hi, update_self]
        rfl
      · rw [update_of_ne hi]
        rfl
    dsimp only
    rw [h0]
    exact aligned_zero
  | tail _ hst ih => exact stackInv_step ih hst

/-! ## The results -/

theorem stackPage_succ (k : Kernel) (i : Fin maxProcs) :
    StackPage k i (pageOf (k.procTable i).kstack + 1) := by
  unfold StackPage Overlaps pageOf
  rw [show kstackSize.toNat = 8192 from rfl]
  omega

/-- **Kernel stacks are owned exactly when there is none.** In every state of a run, a process has
obtained one page for a stack of two, so ownership fails for every process there is. -/
theorem kernel_stacks_owned_iff {tty : Fin 64 → U64} {k0 : Kernel} {s : ProcSys}
    (hr : ProcReach tty k0 s) : StacksOwned s ↔ ∀ i, ¬ InUse s.kernel i := by
  have inv := stackInv_of_reach hr
  constructor
  · intro h i hi
    have hmem := h.owned i hi _ (stackPage_succ s.kernel i)
    exact absurd (inv.single i _ hmem) (Nat.succ_ne_self _)
  · intro h
    exact ⟨fun i hi => absurd hi (h i), fun i _ hi => absurd hi (h i), fun i hi => absurd hi (h i)⟩

theorem pushWords_spec {f : Nat} (hf : f < 2 ^ 52) (ws : List U64) {n : Nat} (hn : n ≤ 512)
    (hlen : ws.length ≤ n) {sp : U64} (hsp : sp.toNat = f * 4096 + 8 * n) (s : Phys) :
    (∀ g, g ≠ f → (pushWords sp ws s).2.mem g = s.mem g) ∧
      (∀ j : Fin 512, n ≤ j.val → (pushWords sp ws s).2.mem f j = s.mem f j) ∧
      ∀ j (hj : j < ws.length),
        (pushWords sp ws s).2.mem f ⟨n - 1 - j, by omega⟩ = ws.get ⟨j, hj⟩ := by
  induction ws generalizing n sp s with
  | nil => exact ⟨fun _ _ => rfl, fun _ _ => rfl, fun j hj => absurd hj (Nat.not_lt_zero j)⟩
  | cons w ws ih =>
    rw [List.length_cons] at hlen
    have hsp' : (sp - 8).toNat = f * 4096 + 8 * (n - 1) := by
      rw [BitVec.toNat_sub_of_le (by rw [BitVec.le_def, hsp]; show 8 ≤ _; omega), hsp]
      show _ - 8 = _
      omega
    have hpage : pageOf (sp - 8) = f := by
      unfold pageOf
      omega
    have hidx : (sp - 8).toNat % 4096 / 8 = n - 1 := by omega
    obtain ⟨h1, h2, h3⟩ := ih (n := n - 1) (by omega) (by omega) hsp'
      (s.setEntry (sp - 8) ⟨(sp - 8).toNat % 4096 / 8, by omega⟩ w)
    have hstore : ∀ g (j : Fin 512), ¬ (g = f ∧ j.val = n - 1) →
        (s.setEntry (sp - 8) ⟨(sp - 8).toNat % 4096 / 8, by omega⟩ w).mem g j = s.mem g j :=
      fun g j hgj => store_ne fun he => hgj ⟨he.1.trans hpage, by rw [he.2]; exact hidx⟩
    refine ⟨fun g hg => ?_, fun j hj => ?_, fun j hj => ?_⟩
    · refine (h1 g hg).trans (funext fun j => hstore g j fun h => hg h.1)
    · refine (h2 j (by omega)).trans (hstore f j fun h => ?_)
      omega
    · cases j with
      | zero =>
        refine (h2 ⟨n - 1, by omega⟩ (le_refl _)).trans ?_
        exact if_pos ⟨hpage.symm, Fin.ext hidx.symm⟩
      | succ j =>
        have hj' : j < ws.length := Nat.lt_of_succ_lt_succ hj
        have heq : n - 1 - (j + 1) = n - 1 - 1 - j := by omega
        refine Eq.trans ?_ (h3 j hj')
        exact congrArg _ (Fin.ext heq)

/-- **The first frame of a process** fills the last eight words of the page after the one obtained
for its stack, and writes nothing else. -/
theorem pushFrame_page {k : Kernel} {i : Fin maxProcs} (hal : Aligned (k.procTable i).kstack)
    (hlt : pageOf (k.procTable i).kstack + 2 < 2 ^ 52) (stub r12 r13 r14 : U64) :
    (∀ g, g ≠ pageOf (k.procTable i).kstack + 1 →
      (pushFrame i (switchFrame stub r12 r13 r14) k).phys.mem g = k.phys.mem g) ∧
      ∀ j (hj : j < 8), (pushFrame i (switchFrame stub r12 r13 r14) k).phys.mem
        (pageOf (k.procTable i).kstack + 1) ⟨511 - j, by omega⟩ =
          (switchFrame stub r12 r13 r14).get ⟨j, hj⟩ := by
  have hsp : ((k.procTable i).kstack + kstackSize).toNat =
      (pageOf (k.procTable i).kstack + 1) * 4096 + 8 * 512 := by
    rw [BitVec.toNat_add, hal.toNat, show kstackSize.toNat = 8192 from rfl]
    omega
  obtain ⟨h1, _, h3⟩ := pushWords_spec (by omega) (switchFrame stub r12 r13 r14) (le_refl 512)
    (show 8 ≤ 512 by decide) hsp k.phys
  exact ⟨h1, h3⟩

/-- A kernel with sixteen pages and its PML4 in page 1. -/
def bootKernel : Kernel :=
  ⟨sixteenPages, 0x1000, fun _ => Process.zero, none, 1, fun _ => 0, ⟨fun _ => none, 0, 0, 0⟩⟩

theorem bootKernel_room : 2 ≤ bootKernel.phys.pmm.clearBits := by decide

/-- The kernel after the first `proc_create`. -/
def oneProcess : ProcSys :=
  ⟨(procCreate (procInit (fun _ => 0) bootKernel)).2,
    claimStack (procInit (fun _ => 0) bootKernel) fun _ => ∅⟩

/-- After the first `proc_create` slot 1 is in use, so the stacks are not owned. -/
theorem kernel_stacks_owned_iff_oneProcess :
    InUse oneProcess.kernel 1 ∧ ¬ StacksOwned oneProcess := by
  have hreach : ProcReach (fun _ => 0) bootKernel oneProcess :=
    Relation.ReflTransGen.single (ProcStep.create _)
  have hs : (oneProcess.kernel.procTable 1).state = .ready := by decide
  have hu : InUse oneProcess.kernel 1 := ⟨by decide, by rw [hs]; decide⟩
  exact ⟨hu, fun h => (kernel_stacks_owned_iff hreach).mp h 1 hu⟩

/-- **A stack over a PML4.** After one `proc_create` the process has its stack in page 2 and its
PML4 in page 3. The stack reaches into page 3, and the first frame overwrites the PML4's entry
511. -/
theorem kernel_stack_over_pml4 :
    ProcReach (fun _ => 0) bootKernel oneProcess ∧ InUse oneProcess.kernel 1 ∧
      (oneProcess.kernel.procTable 1).kstack = 0x2000 ∧
      (oneProcess.kernel.procTable 1).pml4 = 0x3000 ∧
      StackPage oneProcess.kernel 1 3 ∧ SpacePage oneProcess.kernel 3 ∧
      (pushFrame 1 (switchFrame 0x100000 0 0 0x202) oneProcess.kernel).phys.mem 3 511 = 0x100000 ∧
      ¬ StacksOwned oneProcess := by
  have hk : (oneProcess.kernel.procTable 1).kstack = 0x2000 := by decide
  have hp : (oneProcess.kernel.procTable 1).pml4 = 0x3000 := by decide
  have hs : (oneProcess.kernel.procTable 1).state = .ready := by decide
  have hu : InUse oneProcess.kernel 1 := ⟨by decide, by rw [hs]; decide⟩
  have hstack : StackPage oneProcess.kernel 1 3 := by
    have := stackPage_succ oneProcess.kernel 1
    rwa [hk] at this
  have hspace : SpacePage oneProcess.kernel 3 := by
    refine ⟨1, hu.2, by rw [hp]; decide, Node.root ?_⟩
    rw [hp]
    rfl
  refine ⟨Relation.ReflTransGen.single (ProcStep.create _), hu, hk, hp, hstack, hspace, ?_,
    fun h => h.spaces 1 hu 3 hstack hspace⟩
  have hal : Aligned (oneProcess.kernel.procTable 1).kstack := by
    rw [hk]
    exact aligned_pageAddr (f := 2) (by decide)
  have hframe := (pushFrame_page hal (by rw [hk]; decide) 0x100000 0 0 0x202).2 0 (by decide)
  rw [show pageOf (oneProcess.kernel.procTable 1).kstack + 1 = 3 by rw [hk]; rfl] at hframe
  exact hframe

end Sinux.Proc

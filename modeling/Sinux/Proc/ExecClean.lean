import Sinux.Lib.Allocator
import Sinux.Mm.Destroy
import Sinux.Proc.ElfBytes
import Sinux.Proc.UserStack

/-!
# `SYS_EXECVE`: failing cleanly, replacing completely

`execve` follows the system call over memory, the kernel heap and the process, with the ELF loader of
`Proc.Elf`. The heap conserves memory and refuses any requests (`fails`). A component of the path that
procfs or ext2 looks up costs two blocks, which nobody frees. `usermode_exec` does not return, so the
destruction of the old address space and the release of the copies behind it are never reached.

Everything that decides how a call ends is a function of what it finds: the requests that are refused,
the file, and the number of free pages.

- `execve_opening`: the call fails before it loads anything, or comes to `vmm_new_pml4` with a file.
- `run_calls`: loading maps the pages in order, as far as memory lasts.
- `destroy_restores_iff`: after a file was rejected, every page is free again if and only if no page
  was mapped twice.
- `execve_clean`: when `SYS_EXECVE` is clean.

Out of scope: what `build_user_stack` writes to the new stack (`Proc.UserStack` has it). It changes
neither the tables nor what is free.
-/

namespace Sinux.Proc

open Function Sinux.Lib Sinux.Lib.Radix Sinux.Mm Sinux.Fs

/-! ## The system call -/

/-- `p->pml4`, `p->brk_start` and `p->brk` assigned. -/
def Process.replace (pml4 brk : U64) (p : Process) : Process :=
  { p with pml4 := pml4, brkStart := brk, brk := brk }

/-- What `SYS_EXECVE` finds. -/
structure ExecEnv where
  kernelPml4 : U64
  /-- The requests that `kmalloc` refuses. -/
  fails : Nat → Bool
  /-- How many components of the path are looked up in procfs or ext2. -/
  steps : Nat
  /-- The file at the path: what `vfs_read` leaves in the buffer, and `inode->size`. -/
  file : Option (Image × U64)

structure ExecState where
  phys : Phys
  heap : Allocator
  /-- `proc_current()`. -/
  proc : Process

inductive ExecResult where
  | error (e : Int)
  /-- `_enter_usermode`. -/
  | entered (entry : U64)
  deriving DecidableEq

/-- Where the call ends, and what was obtained on the way. -/
structure ExecOutcome where
  result : ExecResult
  state : ExecState
  /-- The copies of the strings of `argv` and `envp`. -/
  copies : List Nat
  /-- The inodes made by the lookup, and their private data. -/
  inodes : List Nat

/-- `make_proc_inode`, or the end of `ext2_lookup`, for each component. -/
def lookupSteps (fails : Nat → Bool) : Nat → Allocator → (List Nat × Bool) × Allocator
  | 0, h => (([], true), h)
  | n + 1, h =>
    let (ino, h) := h.alloc fails
    let (priv, h) := h.alloc fails
    if ino.isSome ∧ priv.isSome then
      let ((bs, found), h) := lookupSteps fails n h
      ((ino.toList ++ priv.toList ++ bs, found), h)
    else ((ino.toList ++ priv.toList, false), h)

/-- `vfs_open(path, O_RDONLY)`: the inodes, and the `file_t` with its file. -/
def execOpen (env : ExecEnv) (h : Allocator) :
    (List Nat × Option (Nat × Image × U64)) × Allocator :=
  let ((inodes, found), h) := lookupSteps env.fails env.steps h
  match env.file with
  | none => ((inodes, none), h)
  | some file =>
    if found then
      let (f, h) := h.alloc env.fails
      ((inodes, f.map fun f => (f, file)), h)
    else ((inodes, none), h)

/-- The strings of a vector that are copied; `none` is `NULL`. -/
def execStrings (v : Option (List Str)) : List Str := (v.getD []).take execMaxArgs

/-- From `vmm_new_pml4` on. -/
def execLoad (env : ExecEnv) (file : Image × U64) (buf : Nat) (kargv kenvp inodes : List Nat)
    (st : ExecState) : ExecOutcome :=
  let copies := kargv ++ kenvp
  let (newPml4, s) := vmmNewPml4 env.kernelPml4 st.phys
  if newPml4 = 0 then
    let heap := ((st.heap.free buf).freeAll kargv).freeAll kenvp
    ⟨.error (-12), ⟨s, heap, st.proc⟩, copies, inodes⟩
  else
    let (info, ld) := elfLoad newPml4 file.1 file.2 s
    let heap := st.heap.free buf
    if info.valid then
      let brk := (info.loadEnd + 4096 - 1) &&& ~~~4095
      -- `usermode_exec`; what comes behind it is never reached
      ⟨.entered info.entry, ⟨usermodeMapStack newPml4 ld.phys, heap, st.proc.replace newPml4 brk⟩,
        copies, inodes⟩
    else
      ⟨.error (-22), ⟨vmmDestroyPml4 newPml4 ld.phys, (heap.freeAll kargv).freeAll kenvp, st.proc⟩,
        copies, inodes⟩

/-- From `vfs_open` on. -/
def execFile (env : ExecEnv) (kargv kenvp : List Nat) (st : ExecState) : ExecOutcome :=
  let copies := kargv ++ kenvp
  let ((inodes, f), h) := execOpen env st.heap
  match f with
  | none => ⟨.error (-2), { st with heap := (h.freeAll kargv).freeAll kenvp }, copies, inodes⟩
  | some (f, file) =>
    let (buf, h) := h.alloc env.fails
    match buf with
    | none =>
      ⟨.error (-12), { st with heap := ((h.free f).freeAll kargv).freeAll kenvp }, copies, inodes⟩
    | some buf => execLoad env file buf kargv kenvp inodes { st with heap := h.free f }

/-- `SYS_EXECVE`. -/
def execve (env : ExecEnv) (argv envp : Option (List Str)) (st : ExecState) : ExecOutcome :=
  let ((kargv, ok), h) := st.heap.allocMany env.fails (execStrings argv).length
  if ok then
    let ((kenvp, ok), h) := h.allocMany env.fails (execStrings envp).length
    if ok then execFile env kargv kenvp { st with heap := h }
    else ⟨.error (-12), { st with heap := (h.freeAll kenvp).freeAll kargv }, kargv ++ kenvp, []⟩
  else ⟨.error (-12), { st with heap := h.freeAll kargv }, kargv, []⟩

/-! ## What decides how it ends -/

/-- The strings that are copied. -/
def execCopies (argv envp : Option (List Str)) : Nat :=
  (execStrings argv).length + (execStrings envp).length

/-- All requests are granted: the strings, the inodes, the `file_t` and the buffer. -/
def ExecGrants (env : ExecEnv) (argv envp : Option (List Str)) (st : ExecState) : Prop :=
  Allocator.Grants env.fails st.heap.next (execCopies argv envp + 2 * env.steps + 2)

/-- No inode is made for the path. -/
def NoInodes (env : ExecEnv) (argv envp : Option (List Str)) (st : ExecState) : Prop :=
  Allocator.Grants env.fails st.heap.next (execCopies argv envp) → env.steps = 0 ∨
    env.fails (st.heap.next + execCopies argv envp) = true ∧
      env.fails (st.heap.next + execCopies argv envp + 1) = true

/-- **The first part of a call**: it ends with an error, or `vmm_new_pml4` is called for `file`. -/
inductive Opening (env : ExecEnv) (argv envp : Option (List Str)) (st : ExecState)
    (o : ExecOutcome) : Prop where
  | fails (e : Int) (hno : ExecGrants env argv envp st → env.file = none)
      (hresult : o.result = .error e) (hphys : o.state.phys = st.phys)
      (hproc : o.state.proc = st.proc) (hinodes : o.inodes = [] ↔ NoInodes env argv envp st)
      (hheap : st.heap.Extends o.state.heap o.inodes)
  | loads (file : Image × U64) (buf : Nat) (kargv kenvp inodes : List Nat) (h : Allocator)
      (hfile : env.file = some file) (hgrants : ExecGrants env argv envp st)
      (hcopies : kargv.length + kenvp.length = execCopies argv envp)
      (hinodes : inodes = [] ↔ NoInodes env argv envp st)
      (hheap : st.heap.Extends h (kargv + kenvp + inodes + [buf] : Multiset Nat))
      (ho : o = execLoad env file buf kargv kenvp inodes { st with heap := h })

section

variable {env : ExecEnv} {st : ExecState} {argv envp : Option (List Str)}

theorem extends_lookupSteps (fails : Nat → Bool) (n : Nat) (h : Allocator) :
    h.Extends (lookupSteps fails n h).2 ((lookupSteps fails n h).1.1 : Multiset Nat) := by
  induction n generalizing h with
  | zero => exact .refl h
  | succ n ih =>
    have h₁ := Allocator.extends_alloc fails h
    have h₂ := h₁.trans (Allocator.extends_alloc fails (h.alloc fails).2)
    rw [lookupSteps]
    dsimp only
    split_ifs with hok
    · exact h₂.trans (ih _)
    · exact h₂

/-- When the whole path is found, and when nothing is left of the attempt. -/
theorem lookupSteps_granted (fails : Nat → Bool) (n : Nat) (h : Allocator) :
    ((lookupSteps fails n h).1.2 = true ↔ Allocator.Grants fails h.next (2 * n)) ∧
      ((lookupSteps fails n h).1.2 = true → (lookupSteps fails n h).2.next = h.next + 2 * n) ∧
      ((lookupSteps fails n h).1.1 = [] ↔
        n = 0 ∨ fails h.next = true ∧ fails (h.next + 1) = true) := by
  induction n generalizing h with
  | zero => exact ⟨iff_of_true rfl nofun, fun _ => rfl, iff_of_true rfl (.inl rfl)⟩
  | succ n ih =>
    have hone := Allocator.alloc_isSome fails h
    have htwo := Allocator.alloc_isSome fails (h.alloc fails).2
    have hnext := Allocator.alloc_next fails (h.alloc fails).2
    rw [Allocator.alloc_next fails h] at htwo hnext
    rw [show 2 * (n + 1) = 1 + (1 + 2 * n) by omega, Allocator.grants_add, Allocator.grants_add,
      Allocator.grants_one, Allocator.grants_one, ← hone, ← htwo, lookupSteps]
    dsimp only
    split_ifs with hok
    · obtain ⟨h1, h2, -⟩ := ih ((h.alloc fails).2.alloc fails).2
      rw [hnext] at h1 h2
      refine ⟨h1.trans (by simp [hok]), fun hf => (h2 hf).trans (by omega), iff_of_false ?_ ?_⟩
      · obtain ⟨b, hb⟩ := Option.isSome_iff_exists.mp hok.1
        simp [hb]
      · rintro (h0 | ⟨h0, -⟩)
        · cases h0
        · rw [hone.mp hok.1] at h0
          cases h0
    · refine ⟨iff_of_false nofun fun hall => hok ⟨hall.1, hall.2.1⟩, nofun, ?_⟩
      rw [List.append_eq_nil_iff, Option.toList_eq_nil_iff, Option.toList_eq_nil_iff,
        ← Option.not_isSome_iff_eq_none, ← Option.not_isSome_iff_eq_none, hone, htwo]
      simp

theorem execFile_opening {h : Allocator} {kargv kenvp : List Nat}
    (hgrants : Allocator.Grants env.fails st.heap.next (execCopies argv envp))
    (hcopies : kargv.length + kenvp.length = execCopies argv envp)
    (hnext : h.next = st.heap.next + execCopies argv envp)
    (hheap : st.heap.Extends h (kargv + kenvp : Multiset Nat)) :
    Opening env argv envp st (execFile env kargv kenvp { st with heap := h }) := by
  have hlook := hheap.trans (extends_lookupSteps env.fails env.steps h)
  obtain ⟨hfound, hn, hnone⟩ := lookupSteps_granted env.fails env.steps h
  rw [hnext] at hfound hn hnone
  have hno : NoInodes env argv envp st ↔ env.steps = 0 ∨
      env.fails (st.heap.next + execCopies argv envp) = true ∧
        env.fails (st.heap.next + execCopies argv envp + 1) = true := forall_prop_of_true hgrants
  rw [← hno] at hnone
  have hall : ExecGrants env argv envp st ↔
      Allocator.Grants env.fails (st.heap.next + execCopies argv envp) (2 * env.steps) ∧
        env.fails (st.heap.next + execCopies argv envp + 2 * env.steps) = false ∧
        env.fails (st.heap.next + execCopies argv envp + 2 * env.steps + 1) = false := by
    rw [ExecGrants, Nat.add_assoc, Allocator.grants_add, Allocator.grants_add, and_iff_right hgrants,
      show 2 = 1 + 1 from rfl, Allocator.grants_add _ _ 1 1, Allocator.grants_one,
      Allocator.grants_one]
  rw [← hfound] at hall
  unfold execFile execOpen
  dsimp only
  generalize lookupSteps env.fails env.steps h = r at hlook hfound hn hnone hall ⊢
  obtain ⟨⟨inodes, found⟩, h₁⟩ := r
  dsimp only at hlook hfound hn hnone hall ⊢
  have hback : st.heap.Extends ((h₁.freeAll kargv).freeAll kenvp) inodes :=
    (hlook.freeAll (C := kenvp + inodes) (by abel)).freeAll rfl
  cases hfile : env.file with
  | none => exact .fails _ (fun _ => hfile) rfl rfl rfl hnone hback
  | some file =>
    cases found with
    | false => exact .fails _ (fun hg => absurd (hall.mp hg).1 nofun) rfl rfl rfl hnone hback
    | true =>
      have h₂ := hlook.trans (Allocator.extends_alloc env.fails h₁)
      have hsome := Allocator.alloc_isSome env.fails h₁
      have hnext₂ := Allocator.alloc_next env.fails h₁
      rw [hn rfl] at hsome hnext₂
      rw [← hsome] at hall
      simp only [if_true]
      generalize h₁.alloc env.fails = r at h₂ hall hnext₂ ⊢
      obtain ⟨_ | f, h₂'⟩ := r
      · refine .fails _ (fun hg => absurd (hall.mp hg).2.1 nofun) rfl rfl rfl hnone ?_
        exact (h₂.freeAll (C := kenvp + inodes) (by simp)).freeAll rfl
      have h₃ := h₂.trans (Allocator.extends_alloc env.fails h₂')
      have hsome₂ := Allocator.alloc_isSome env.fails h₂'
      dsimp only at hnext₂
      rw [hnext₂] at hsome₂
      rw [← hsome₂] at hall
      simp only [Option.map_some]
      generalize h₂'.alloc env.fails = r at h₃ hall ⊢
      obtain ⟨_ | buf, h₃'⟩ := r
      · refine .fails _ (fun hg => absurd (hall.mp hg).2.2 nofun) rfl rfl rfl hnone ?_
        have hf : st.heap.Extends (h₃'.free f) (kargv + (kenvp + inodes) : Multiset Nat) :=
          h₃.free (by
            simp only [Option.toList_some, Option.toList_none, Multiset.coe_nil]
            abel)
        exact (hf.freeAll rfl).freeAll rfl
      · refine .loads file buf kargv kenvp inodes (h₃'.free f) hfile (hall.mpr ⟨rfl, rfl, rfl⟩)
          hcopies hnone (h₃.free ?_) rfl
        simp only [Option.toList_some]
        abel

/-- **Every call opens in one of the two ways.** -/
theorem execve_opening (env : ExecEnv) (argv envp : Option (List Str)) (st : ExecState) :
    Opening env argv envp st (execve env argv envp st) := by
  have hargv := Allocator.extends_allocMany env.fails (execStrings argv).length st.heap
  obtain ⟨hok, hn⟩ := Allocator.allocMany_granted env.fails (execStrings argv).length st.heap
  have hall := Allocator.grants_add env.fails st.heap.next (execStrings argv).length
    (execStrings envp).length
  -- refused strings are refused before an inode is made
  have hrefused (hno : ¬ Allocator.Grants env.fails st.heap.next (execCopies argv envp)) :
      (ExecGrants env argv envp st → env.file = none) ∧ NoInodes env argv envp st := by
    refine ⟨fun hg => absurd ?_ hno, fun hg => absurd hg hno⟩
    rw [ExecGrants, Nat.add_assoc, Allocator.grants_add] at hg
    exact hg.1
  unfold execve
  generalize st.heap.allocMany env.fails _ = r at hargv hok hn ⊢
  obtain ⟨⟨kargv, ok⟩, h⟩ := r
  cases ok with
  | false =>
    have hno := hrefused fun hg => absurd (hok.mpr (hall.mp hg).1) nofun
    exact .fails _ hno.1 rfl rfl rfl (iff_of_true rfl hno.2) (hargv.freeAll (by simp))
  | true =>
    obtain ⟨hnext, hlen⟩ := hn rfl
    dsimp only at hnext hlen
    have henvp := hargv.trans
      (Allocator.extends_allocMany env.fails (execStrings envp).length h)
    obtain ⟨hok', hn'⟩ := Allocator.allocMany_granted env.fails (execStrings envp).length h
    rw [hnext] at hok' hn'
    dsimp only at henvp ⊢
    generalize h.allocMany env.fails _ = r at henvp hok' hn' ⊢
    obtain ⟨⟨kenvp, ok⟩, h₁⟩ := r
    cases ok with
    | false =>
      have hno := hrefused fun hg => absurd (hok'.mpr (hall.mp hg).2) nofun
      exact .fails _ hno.1 rfl rfl rfl (iff_of_true rfl hno.2)
        ((henvp.freeAll (add_comm _ _)).freeAll (by simp))
    | true =>
      obtain ⟨hnext', hlen'⟩ := hn' rfl
      dsimp only at hnext' hlen'
      refine execFile_opening (hall.mpr ⟨hok.mp rfl, hok'.mp rfl⟩) ?_ ?_ henvp
      · rw [hlen, hlen', execCopies]
      · rw [hnext', execCopies, Nat.add_assoc]

end

/-! ## How far memory lasts -/

/-- Of the pages `l`, those that `free` pages are enough for, in order. -/
def affordable (m : Mem) (r free : Nat) (l : List (U64 × U64)) : List (U64 × U64) :=
  l.take ((List.range l.length).findIdx fun k =>
    free < loadCost m r ((l.take (k + 1)).map Prod.fst))

section

variable {m m' : Mem} {r free : Nat} {t : U64 × U64} {l : List (U64 × U64)}

theorem affordable_zero (m : Mem) (r : Nat) (l : List (U64 × U64)) : affordable m r 0 l = [] := by
  cases l with
  | nil => rfl
  | cons t l =>
    have hpos : 0 < loadCost m r (((t :: l).take (0 + 1)).map Prod.fst) :=
      Nat.add_pos_left Nat.one_pos _
    rw [affordable, List.length_cons, List.range_succ_eq_map, List.findIdx_cons,
      decide_eq_true hpos]
    rfl

theorem affordable_cons (ht : t.1.toNat < 2 ^ 47) (hroom : missing m r (vpageOf t.1) + 1 ≤ free)
    (hpath : ∀ ρ, Path userIdx 3 ρ →
      (walk childOf m' r ρ = none ↔ walk childOf m r ρ = none ∧ ρ ∉ (vpageOf t.1).tablePaths)) :
    affordable m r free (t :: l) =
      t :: affordable m' r (free - (missing m r (vpageOf t.1) + 1)) l := by
  have hcost (k : Nat) : loadCost m r (((t :: l).take (k + 1)).map Prod.fst) =
      missing m r (vpageOf t.1) + 1 + loadCost m' r ((l.take k).map Prod.fst) :=
    loadCost_cons ht hpath
  have hfirst : ¬ free < loadCost m r (((t :: l).take (0 + 1)).map Prod.fst) := by
    rw [hcost, List.take_zero, List.map_nil, loadCost_nil]
    omega
  have hrest (k : Nat) : free < loadCost m r (((t :: l).take (k + 1 + 1)).map Prod.fst) ↔
      free - (missing m r (vpageOf t.1) + 1) < loadCost m' r ((l.take (k + 1)).map Prod.fst) := by
    rw [hcost]
    omega
  rw [affordable, List.length_cons, List.range_succ_eq_map, List.findIdx_cons,
    decide_eq_false hfirst, cond_false, List.findIdx_map, List.take_succ_cons, affordable]
  simp only [Function.comp_def, Nat.succ_eq_add_one, hrest]

end

section

variable {roots : Set Nat} {pml4 : U64} {image : Image} {st : Load} {l : List Work}

/-- **What a run maps**: the pages in order, as far as memory lasts. -/
theorem run_calls (image : Image) (st : Load) (h : Tables 4 roots st.phys)
    (hr : pageOf pml4 ∈ roots) (hl : InRange l)
    (hlasts : Lasts st.phys.mem (pageOf pml4) st.phys.pmm.clearBits ((mapped l).map Prod.fst)) :
    (finalState (l.foldlM (Work.run pml4 image) st)).calls.map MapCall.target =
      (affordable st.phys.mem (pageOf pml4) st.phys.pmm.clearBits (mapped l)).reverse ++
        st.calls.map MapCall.target := by
  induction l generalizing st with
  | nil => rfl
  | cons w l ih =>
    have hl' : InRange l := fun ph k hw => hl ph k (List.mem_cons_of_mem w hw)
    cases w with
    | head ph =>
      by_cases href : ph.Refused
      · rw [foldlM_cons_error (if_pos href), mapped_refused href]
        rfl
      · rw [mapped_head href] at hlasts ⊢
        rw [foldlM_cons_ok (if_neg href)]
        exact ih { st with reads := ph.headSpans ++ st.reads } h hl' hlasts
    | page ph k =>
      rw [mapped_page] at hlasts ⊢
      by_cases hfree : 0 < st.phys.pmm.clearBits
      · obtain ⟨c, st', hrun, hcalls, htarget, hserved, hnext⟩ := loadPage_served image h hr
          (hl ph k (List.mem_cons_self ..)) hfree
        obtain ⟨hlow, hroom⟩ := hlasts.head hfree
        obtain ⟨htab, hbits, hpath⟩ := hnext (hserved.mpr ⟨hlow, hroom⟩)
        have hlasts' := (lasts_cons hlow hroom hpath).mp hlasts
        rw [← hbits] at hlasts'
        rw [foldlM_cons_ok (show Work.run pml4 image st (.page ph k) = _ from hrun),
          ih st' htab hl' hlasts', affordable_cons hlow hroom hpath, ← hbits, hcalls, List.map_cons, htarget,
          List.reverse_cons, List.append_assoc]
        rfl
      · have hzero : st.phys.pmm.clearBits = 0 := Nat.eq_zero_of_not_pos hfree
        rcases Phys.alloc_cases h.valid with ⟨-, he⟩ | ⟨g, hg, -, -, -⟩
        · rw [foldlM_cons_error (run_page_full he), hzero, affordable_zero]
          rfl
        · exact absurd (Pmm.clearBits_pos hg) hfree
    | tail ph =>
      rw [mapped_tail] at hlasts ⊢
      rw [foldlM_cons_ok rfl]
      exact ih { st with loadEnd := _ } h hl' hlasts

end

/-! ## The user stack -/

/-- Address `a` is on the user stack. -/
def OnStack (a : Nat) : Prop := 0x7FFFFFD00000 ≤ a ∧ a < 0x7FFFFFF00000

def StackMapped (m : Mem) (root : Nat) : Prop := ∀ a, OnStack a → UserMapped m root True a

/-- The loop of `usermode_map_stack` maps its pages as those of a writable segment without bytes in
the file. -/
def stackSegment : Phdr := ⟨0, 1, 2, 0, 0x7FFFFFD00000, 0, 0x200000⟩

/-- `USER_STACK_SIZE` in pages. -/
@[irreducible] def stackPages : Nat := 512

theorem stackPages_eq : stackPages = 512 := by rw [stackPages]

def stackWork : List Work := (List.range stackPages).map (.page stackSegment)

/-- The rounds of `elf_load` and then of `usermode_map_stack`. -/
def callWork (image : Image) : List Work := work image ++ stackWork

/-- `elf_load`, and `usermode_map_stack` if it accepts the file. -/
def callRun (pml4 : U64) (image : Image) (size : U64) (s : Phys) : Load :=
  finalState ((callWork image).foldlM (Work.run pml4 image) (loadStart image size s))

section

variable {pml4 : U64} {image : Image} {size : U64} {s : Phys}

theorem pageCopy_of_filesz_zero {ph : Phdr} (h : ph.filesz = 0) (va : U64) : pageCopy ph va = none := by
  unfold pageCopy
  rw [if_neg fun hx => by rw [h] at hx; exact absurd hx.2 (by decide)]
  by_cases hlt : va < ph.vaddr
  · simp only [if_pos hlt, h]
    refine if_neg ?_
    split_ifs with hoff
    · decide
    · exact hoff
  · rw [if_neg hlt]

theorem mapStackLoop_eq (pml4 : U64) (image : Image) (n k : Nat) (st : Load) :
    mapStackLoop pml4 n (stackSegment.pageVa k) st.phys =
      (finalState (((List.range' k n).map (Work.page stackSegment)).foldlM
        (Work.run pml4 image) st)).phys := by
  induction n generalizing k st with
  | zero => rfl
  | succ n ih =>
    have hva : stackSegment.pageVa k + 4096 = stackSegment.pageVa (k + 1) := by
      rw [Phdr.pageVa, Phdr.pageVa, BitVec.add_assoc, Nat.mul_succ, BitVec.ofNat_add]
      rfl
    have hcopy : pageCopy stackSegment (stackSegment.pageVa k) = none :=
      pageCopy_of_filesz_zero rfl _
    rw [List.range'_succ, List.map_cons, mapStackLoop]
    by_cases hnull : st.phys.alloc.1 = 0
    · rw [foldlM_cons_error (if_pos hnull)]
      exact if_pos hnull
    · rw [foldlM_cons_ok (if_neg hnull)]
      refine (if_neg hnull).trans ?_
      rw [hva, ← ih (k + 1)]
      unfold fillPage
      rw [hcopy]
      rfl

theorem usermodeMapStack_eq (pml4 : U64) (image : Image) (st : Load) :
    usermodeMapStack pml4 st.phys =
      (finalState (stackWork.foldlM (Work.run pml4 image) st)).phys := by
  have hva : stackSegment.pageVa 0 = 0x7FFFFFF00000 - 512 * 4096 := by decide
  rw [stackWork, List.range_eq_range', ← mapStackLoop_eq pml4 image stackPages 0 st, hva,
    stackPages_eq, usermodeMapStack]

theorem callWork_inRange (image : Image) : InRange (callWork image) := by
  intro ph k hw
  rcases List.mem_append.mp hw with hw | hw
  · exact work_inRange image ph k hw
  · obtain ⟨j, hj, he⟩ := List.mem_map.mp hw
    cases he
    have hpages : stackSegment.pages = stackPages := by
      rw [stackPages_eq]
      decide
    rw [hpages]
    exact List.mem_range.mp hj

/-- **One run**: a rejected file is where it ends, an accepted one is followed by the stack. -/
theorem callRun_eq (hvalid : elfValidate image size = true) (pml4 : U64) (s : Phys) :
    (∀ c ∈ (elfLoad pml4 image size s).2.calls, c ∈ (callRun pml4 image size s).calls) ∧
      ((elfLoad pml4 image size s).1.valid = false →
        (callRun pml4 image size s).phys = (elfLoad pml4 image size s).2.phys ∧
        (callRun pml4 image size s).calls = (elfLoad pml4 image size s).2.calls) ∧
      ((elfLoad pml4 image size s).1.valid = true → (callRun pml4 image size s).phys =
        usermodeMapStack pml4 (elfLoad pml4 image size s).2.phys) := by
  have hrun : (callWork image).foldlM (Work.run pml4 image) (loadStart image size s) =
      loadRun pml4 image size s >>= stackWork.foldlM (Work.run pml4 image) := List.foldlM_append
  unfold callRun
  rw [elfLoad_eq hvalid, hrun]
  cases loadRun pml4 image size s with
  | error st => exact ⟨fun _ => id, fun _ => ⟨rfl, rfl⟩, nofun⟩
  | ok st =>
    exact ⟨fun c hc => calls_mono stackWork st c hc, nofun,
      fun _ => (usermodeMapStack_eq pml4 image st).symm⟩

end

/-! ## The new address space -/

/-- Memory with a PML4 fresh in page `f`. -/
def newSpace (kernelPml4 : U64) (f : Nat) (s : Phys) : Phys :=
  ⟨s.pmm.mark f, update s.mem f (freshPml4 kernelPml4 s.mem f)⟩

/-- An address space with nothing in it. -/
def noSpace : Mem := fun _ _ => 0

/-- The pages a call maps if memory lasts. -/
def callPages (image : Image) : List (U64 × U64) := mapped (callWork image)

/-- `elf_load` accepts the file in an empty address space, with `free` pages. -/
structure Accepts (image : Image) (size : U64) (free : Nat) : Prop where
  valid : elfValidate image size = true
  base : ∀ ph ∈ phdrs image, ¬ ph.Refused
  room : loadCost noSpace 0 ((mapped (work image)).map Prod.fst) ≤ free

/-- Mapping the pages `l` in order makes address `a` writable. -/
def MapsWritable (l : List (U64 × U64)) (a : Nat) : Prop :=
  (l.reverse.find? fun t => vpageOf t.1 = vpageOf (BitVec.ofNat 64 a)).any
    fun t => t.2 &&& vmmWritable ≠ 0

section

variable {kernelPml4 : U64} {f : Nat} {s : Phys} {image : Image} {size : U64}

theorem newSpace_tables (hv : s.pmm.Valid) (hf : s.pmm.Free f) (kernelPml4 : U64) :
    Tables 4 {f} (newSpace kernelPml4 f s) ∧
      ∀ x, Node childOf userIdx 4 (newSpace kernelPml4 f s).mem {f} x ↔ x = f := by
  obtain ⟨htab, hnode⟩ := (tables_empty (n := 4) hv).newRoot hf kernelPml4
  rw [insert_empty_eq] at htab hnode
  refine ⟨htab, fun x => (hnode x).trans ⟨fun h => h.resolve_left ?_, .inr⟩⟩
  rintro ⟨r, hr, -⟩
  exact hr

theorem newSpace_clearBits (hf : s.pmm.Free f) (kernelPml4 : U64) :
    (newSpace kernelPml4 f s).pmm.clearBits = s.pmm.clearBits - 1 := by
  have h := Pmm.clearBits_mark hf
  show (s.pmm.mark f).clearBits = _
  omega

theorem loadCost_newSpace (kernelPml4 : U64) (f : Nat) (s : Phys) (l : List U64) :
    loadCost (newSpace kernelPml4 f s).mem f l = loadCost noSpace 0 l := by
  -- no table is there in either
  have hnone {m : Mem} {r : Nat} (hm : ∀ i, userIdx i → childOf (m r i) = none) :
      tablesMissing m r (lowPages l) = tablesOver (lowPages l) := by
    refine Finset.filter_true_of_mem fun ρ hρ => ?_
    obtain ⟨v, hv, hρv⟩ := mem_tablesOver.mp hρ
    obtain ⟨hpath, hne⟩ := VPage.path_of_mem_tablePaths (lowPages_user hv) hρv
    cases ρ with
    | nil => exact absurd rfl hne
    | cons i ρ => rw [Radix.walk, hm i (hpath.2 i rfl), Option.bind_none]
  unfold loadCost
  rw [hnone (m := noSpace) fun i _ => childOf_zero, hnone fun i hi => ?_]
  show childOf (update s.mem f (freshPml4 kernelPml4 s.mem f) f i) = none
  rw [update_self, childOf_freshPml4 hi]

theorem lasts_newSpace (kernelPml4 : U64) (f : Nat) (s : Phys) (free : Nat) (l : List U64) :
    Lasts (newSpace kernelPml4 f s).mem f free l ↔ Lasts noSpace 0 free l := by
  unfold Lasts
  simp only [loadCost_newSpace]

theorem accepted_newSpace (hf : s.pmm.Free f) (kernelPml4 : U64) :
    Accepted image size f (newSpace kernelPml4 f s) ↔ Accepts image size (s.pmm.clearBits - 1) := by
  have hroom : loadCost (newSpace kernelPml4 f s).mem f ((mapped (work image)).map Prod.fst) ≤
      (newSpace kernelPml4 f s).pmm.clearBits ↔
      loadCost noSpace 0 ((mapped (work image)).map Prod.fst) ≤ s.pmm.clearBits - 1 := by
    rw [loadCost_newSpace, newSpace_clearBits hf]
  exact ⟨fun h => ⟨h.valid, h.base, hroom.mp h.room⟩, fun h => ⟨h.valid, h.base, hroom.mpr h.room⟩⟩

/-- **The call as one run** in the new address space, while memory lasts. -/
structure Ran (kernelPml4 : U64) (f : Nat) (s : Phys) (image : Image) (size : U64) : Prop where
  good : (callRun (pageAddr f) image size (newSpace kernelPml4 f s)).Good f
  loaded : ∃ T, Loaded {f} f (newSpace kernelPml4 f s) T
    (callRun (pageAddr f) image size (newSpace kernelPml4 f s))
  targets : (callRun (pageAddr f) image size (newSpace kernelPml4 f s)).calls.map MapCall.target =
    (affordable noSpace 0 (s.pmm.clearBits - 1) (callPages image)).reverse
  accepts : elfValidate image size = true →
    ((elfLoad (pageAddr f) image size (newSpace kernelPml4 f s)).1.valid = true ↔
      Accepts image size (s.pmm.clearBits - 1))

theorem ran_of_lasts (hv : s.pmm.Valid) (hf : s.pmm.Free f)
    (hlasts : Lasts noSpace 0 (s.pmm.clearBits - 1) ((callPages image).map Prod.fst)) :
    Ran kernelPml4 f s image size := by
  have hpage : pageOf (pageAddr f) = f := pageOf_pageAddr hf.lt
  obtain ⟨htab, -⟩ := newSpace_tables hv hf kernelPml4
  have hroot : pageOf (pageAddr f) ∈ ({f} : Set Nat) := hpage
  have hlasts' : Lasts (newSpace kernelPml4 f s).mem (pageOf (pageAddr f))
      (newSpace kernelPml4 f s).pmm.clearBits ((mapped (callWork image)).map Prod.fst) := by
    rw [hpage, lasts_newSpace, newSpace_clearBits hf]
    exact hlasts
  have hserved := (run_served image (loadStart image size (newSpace kernelPml4 f s)) htab
    hroot (callWork_inRange image) nofun).1.mpr hlasts'
  have hgood : (finalState ((callWork image).foldlM (Work.run (pageAddr f) image)
      (loadStart image size (newSpace kernelPml4 f s)))).Good (pageOf (pageAddr f)) :=
    fun c hc => ⟨vpageOf_user (hserved c hc).1, (hserved c hc).2⟩
  have hstart : Loaded {f} (pageOf (pageAddr f)) (newSpace kernelPml4 f s) []
      (loadStart image size (newSpace kernelPml4 f s)) := Loaded.start htab _
  have hloaded := loaded_run htab hroot (callWork_inRange image) hstart hgood
  have hcalls := run_calls image (loadStart image size (newSpace kernelPml4 f s)) htab hroot
    (callWork_inRange image) hlasts'
  rw [hpage] at hgood hloaded hcalls
  refine ⟨hgood, hloaded, ?_, fun hvalid => ?_⟩
  · have hsame : affordable (newSpace kernelPml4 f s).mem f (newSpace kernelPml4 f s).pmm.clearBits
        (mapped (callWork image)) =
        affordable noSpace 0 (s.pmm.clearBits - 1) (mapped (callWork image)) := by
      unfold affordable
      simp only [loadCost_newSpace, newSpace_clearBits hf]
    exact hcalls.trans ((List.append_nil _).trans (congrArg _ hsame))
  · rw [valid_iff htab hroot fun c hc => hserved c ((callRun_eq hvalid _ _).1 c hc), hpage,
      accepted_newSpace hf]

theorem flags_of_mapped {l : List Work} {t : U64 × U64} (ht : t ∈ mapped l) :
    ∃ ph : Phdr, t.2 = ph.vmmFlags := by
  obtain ⟨w, -, ht⟩ := List.mem_flatMap.mp ht
  cases w with
  | head ph => exact absurd ht List.not_mem_nil
  | page ph k => exact ⟨ph, congrArg Prod.snd (List.mem_singleton.mp ht)⟩
  | tail ph => exact absurd ht List.not_mem_nil

/-- **What is mapped** can be read off the pages that memory lasts for. -/
theorem Ran.userMapped_iff (h : Ran kernelPml4 f s image size) {a : Nat} (ha : a < 2 ^ 47) :
    UserMapped (callRun (pageAddr f) image size (newSpace kernelPml4 f s)).phys.mem f True a ↔
      MapsWritable (affordable noSpace 0 (s.pmm.clearBits - 1) (callPages image)) a := by
  have huser : (vpageOf (BitVec.ofNat 64 a)).User := vpageOf_user (by rwa [toNat_ofNat_low ha])
  obtain ⟨T, hT⟩ := h.loaded
  have hleaf := hT.leaf f rfl _ huser
  unfold MapsWritable
  rw [← h.targets, List.find?_map]
  unfold Load.leaf at hleaf
  simp only [true_and, Function.comp_def] at hleaf ⊢
  have htarget (c : MapCall) : c.target.1 = c.virt := rfl
  simp only [htarget]
  cases hfind : (callRun (pageAddr f) image size (newSpace kernelPml4 f s)).calls.find?
      fun c => vpageOf c.virt = vpageOf (BitVec.ofNat 64 a) with
  | none =>
    rw [hfind] at hleaf
    refine iff_of_false (fun hm => hm.present ?_) nofun
    rw [hleaf, newSpace, leafEntry_freshPml4 huser]
    rfl
  | some c =>
    rw [hfind] at hleaf
    have hmem : c.target ∈ (callRun (pageAddr f) image size (newSpace kernelPml4 f s)).calls.map
        MapCall.target := List.mem_map_of_mem (List.mem_of_find?_eq_some hfind)
    rw [h.targets, List.mem_reverse] at hmem
    obtain ⟨ph, hph⟩ := flags_of_mapped (List.mem_of_mem_take hmem)
    have hflags : c.flags = ph.vmmFlags := hph
    obtain ⟨h1, h2, h3⟩ := leafOf_vmmFlags ph c.phys
    have hw : ph.vmmFlags &&& vmmWritable ≠ 0 ↔ ph.Writable := by
      unfold Phdr.vmmFlags Phdr.Writable
      cases ph.flags.testBit 1 <;> decide
    replace hleaf : leafEntry _ f (vpageOf (BitVec.ofNat 64 a)) = leafOf c.phys c.flags := hleaf
    rw [← hflags, ← hleaf] at h1 h2 h3
    rw [← hflags] at hw
    have hany : (Option.map MapCall.target (some c)).any (fun t => t.2 &&& vmmWritable ≠ 0) = true ↔
        ph.Writable := (decide_eq_true_iff (p := c.flags &&& vmmWritable ≠ 0)).trans hw
    rw [hany]
    exact ⟨fun hm => h3.mp (hm.writable.mpr trivial),
      fun hwr => ⟨ha, h1, h2, h3.trans (iff_of_true hwr trivial)⟩⟩

end

/-! ## A file that is rejected -/

section

variable {kernelPml4 : U64} {f : Nat} {s : Phys} {image : Image} {size : U64} {ld : Load}
  {T : List Nat}

theorem Loaded.free_of_node (hv : s.pmm.Valid) (hf : s.pmm.Free f)
    (h : Loaded {f} f (newSpace kernelPml4 f s) T ld)
    (hnx : ∀ c ∈ ld.calls, c.flags &&& vmmNx = 0) {x : Nat}
    (hx : Node childOf userIdx 4 ld.phys.mem {f} x) : s.pmm.Free x := by
  obtain ⟨L, htakes, hL⟩ := h.takes
  have hfree (y : Nat) (hy : y ∈ L) : s.pmm.Free y :=
    (Pmm.free_mark.mp (htakes.free_of_mem y hy)).1
  rcases node_four.mp hx with hn | ⟨r, rfl, v, hv', hchild⟩
  · rcases (h.node x).mp hn with hn | hT
    · rw [((newSpace_tables hv hf kernelPml4).2 x).mp (hn.mono (Nat.le_succ 3) subset_rfl)]
      exact hf
    · exact hfree x ((hL x).mpr (.inl hT))
  · rw [h.leaf r rfl v hv'] at hchild
    by_cases hcall : ∃ c ∈ ld.calls, vpageOf c.virt = v
    · obtain ⟨c, hc, rfl⟩ := hcall
      obtain ⟨c', hc', -, hleaf⟩ := Load.leaf_of_call hc r (newSpace kernelPml4 r s).mem
      rw [hleaf, childOf_leafOf (hnx c' hc')] at hchild
      rw [← Option.some.inj hchild]
      exact hfree _ ((hL _).mpr (.inr (List.mem_map_of_mem hc')))
    · rw [Load.leaf_of_no_call fun c hc hcv => hcall ⟨c, hc, hcv⟩, newSpace,
        leafEntry_freshPml4 hv'] at hchild
      cases hchild

/-- **Cleaning up after a rejected file**: every page is free again if and only if no page was mapped
twice. -/
theorem destroy_restores_iff (hv : s.pmm.Valid) (hf : s.pmm.Free f)
    (hT : Loaded {f} f (newSpace kernelPml4 f s) T ld) (hgood : ld.Good f)
    (hnx : ∀ c ∈ ld.calls, c.flags &&& vmmNx = 0) :
    (∀ x, (vmmDestroyPml4 (pageAddr f) ld.phys).pmm.Free x ↔ s.pmm.Free x) ↔
      (ld.calls.map fun c => vpageOf c.virt).Nodup := by
  have hpage : pageOf (pageAddr f) = f := pageOf_pageAddr hf.lt
  obtain ⟨htab, -⟩ := newSpace_tables hv hf kernelPml4
  obtain ⟨hnd, hused, he, -⟩ := hT.tables.destroy (show pageOf (pageAddr f) ∈ ({f} : Set Nat) from hpage)
  have hdestroy (x : Nat) : (vmmDestroyPml4 (pageAddr f) ld.phys).pmm.Free x ↔
      ld.phys.pmm.Free x ∨ Node childOf userIdx 4 ld.phys.mem {f} x := by
    rw [he, freeAll_free hnd hT.tables.valid hused, mem_spacePages, hpage]
  rw [← hT.mapped_iff htab (fun c hc => (hgood c hc).1) hnx]
  simp only [hdestroy]
  obtain ⟨L, htakes, -⟩ := hT.takes
  constructor
  · intro hall x hx hnot
    exact ((hall x).mpr (Pmm.free_mark.mp hx).1).resolve_left hnot
  · intro hmapped x
    constructor
    · rintro (hx | hx)
      · exact (Pmm.free_mark.mp ((htakes.free_iff x).mp hx).1).1
      · exact hT.free_of_node hv hf hnx hx
    · intro hx
      by_cases hxf : x = f
      · rw [hxf]
        exact .inr (Node.root rfl)
      · by_cases hfree : ld.phys.pmm.Free x
        · exact .inl hfree
        · exact .inr (hmapped x (Pmm.free_mark.mpr ⟨hx, hxf⟩) hfree)

theorem rejected_restores_iff (hv : s.pmm.Valid) (hf : s.pmm.Free f)
    (hran : elfValidate image size = true → Ran kernelPml4 f s image size)
    (hinvalid : (elfLoad (pageAddr f) image size (newSpace kernelPml4 f s)).1.valid = false) :
    (∀ x, (vmmDestroyPml4 (pageAddr f)
      (elfLoad (pageAddr f) image size (newSpace kernelPml4 f s)).2.phys).pmm.Free x ↔
        s.pmm.Free x) ↔
      (elfValidate image size = true →
        ((affordable noSpace 0 (s.pmm.clearBits - 1) (callPages image)).map
          fun t => vpageOf t.1).Nodup) := by
  by_cases hvalid : elfValidate image size = true
  · have h := hran hvalid
    obtain ⟨hphys, hcalls⟩ := (callRun_eq hvalid (pageAddr f) (newSpace kernelPml4 f s)).2.1 hinvalid
    obtain ⟨T, hT⟩ := h.loaded
    have hnx (c : MapCall)
        (hc : c ∈ (callRun (pageAddr f) image size (newSpace kernelPml4 f s)).calls) :
        c.flags &&& vmmNx = 0 := by
      have hmem := List.mem_map_of_mem (f := MapCall.target) hc
      rw [h.targets, List.mem_reverse] at hmem
      obtain ⟨ph, hph⟩ := flags_of_mapped (List.mem_of_mem_take hmem)
      rw [show c.flags = ph.vmmFlags from hph]
      exact vmmFlags_nx ph
    have hmap := congrArg (List.map fun t : U64 × U64 => vpageOf t.1) h.targets
    rw [List.map_map, List.map_reverse] at hmap
    rw [← hphys, destroy_restores_iff hv hf hT h.good hnx, forall_prop_of_true hvalid,
      ← List.nodup_reverse (l := List.map _ (affordable ..)), ← hmap]
    rfl
  · rw [elfLoad_of_not_validate hvalid]
    obtain ⟨htab, -⟩ := newSpace_tables hv hf kernelPml4
    exact iff_of_true ((destroy_restores_iff hv hf (Loaded.start htab f) nofun nofun).mpr List.nodup_nil)
      fun hx => absurd hx hvalid

end

/-! ## Clean calls -/

/-- The page belongs to the address space of the process and to no other. -/
def OwnPage (kernelPml4 : U64) (st : ExecState) (x : Nat) : Prop :=
  st.proc.pml4 ≠ 0 ∧ st.proc.pml4 ≠ kernelPml4 ∧
    Node childOf userIdx 4 st.phys.mem {pageOf st.proc.pml4} x

/-- **Clean**: an error leaves everything as it was, and the new image comes without remains of the
old one. -/
structure ExecClean (env : ExecEnv) (st : ExecState) (o : ExecOutcome) : Prop where
  proc : ∀ e, o.result = .error e → o.state.proc = st.proc
  heap : ∀ e, o.result = .error e → o.state.heap.live = st.heap.live
  free : ∀ e, o.result = .error e → ∀ x, o.state.phys.pmm.Free x ↔ st.phys.pmm.Free x
  old : ∀ entry, o.result = .entered entry →
    ∀ x, OwnPage env.kernelPml4 st x → o.state.phys.pmm.Free x
  copies : ∀ entry, o.result = .entered entry → ∀ b ∈ o.copies, b ∉ o.state.heap.live
  stack : ∀ entry, o.result = .entered entry →
    StackMapped o.state.phys.mem (pageOf o.state.proc.pml4)

/-- The call comes to load `file`: nothing is refused, and there is a page for the PML4. -/
def Loads (env : ExecEnv) (argv envp : Option (List Str)) (st : ExecState) (file : Image × U64) :
    Prop :=
  ExecGrants env argv envp st ∧ env.file = some file ∧ 0 < st.phys.pmm.clearBits

/-- The call enters the new image. -/
def Enters (env : ExecEnv) (argv envp : Option (List Str)) (st : ExecState) : Prop :=
  ∃ file, Loads env argv envp st file ∧ Accepts file.1 file.2 (st.phys.pmm.clearBits - 1)

/-- The pages that memory lasts for, behind the PML4. -/
def callMapped (st : ExecState) (image : Image) : List (U64 × U64) :=
  affordable noSpace 0 (st.phys.pmm.clearBits - 1) (callPages image)

/-- The file keeps to the user half, and memory does not run out between a page and its tables. -/
def CallLasts (env : ExecEnv) (argv envp : Option (List Str)) (st : ExecState) : Prop :=
  ∀ file, Loads env argv envp st file → elfValidate file.1 file.2 = true →
    Lasts noSpace 0 (st.phys.pmm.clearBits - 1) ((callPages file.1).map Prod.fst)

/-- What a clean call needs. -/
structure ExecFits (env : ExecEnv) (argv envp : Option (List Str)) (st : ExecState) : Prop where
  lasts : CallLasts env argv envp st
  /-- Before an error, no inode is made for the path. -/
  inodes : ¬ Enters env argv envp st → NoInodes env argv envp st
  /-- The pages of a rejected file are mapped once each. -/
  once : ¬ Enters env argv envp st → ∀ file, Loads env argv envp st file →
    elfValidate file.1 file.2 = true → ((callMapped st file.1).map fun t => vpageOf t.1).Nodup
  /-- A process that enters a file had no address space of its own, and passes no strings on. -/
  old : Enters env argv envp st → st.proc.pml4 = 0 ∨ st.proc.pml4 = env.kernelPml4
  copies : Enters env argv envp st → execCopies argv envp = 0
  stack : Enters env argv envp st → ∀ file, Loads env argv envp st file →
    ∀ a, OnStack a → MapsWritable (callMapped st file.1) a

section

variable {env : ExecEnv} {argv envp : Option (List Str)} {st : ExecState} {o : ExecOutcome}
  {f : Nat} {file : Image × U64}

theorem Loads.unique {file' : Image × U64} (h : Loads env argv envp st file)
    (h' : Loads env argv envp st file') : file' = file :=
  Option.some.inj (h'.2.1.symm.trans h.2.1)

theorem clean_of_error_iff (st : ExecState) {e : Int} (hresult : o.result = .error e)
    (hproc : o.state.proc = st.proc) (hheap : st.heap.Extends o.state.heap o.inodes)
    (hinodes : o.inodes = [] ↔ NoInodes env argv envp st) :
    ExecClean env st o ↔ NoInodes env argv envp st ∧
      ∀ x, o.state.phys.pmm.Free x ↔ st.phys.pmm.Free x := by
  have hlive := hheap.live_eq_iff
  rw [Multiset.coe_eq_zero, hinodes] at hlive
  have hne (entry : U64) : o.result ≠ .entered entry := by
    rw [hresult]
    exact nofun
  rw [← hlive]
  exact ⟨fun hc => ⟨hc.heap e hresult, hc.free e hresult⟩, fun hc => ⟨fun _ _ => hproc,
    fun _ _ => hc.1, fun _ _ => hc.2, fun n hn => absurd hn (hne n), fun n hn => absurd hn (hne n),
    fun n hn => absurd hn (hne n)⟩⟩

/-- An error before anything is loaded. -/
theorem fits_early_iff (hno : ∀ file, ¬ Loads env argv envp st file) :
    ExecFits env argv envp st ↔ NoInodes env argv envp st := by
  have hnot : ¬ Enters env argv envp st := fun ⟨file, hl, _⟩ => hno file hl
  exact ⟨fun hf => hf.inodes hnot, fun hi => ⟨fun file hl => absurd hl (hno file), fun _ => hi,
    fun _ file hl => absurd hl (hno file), fun he => absurd he hnot, fun he => absurd he hnot,
    fun he => absurd he hnot⟩⟩

theorem fits_rejected_iff (hlasts : CallLasts env argv envp st) (hloads : Loads env argv envp st file)
    (hnot : ¬ Enters env argv envp st) :
    ExecFits env argv envp st ↔ NoInodes env argv envp st ∧ (elfValidate file.1 file.2 = true →
      ((callMapped st file.1).map fun t => vpageOf t.1).Nodup) := by
  refine ⟨fun hf => ⟨hf.inodes hnot, hf.once hnot file hloads⟩, fun hf => ⟨hlasts, fun _ => hf.1,
    fun _ file' hl => ?_, fun he => absurd he hnot, fun he => absurd he hnot,
    fun he => absurd he hnot⟩⟩
  rw [hloads.unique hl]
  exact hf.2

theorem clean_iff_entered {entry : U64} {roots : Set Nat} (h : Tables 4 roots st.phys)
    (hroot : st.proc.pml4 = 0 ∨ st.proc.pml4 = env.kernelPml4 ∨ pageOf st.proc.pml4 ∈ roots)
    (hlasts : CallLasts env argv envp st) (hloads : Loads env argv envp st file)
    (henters : Enters env argv envp st) (hran : Ran env.kernelPml4 f st.phys file.1 file.2)
    (hf : st.phys.pmm.Free f) (hresult : o.result = .entered entry)
    (hpml4 : o.state.proc.pml4 = pageAddr f)
    (hphys : o.state.phys =
      (callRun (pageAddr f) file.1 file.2 (newSpace env.kernelPml4 f st.phys)).phys)
    (hheap : st.heap.Extends o.state.heap (o.copies + o.inodes))
    (hcopies : o.copies.length = execCopies argv envp) :
    ExecClean env st o ↔ ExecFits env argv envp st := by
  have hne (e : Int) : o.result ≠ .error e := by
    rw [hresult]
    exact nofun
  have hstack (a : Nat) (ha : OnStack a) :
      UserMapped o.state.phys.mem (pageOf o.state.proc.pml4) True a ↔
        MapsWritable (callMapped st file.1) a := by
    rw [hphys, hpml4, pageOf_pageAddr hf.lt]
    exact hran.userMapped_iff (ha.2.trans (by decide))
  constructor
  · intro hc
    refine ⟨hlasts, fun hx => absurd henters hx, fun hx => absurd henters hx, fun _ => ?_, fun _ => ?_,
      fun _ file' hl a ha => ?_⟩
    · -- a root of its own would still be used
      by_contra hown
      rw [not_or] at hown
      have hmem := (hroot.resolve_left hown.1).resolve_left hown.2
      obtain ⟨T, hT⟩ := hran.loaded
      obtain ⟨L, hL, -⟩ := hT.takes
      have hused := hL.used_mono ((Pmm.Takes.single hf).used_mono (h.used _ (Node.root hmem)))
      rw [← hphys] at hused
      exact Pmm.not_free_of_used hused (hc.old entry hresult _ ⟨hown.1, hown.2, Node.root rfl⟩)
    · rw [← hcopies, List.length_eq_zero_iff]
      refine List.eq_nil_iff_forall_not_mem.mpr fun b hb => hc.copies entry hresult b hb ?_
      rw [hheap.live]
      simp [hb]
    · rw [hloads.unique hl, ← hstack a ha]
      exact hc.stack entry hresult a ha
  · intro hfit
    refine ⟨fun e he => absurd he (hne e), fun e he => absurd he (hne e),
      fun e he => absurd he (hne e), fun _ _ x hx => ?_, fun _ _ b hb => ?_, fun _ _ a ha => ?_⟩
    · exact absurd (hfit.old henters) (not_or.mpr ⟨hx.1, hx.2.1⟩)
    · have hnil : o.copies = [] := List.length_eq_zero_iff.mp (hcopies.trans (hfit.copies henters))
      rw [hnil] at hb
      exact absurd hb List.not_mem_nil
    · exact (hstack a ha).mpr (hfit.stack henters file hloads a ha)

/-- From `vmm_new_pml4` on. -/
theorem execLoad_clean_iff {roots : Set Nat} (h : Tables 4 roots st.phys)
    (hroot : st.proc.pml4 = 0 ∨ st.proc.pml4 = env.kernelPml4 ∨ pageOf st.proc.pml4 ∈ roots)
    (hlasts : CallLasts env argv envp st) {buf : Nat} {kargv kenvp inodes : List Nat} {a : Allocator}
    (hfile : env.file = some file) (hgrants : ExecGrants env argv envp st)
    (hcopies : kargv.length + kenvp.length = execCopies argv envp)
    (hinodes : inodes = [] ↔ NoInodes env argv envp st)
    (hheap : st.heap.Extends a (kargv + kenvp + inodes + [buf] : Multiset Nat)) :
    ExecClean env st (execLoad env file buf kargv kenvp inodes { st with heap := a }) ↔
      ExecFits env argv envp st := by
  have hbuf : st.heap.Extends (a.free buf) (kargv + kenvp + inodes : Multiset Nat) :=
    hheap.free (by abel)
  have hall : st.heap.Extends (((a.free buf).freeAll kargv).freeAll kenvp) inodes :=
    (hbuf.freeAll (C := kenvp + inodes) (by abel)).freeAll rfl
  unfold execLoad
  rcases vmmNewPml4_cases h.valid env.kernelPml4 with ⟨hnone, he⟩ | ⟨f, hf, hne, he⟩
  · have hno (file : Image × U64) : ¬ Loads env argv envp st file := fun hl => by
      obtain ⟨i, hi⟩ := exists_free_of_clearBits_pos hl.2.2
      exact hnone i hi
    simp only [he, if_true]
    rw [fits_early_iff hno]
    exact (clean_of_error_iff st rfl rfl hall hinodes).trans (and_iff_left fun _ => Iff.rfl)
  · have hloads : Loads env argv envp st file := ⟨hgrants, hfile, Pmm.clearBits_pos hf⟩
    have hran (hvalid : elfValidate file.1 file.2 = true) :
        Ran env.kernelPml4 f st.phys file.1 file.2 :=
      ran_of_lasts h.valid hf (hlasts file hloads hvalid)
    rw [show vmmNewPml4 env.kernelPml4 st.phys = (pageAddr f, newSpace env.kernelPml4 f st.phys)
      from he]
    simp only [if_neg hne]
    by_cases hvalid : (elfLoad (pageAddr f) file.1 file.2
        (newSpace env.kernelPml4 f st.phys)).1.valid = true
    · have hok := validate_of_valid hvalid
      have hacc := ((hran hok).accepts hok).mp hvalid
      rw [if_pos hvalid]
      refine clean_iff_entered h hroot hlasts hloads ⟨file, hloads, hacc⟩ (hran hok) hf rfl rfl
        ((callRun_eq hok _ _).2.2 hvalid).symm ?_ ?_
      · simpa using hbuf
      · rw [← hcopies, List.length_append]
    · have hnot : ¬ Enters env argv envp st := by
        rintro ⟨file', hl, hacc⟩
        obtain rfl := hloads.unique hl
        exact hvalid (((hran hacc.valid).accepts hacc.valid).mpr hacc)
      rw [if_neg hvalid, fits_rejected_iff hlasts hloads hnot]
      refine (clean_of_error_iff st rfl rfl hall hinodes).trans (and_congr_right fun _ => ?_)
      exact rejected_restores_iff h.valid hf hran (Bool.eq_false_iff.mpr hvalid)

end

/-! ## Two calls -/

/-- A process in the empty address space of page 2. -/
def execStart : ExecState := ⟨emptySpace, ⟨∅, 0, nofun⟩, { Process.zero with pml4 := 0x2000 }⟩

def execEnv (image : Image) (size : U64) : ExecEnv := ⟨0, fun _ => false, 0, some (image, size)⟩

/-- One page at `USER_LOAD_BASE`, and a segment below it. -/
def lowSecond : Image :=
  imageOf (ehdrBytes 64 2 ++ phdrBytes 5 176 0x400000 1 1 ++ phdrBytes 6 177 0x1000 1 1 ++ [5, 6])

end Sinux.Proc

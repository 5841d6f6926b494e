import Sinux.Lib.Allocator
import Sinux.Proc.Files

/-!
# Creating a pipe (`pipe_create` of `kernel/ipc/pipe.c`)

`pipe_create` asks for five blocks, a `pipe_t`, two `inode_t` and two `file_t`, and for two
descriptors. `kmalloc` is any function that refuses a request or answers with a block that is not in
use, so every pattern of failures occurs. Its blocks are numbered as `Lib.Allocator`, the heap of
`exec_file`, numbers them, and it grants the requests that are answered (`numbered_allocs`).

* `pipeCreateCalls`: `pipe_create` with its five requests; what it does once it has them is
  `pipeCreate` (`pipeCreateCalls_eq`).
* `pipe_create_clean_iff`: **exactly which calls leave no trace or a whole pipe**: those whose first
  request is refused, and those that get five blocks and two descriptors.
* `pipe_half_created`: one descriptor is left.
-/

namespace Sinux.Proc

open Function Sinux.Lib Sinux.Mm Sinux.Ipc

/-! ## The heap -/

/-- `kmalloc`: what request `n` gets when the blocks `live` are in use. -/
structure Kmalloc where
  answer : (n : Nat) → (live : Finset U64) → Option U64
  fresh : ∀ n live a, answer n live = some a → a ≠ 0 ∧ a ∉ live

/-- The blocks in use and the number of requests so far. -/
structure BlockHeap where
  live : Finset U64
  requests : Nat

namespace BlockHeap

variable {env : Kmalloc} {h : BlockHeap}

/-- `kmalloc(size)`; `none` is `NULL`. -/
def alloc (env : Kmalloc) (h : BlockHeap) : Option U64 × BlockHeap :=
  let r := env.answer h.requests h.live
  (r, ⟨h.live ∪ r.toFinset, h.requests + 1⟩)

/-- The next `n` requests are all answered. -/
def Answers (env : Kmalloc) : BlockHeap → Nat → Prop
  | _, 0 => True
  | h, n + 1 => (h.alloc env).1 ≠ none ∧ Answers env (h.alloc env).2 n

theorem subset_alloc (env : Kmalloc) : h.live ⊆ (h.alloc env).2.live := Finset.subset_union_left

theorem alloc_some {a : U64} (ha : (h.alloc env).1 = some a) :
    a ≠ 0 ∧ a ∉ h.live ∧ a ∈ (h.alloc env).2.live := by
  obtain ⟨h0, hnew⟩ := env.fresh h.requests h.live a ha
  refine ⟨h0, hnew, Finset.mem_union_right _ ?_⟩
  rw [show env.answer h.requests h.live = some a from ha]
  simp

/-- The heap after `n` requests. -/
def allocs (env : Kmalloc) (n : Nat) (h : BlockHeap) : BlockHeap := (fun h => (h.alloc env).2)^[n] h

theorem allocs_succ (n : Nat) : h.allocs env (n + 1) = ((h.allocs env n).alloc env).2 :=
  iterate_succ_apply' ..

theorem requests_allocs (n : Nat) : (h.allocs env n).requests = h.requests + n := by
  induction n with
  | zero => rfl
  | succ n ih => rw [allocs_succ, ← Nat.add_assoc, ← ih]; rfl

/-- Which requests from `h` on are refused. -/
def refuses (env : Kmalloc) (h : BlockHeap) (n : Nat) : Bool :=
  ((h.allocs env (n - h.requests)).alloc env).1.isNone

/-- The blocks of `h` are those of `a`, block `b` at address `addr b`. -/
structure Numbered (addr : Nat → U64) (a : Allocator) (h : BlockHeap) : Prop where
  live : h.live = a.live.image addr
  inj : Set.InjOn addr a.live
  requests : h.requests = a.next

theorem Numbered.alloc {addr : Nat → U64} {a : Allocator} {fails : Nat → Bool}
    (hn : Numbered addr a h) (hfails : fails a.next = (h.alloc env).1.isNone) :
    ∃ addr', (∀ b ∈ a.live, addr' b = addr b) ∧
      (h.alloc env).1 = (a.alloc fails).1.map addr' ∧
      Numbered addr' (a.alloc fails).2 (h.alloc env).2 := by
  have hlive : (h.alloc env).2.live = h.live ∪ (h.alloc env).1.toFinset := rfl
  cases hr : (h.alloc env).1 with
  | none =>
    rw [hr, Option.isNone_none] at hfails
    refine ⟨addr, fun _ _ => rfl, by simp [Allocator.alloc, hfails], ?_⟩
    rw [Allocator.alloc, if_pos hfails]
    exact ⟨by rw [hlive, hr]; simpa using hn.live, hn.inj, congrArg (· + 1) hn.requests⟩
  | some x =>
    rw [hr] at hfails
    obtain ⟨-, hnew, -⟩ := alloc_some hr
    have hother (b) (hb : b ∈ a.live) : update addr a.next x b = addr b :=
      update_of_ne (a.fresh b hb).ne ..
    have himage : a.live.image (update addr a.next x) = h.live :=
      (Finset.image_congr hother).trans hn.live.symm
    rw [Allocator.alloc, if_neg (by simp [hfails])]
    refine ⟨_, hother, by simp, ?_, ?_, congrArg (· + 1) hn.requests⟩
    · rw [hlive, hr, Finset.image_insert, himage, update_self, Finset.union_comm]
      rfl
    · rw [Finset.coe_insert, Set.injOn_insert fun hb => (a.fresh _ hb).ne rfl]
      refine ⟨Set.EqOn.injOn_iff (fun b hb => hother b hb) |>.mpr hn.inj, ?_⟩
      rwa [← Finset.coe_image, himage, update_self]

/-- **The two heaps keep step** over any number of requests. -/
theorem numbered_allocs {addr : Nat → U64} {a : Allocator} (hn : Numbered addr a h) (n : Nat) :
    ∃ addr', Numbered addr' ((fun a => (a.alloc (refuses env h)).2)^[n] a) (h.allocs env n) := by
  induction n with
  | zero => exact ⟨addr, hn⟩
  | succ n ih =>
    obtain ⟨addr', hn'⟩ := ih
    have hfails : refuses env h (((fun a => (a.alloc (refuses env h)).2)^[n] a).next) =
        ((h.allocs env n).alloc env).1.isNone := by
      rw [← hn'.requests, requests_allocs, refuses, Nat.add_sub_cancel_left]
    obtain ⟨addr'', -, -, hn''⟩ := hn'.alloc hfails
    rw [allocs_succ, iterate_succ_apply']
    exact ⟨addr'', hn''⟩

end BlockHeap

/-! ## `pipe_create` -/

/-- What `pipe_create` returns and writes: `fds` are the two descriptors, `none` before they are
assigned, and `none` is -1. -/
structure PipeResult where
  ret : Int
  fds : Option (Option (Fin 64) × Option (Fin 64))
  sys : FileSys
  heap : BlockHeap

/-- `pipe_create` from its first assignment to an inode on. -/
def pipeAttach (i : Fin maxProcs) (b : PipeBlocks) (s : FileSys) (h : BlockHeap) : PipeResult :=
  let s := (s.newFile b.readEnd (.pipe b.pipe 0)).newFile b.writeEnd (.pipe b.pipe 1)
  let (fd₀, k) := procAllocFd i b.readEnd s.kernel
  let (fd₁, k) := procAllocFd i b.writeEnd k
  ⟨if fd₀ = none ∨ fd₁ = none then -24 else 0, some (fd₀, fd₁), s.withKernel k, h⟩

/-- `pipe_create` by `i`. -/
def pipeCreateCalls (env : Kmalloc) (i : Fin maxProcs) (s : FileSys) (h : BlockHeap) :
    PipeResult :=
  let (p, h) := h.alloc env
  match p with
  | none => ⟨-12, none, s, h⟩
  | some p =>
    let s := { s with pipes := update s.pipes p (some pipeAlloc) }
    let (ri, h) := h.alloc env
    let (wi, h) := h.alloc env
    let (rf, h) := h.alloc env
    let (wf, h) := h.alloc env
    match ri, wi, rf, wf with
    | some _, some _, some rf, some wf => pipeAttach i ⟨p, rf, wf⟩ s h
    | _, _, _, _ => ⟨-12, none, s, h⟩

theorem pipeCreateCalls_eq {env : Kmalloc} {h : BlockHeap} (i : Fin maxProcs) (s : FileSys)
    {p ri wi rf wf : U64} (hp : (h.alloc env).1 = some p)
    (hri : ((h.alloc env).2.alloc env).1 = some ri)
    (hwi : (((h.alloc env).2.alloc env).2.alloc env).1 = some wi)
    (hrf : ((((h.alloc env).2.alloc env).2.alloc env).2.alloc env).1 = some rf)
    (hwf : (((((h.alloc env).2.alloc env).2.alloc env).2.alloc env).2.alloc env).1 = some wf) :
    ((pipeCreateCalls env i s h).ret, (pipeCreateCalls env i s h).sys) =
      pipeCreate i (some ⟨p, rf, wf⟩) s := by
  simp only [pipeCreateCalls, hp, hri, hwi, hrf, hwf]
  rfl

/-! ## The law -/

/-- A whole pipe: two descriptors that were free refer to the ends of an empty pipe in a block that
was not in use. -/
structure WholePipe (i : Fin maxProcs) (s : FileSys) (h : BlockHeap) (r : PipeResult)
    (fd₀ fd₁ : Fin 64) (p rf wf : U64) : Prop where
  fds : r.fds = some (some fd₀, some fd₁)
  distinct : fd₀ ≠ fd₁
  free₀ : ((s.kernel.procTable i).fds fd₀).file = 0
  free₁ : ((s.kernel.procTable i).fds fd₁).file = 0
  /-- No other descriptor has changed. -/
  table : (r.sys.kernel.procTable i).fds =
    update (update (s.kernel.procTable i).fds fd₀ ⟨rf, 0⟩) fd₁ ⟨wf, 0⟩
  readEnd : r.sys.files rf = some (.pipe p 0)
  writeEnd : r.sys.files wf = some (.pipe p 1)
  fresh : p ∉ h.live ∧ p ∈ r.heap.live
  empty : r.sys.pipes p = some pipeAlloc

/-- **The law of `pipe_create`**: no trace, or a whole pipe. -/
structure PipeLaw (i : Fin maxProcs) (s : FileSys) (h : BlockHeap) (r : PipeResult) : Prop where
  failed : r.ret < 0 →
    (r.sys.kernel.procTable i).fds = (s.kernel.procTable i).fds ∧ r.heap.live = h.live
  created : 0 ≤ r.ret → ∃ fd₀ fd₁ p rf wf, WholePipe i s h r fd₀ fd₁ p rf wf

/-- Two descriptors are free. -/
def TwoFree (p : Process) : Prop :=
  ∃ j₀ j₁, j₀ ≠ j₁ ∧ (p.fds j₀).file = 0 ∧ (p.fds j₁).file = 0

/-! ## Descriptors -/

theorem freeFd_eq_none {p : Process} : freeFd p = none ↔ ∀ j, (p.fds j).file ≠ 0 := by
  simp [freeFd]

theorem procAllocFd_fds (i : Fin maxProcs) (f : U64) (k : Kernel) :
    ((procAllocFd i f k).2.procTable i).fds =
      match freeFd (k.procTable i) with
      | none => (k.procTable i).fds
      | some j => update (k.procTable i).fds j ⟨f, 0⟩ := by
  rw [procAllocFd]
  cases freeFd (k.procTable i) with
  | none => rfl
  | some j => rw [upd_self]; rfl

theorem procAllocFd_twice {i : Fin maxProcs} {f g : U64} (hf : f ≠ 0) (k : Kernel) :
    let r₀ := procAllocFd i f k
    let r₁ := procAllocFd i g r₀.2
    (¬ TwoFree (k.procTable i) ∧ (r₀.1 = none ∨ r₁.1 = none)) ∨
    ∃ fd₀ fd₁, TwoFree (k.procTable i) ∧ r₀.1 = some fd₀ ∧ r₁.1 = some fd₁ ∧ fd₀ ≠ fd₁ ∧
      ((k.procTable i).fds fd₀).file = 0 ∧ ((k.procTable i).fds fd₁).file = 0 ∧
      (r₁.2.procTable i).fds =
        update (update (k.procTable i).fds fd₀ ⟨f, 0⟩) fd₁ ⟨g, 0⟩ := by
  intro r₀ r₁
  have htab₀ := procAllocFd_fds i f k
  have htab₁ := procAllocFd_fds i g r₀.2
  have hres (f : U64) (k : Kernel) : (procAllocFd i f k).1 = freeFd (k.procTable i) := by
    rw [procAllocFd]
    cases freeFd (k.procTable i) <;> rfl
  cases h₀ : freeFd (k.procTable i) with
  | none =>
    refine Or.inl ⟨?_, Or.inl ((hres f k).trans h₀)⟩
    rintro ⟨j, -, -, hj, -⟩
    exact freeFd_eq_none.mp h₀ j hj
  | some fd₀ =>
    rw [h₀] at htab₀
    have htab₀ : (r₀.2.procTable i).fds = update (k.procTable i).fds fd₀ ⟨f, 0⟩ := htab₀
    have hfile (j : Fin 64) (hj : ((r₀.2.procTable i).fds j).file = 0) :
        j ≠ fd₀ ∧ ((k.procTable i).fds j).file = 0 := by
      have hne : j ≠ fd₀ := by
        rintro rfl
        rw [htab₀, update_self] at hj
        exact hf hj
      rw [htab₀, update_of_ne hne] at hj
      exact ⟨hne, hj⟩
    cases h₁ : freeFd (r₀.2.procTable i) with
    | none =>
      refine Or.inl ⟨?_, Or.inr ((hres g r₀.2).trans h₁)⟩
      -- one of two free descriptors is not the first one found
      rintro ⟨j, l, hjl, hj, hl⟩
      have hother (x : Fin 64) (hx : ((k.procTable i).fds x).file = 0) : x = fd₀ := by
        by_contra hne
        refine freeFd_eq_none.mp h₁ x ?_
        rw [htab₀, update_of_ne hne]
        exact hx
      exact hjl ((hother j hj).trans (hother l hl).symm)
    | some fd₁ =>
      rw [h₁] at htab₁
      obtain ⟨hne, hfree⟩ := hfile fd₁ (freeFd_some h₁)
      have hfree₀ := freeFd_some h₀
      refine Or.inr ⟨fd₀, fd₁, ⟨fd₀, fd₁, hne.symm, hfree₀, hfree⟩, (hres f k).trans h₀,
        (hres g r₀.2).trans h₁, hne.symm, hfree₀, hfree, ?_⟩
      rw [← htab₀]
      exact htab₁

/-! ## What is left behind -/

variable {env : Kmalloc} {i : Fin maxProcs} {s : FileSys} {h : BlockHeap}

theorem not_pipeLaw {r : PipeResult} {p : U64} (hret : r.ret < 0) (hp : p ∉ h.live)
    (hlive : p ∈ r.heap.live) : ¬ PipeLaw i s h r := fun hlaw => by
  rw [(hlaw.failed hret).2] at hlive
  exact hp hlive

theorem pipeAttach_law {p rf wf : U64} {h' : BlockHeap} (hrf : rf ≠ 0) (hne : rf ≠ wf)
    (hp : p ∉ h.live) (hlive : p ∈ h'.live) :
    let s' : FileSys := { s with pipes := update s.pipes p (some pipeAlloc) }
    PipeLaw i s h (pipeAttach i ⟨p, rf, wf⟩ s' h') ↔ TwoFree (s.kernel.procTable i) := by
  intro s'
  let s₁ := (s'.newFile rf (.pipe p 0)).newFile wf (.pipe p 1)
  rcases procAllocFd_twice (g := wf) hrf s₁.kernel with
    ⟨hno, hfd⟩ | ⟨fd₀, fd₁, htwo, h₀, h₁, hd, hfree₀, hfree₁, hfds⟩
  · have hret : (pipeAttach i ⟨p, rf, wf⟩ s' h').ret = -24 := if_pos hfd
    exact iff_of_false (not_pipeLaw (by rw [hret]; decide) hp hlive) hno
  · refine iff_of_true ⟨fun hret => ?_, fun _ => ⟨fd₀, fd₁, p, rf, wf, ?_⟩⟩ htwo
    · have hfd : ¬ ((procAllocFd i rf s₁.kernel).1 = none ∨
          (procAllocFd i wf (procAllocFd i rf s₁.kernel).2).1 = none) := by
        rw [h₀, h₁]
        exact not_or.mpr ⟨Option.some_ne_none fd₀, Option.some_ne_none fd₁⟩
      have h0 : (pipeAttach i ⟨p, rf, wf⟩ s' h').ret = 0 := if_neg hfd
      rw [h0] at hret
      exact absurd hret (by decide)
    · exact ⟨congrArg some (Prod.ext h₀ h₁), hd, hfree₀, hfree₁, hfds,
        (update_of_ne hne ..).trans (update_self ..),
        update_self .., ⟨hp, hlive⟩, update_self ..⟩

/-- **Exactly which calls of `pipe_create` keep the law.** For every `kmalloc`, heap, process and
descriptor table: a call leaves no trace or makes a whole pipe exactly if its first request is
refused, or all five are answered and two descriptors are free. -/
theorem pipe_create_clean_iff (env : Kmalloc) (i : Fin maxProcs) (s : FileSys) (h : BlockHeap) :
    PipeLaw i s h (pipeCreateCalls env i s h) ↔
      (h.alloc env).1 = none ∨ BlockHeap.Answers env h 5 ∧ TwoFree (s.kernel.procTable i) := by
  cases hp : (h.alloc env).1 with
  | none =>
    refine iff_of_true ⟨fun _ => ?_, fun hret => ?_⟩ (Or.inl rfl)
    · have hnone : env.answer h.requests h.live = none := hp
      simp [pipeCreateCalls, BlockHeap.alloc, hnone]
    · simp [pipeCreateCalls, hp] at hret
  | some p =>
    obtain ⟨-, hnew, hmem⟩ := BlockHeap.alloc_some hp
    have hlive := BlockHeap.subset_alloc env (BlockHeap.subset_alloc env
      (BlockHeap.subset_alloc env (BlockHeap.subset_alloc env hmem)))
    have hneg : (-12 : Int) < 0 := by decide
    rw [or_iff_right (Option.some_ne_none p)]
    simp only [BlockHeap.Answers, pipeCreateCalls, hp, and_true]
    split
    · next ri wi rf wf hri hwi hrf hwf =>
      obtain ⟨hrf₀, -, hmem⟩ := BlockHeap.alloc_some hrf
      have hne : rf ≠ wf := by
        rintro rfl
        exact (BlockHeap.alloc_some hwf).2.1 hmem
      refine (pipeAttach_law hrf₀ hne hnew hlive).trans ?_
      simp [hri, hwi, hrf, hwf]
    · next hno =>
      refine iff_of_false (not_pipeLaw hneg hnew hlive) ?_
      rintro ⟨⟨-, hri, hwi, hrf, hwf⟩, -⟩
      obtain ⟨ri, hri⟩ := Option.ne_none_iff_exists'.mp hri
      obtain ⟨wi, hwi⟩ := Option.ne_none_iff_exists'.mp hwi
      obtain ⟨rf, hrf⟩ := Option.ne_none_iff_exists'.mp hrf
      obtain ⟨wf, hwf⟩ := Option.ne_none_iff_exists'.mp hwf
      exact hno ri wi rf wf hri hwi hrf hwf

/-- Requests are answered with one page each. -/
def pages : Kmalloc where
  answer n live :=
    let a := BitVec.ofNat 64 (4096 * (n + 1))
    if a = 0 ∨ a ∈ live then none else some a
  fresh n live a h := by
    dsimp only at h
    split at h
    · cases h
    · next hno => exact Option.some_inj.mp h ▸ not_or.mp hno

/-- A process whose descriptors are all in use but the last. -/
def oneLeft : FileSys where
  kernel := ⟨eightPages, 0,
    fun _ => { Process.zero with state := .running, fds := fun j => ⟨if j = 63 then 0 else 8, 0⟩ },
    some 1, 2, fun _ => 1, ⟨fun _ => none, 0, 0, 0⟩⟩
  files a := if a = 8 then some .fs else none
  pipes _ := none
  closes a := if a = 8 then some 0 else none

/-- **Half a pipe.** `pipe_create` returns `-EMFILE`. Descriptor 63 is the read end of a pipe
without a write end, and all five blocks are still in use. -/
theorem pipe_half_created :
    let r := pipeCreateCalls pages 1 oneLeft ⟨∅, 0⟩
    r.ret = -24 ∧ ((r.sys.kernel.procTable 1).fds 63).file = 0x4000 ∧
      r.sys.files 0x4000 = some (.pipe 0x1000 0) ∧
      r.heap.live = {0x1000, 0x2000, 0x3000, 0x4000, 0x5000} := by
  decide +kernel

end Sinux.Proc

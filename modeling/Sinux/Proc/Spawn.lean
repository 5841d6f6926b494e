import Sinux.Proc.Effect
import Sinux.Mm.Frames

/-!
# The first process gets the processor

With two free pages `proc_create` succeeds; then `proc_spawn_init` queues the new process, and after
the five ticks of process 0's time slice it runs.
-/

namespace Sinux.Proc

open Function Sinux.Lib Sinux.Mm

/-! ## `proc_create` with memory to spare -/

/-- The memory after `proc_create` took the pages `g` and `f`. -/
def createdPhys (kernelPml4 : U64) (g f : Nat) (s : Phys) : Phys :=
  let m := update s.mem g fun _ => 0
  ⟨(s.pmm.mark g).mark f, update m f (freshPml4 kernelPml4 m f)⟩

/-- What a `proc_create` that finds two pages does. The page behind its stack was in use, or is its
PML4. -/
structure CreatedIn (i : Fin maxProcs) (g f : Nat) (k k' : Kernel) : Prop where
  alloc : k.phys.alloc.1 = pageAddr g
  free_stack : k.phys.pmm.Free g
  free_pml4 : (k.phys.pmm.mark g).Free f
  kstack : (k'.procTable i).kstack = pageAddr g
  pml4 : (k'.procTable i).pml4 = pageAddr f
  phys : k'.phys = createdPhys k.kernelPml4 g f k.phys
  behind : g + 1 = f ∨ k.phys.pmm.Used (g + 1)

theorem vmmNewPml4_fst (kernelPml4 : U64) (s : Phys) :
    (vmmNewPml4 kernelPml4 s).1 = s.alloc.1 := by
  unfold vmmNewPml4
  dsimp only
  split
  · next h => exact h.symm
  · split <;> rfl

theorem alloc_lowest {s : Phys} (hv : s.pmm.Valid) {f : Nat} (hf : s.pmm.Free f)
    (h : s.alloc.1 = pageAddr f) (j : Nat) (hj : j < f) : ¬ s.pmm.Free j := by
  rcases Phys.alloc_cases hv with ⟨hnone, -⟩ | ⟨i, hi, hlow, -, he⟩
  · exact absurd hf (hnone f)
  · rw [he] at h
    exact hlow j (pageAddr_inj hi.lt hf.lt h ▸ hj)

theorem attachPml4_ok {i : Fin maxProcs} {g : Nat} {k : Kernel} (hg : g < 2 ^ 52)
    (hk : (k.procTable i).kstack = pageAddr g) (hv : k.phys.pmm.Valid)
    (hroom : 1 ≤ k.phys.pmm.clearBits) :
    ∃ f k', attachPml4 i k = (some i, k') ∧ k.phys.pmm.Free f ∧
      (k'.procTable i).kstack = pageAddr g ∧ (k'.procTable i).pml4 = pageAddr f ∧
      k'.phys = ⟨k.phys.pmm.mark f, update (update k.phys.mem g fun _ => 0) f
        (freshPml4 k.kernelPml4 (update k.phys.mem g fun _ => 0) f)⟩ ∧
      ∀ j < f, ¬ k.phys.pmm.Free j := by
  have hzero : k.phys.kmemsetPage (pageAddr g) =
      ⟨k.phys.pmm, update k.phys.mem g fun _ => 0⟩ := by
    rw [Phys.kmemsetPage, pageOf_pageAddr hg]
  rcases vmmNewPml4_cases (s := ⟨k.phys.pmm, update k.phys.mem g fun _ => 0⟩) hv
    k.kernelPml4 with ⟨hnone, -⟩ | ⟨f, hf, hne, he⟩
  · obtain ⟨f, hf⟩ := exists_free_of_clearBits_pos hroom
    exact absurd hf (hnone f)
  · have hlow := alloc_lowest (s := ⟨k.phys.pmm, update k.phys.mem g fun _ => 0⟩) hv hf
      (by rw [← vmmNewPml4_fst k.kernelPml4, he])
    simp only [attachPml4, hk, hzero, Kernel.withPhys, Kernel.upd, he, if_neg hne]
    refine ⟨f, _, rfl, hf, ?_, ?_, rfl, hlow⟩ <;> simp only [update_self]

theorem procCreate_ok {i : Fin maxProcs} {k : Kernel} (hslot : freeSlot k = some i)
    (hv : k.phys.pmm.Valid) (hroom : 2 ≤ k.phys.pmm.clearBits) :
    ∃ g f k', procCreate k = (some i, k') ∧ CreatedIn i g f k k' := by
  rcases Phys.alloc_cases hv with ⟨hnone, -⟩ | ⟨g, hg, hlow, hne, he⟩
  · obtain ⟨g, hg⟩ := exists_free_of_clearBits_pos (s := k.phys.pmm) (by omega)
    exact absurd hg (hnone g)
  have hphys : (claimSlot i k).phys = k.phys := rfl
  have hbits := Pmm.clearBits_mark hg
  let k₁ := ((claimSlot i k).withPhys { k.phys with pmm := k.phys.pmm.mark g }).upd i
    fun p => { p with kstack := pageAddr g }
  have hk : (k₁.procTable i).kstack = pageAddr g := by
    rw [upd_apply, if_pos rfl]
  obtain ⟨f, k', hatt, hf, hstack, hpml4, hk', hlow'⟩ := attachPml4_ok hg.lt hk (hv.mark hg)
    (by show 1 ≤ (k.phys.pmm.mark g).clearBits; omega)
  refine ⟨g, f, k', ?_, by rw [he], hg, hf, hstack, hpml4, hk', ?_⟩
  · simp only [procCreate, hslot, hphys, he, if_neg hne]
    exact hatt
  -- both pages are the lowest free ones
  obtain ⟨hf, hfg⟩ := Pmm.free_mark.mp hf
  have hle : g ≤ f := Nat.le_of_not_lt fun h => hlow f h hf
  by_cases hsucc : g + 1 = f
  · exact .inl hsucc
  · have hlt : g + 1 < f := by omega
    have hbusy : ¬ k.phys.pmm.Free (g + 1) := fun h =>
      hlow' (g + 1) hlt (Pmm.free_mark.mpr ⟨h, Nat.succ_ne_self g⟩)
    have htot : g + 1 < k.phys.pmm.totalPages := hlt.trans hf.1
    exact .inr ⟨htot, Bool.eq_true_of_not_eq_false fun hb => hbusy ⟨htot, hb⟩⟩

/-! ## `proc_spawn_init` with memory to spare -/

/-- A process that `proc_spawn_init` has created in slot `i`, with its stack in page `g` and its
PML4 in page `f`; `s` is the memory with the image, and `info` says where that is. -/
structure SpawnedIn (ld : Loader) (stub : U64) (info : ElfInfo) (s : Phys) (i : Fin maxProcs)
    (g f : Nat) (m m' : Machine) : Prop where
  claims : Claims i .ready (schedAdd i m.kernel).runQueue m.kernel m'.kernel
  frame : ClaimFrame i .fresh m m'
  pml4 : (m'.kernel.procTable i).pml4 = pageAddr f
  kstack : (m'.kernel.procTable i).kstack = pageAddr g
  phys : m'.kernel.phys = (pushWords (pageAddr g + kstackSize)
    (switchFrame stub info.entry (ld.buildUserStack (pageAddr f) s).1 0x202)
    (ld.buildUserStack (pageAddr f) s).2).2

theorem startInit_eq {ld : Loader} {stub : U64} {i : Fin maxProcs} {info : ElfInfo} {g f : Nat}
    {k k' k'' : Kernel} {r : Int} (h : Claims i .ready k.runQueue k k')
    (hpml4 : (k'.procTable i).pml4 = pageAddr f) (hstack : (k'.procTable i).kstack = pageAddr g)
    (he : startInit ld stub i info k' = some (r, k'')) :
    r = 0 ∧ Claims i .ready (schedAdd i k).runQueue k k'' ∧
    (k''.procTable i).pml4 = pageAddr f ∧ (k''.procTable i).kstack = pageAddr g ∧
    k''.phys = (pushWords (pageAddr g + kstackSize)
      (switchFrame stub info.entry (ld.buildUserStack (pageAddr f) k'.phys).1 0x202)
      (ld.buildUserStack (pageAddr f) k'.phys).2).2 := by
  obtain ⟨hr, hclaims⟩ := startInit_claims h he
  unfold startInit at he
  dsimp only at he
  generalize hk : k'.upd i _ = k₂ at he
  have hphys : k₂.phys = k'.phys := by rw [← hk]; rfl
  have hpml4₂ : (k₂.procTable i).pml4 = pageAddr f := by
    rw [← hpml4, ← hk]
    exact upd_field fun _ => rfl
  have hstack₂ : (k₂.procTable i).kstack = pageAddr g := by
    rw [← hstack, ← hk]
    exact upd_field fun _ => rfl
  rw [hpml4₂, hphys] at he
  obtain ⟨kp, -, he⟩ := Option.bind_eq_some_iff.mp he
  obtain ⟨-, rfl⟩ := Prod.mk.inj (Option.some.inj he)
  generalize hk₃ : inheritFds 3 i kp _ = k₃ at hclaims ⊢
  have hphys₃ : k₃.phys = (ld.buildUserStack (pageAddr f) k'.phys).2 := by rw [← hk₃]; rfl
  have hstack₃ : (k₃.procTable i).kstack = pageAddr g := by
    rw [← hstack₂, ← hk₃]
    exact inheritFds_field 3 kp fun _ _ => rfl
  have hpml4₃ : (k₃.procTable i).pml4 = pageAddr f := by
    rw [← hpml4₂, ← hk₃]
    exact inheritFds_field 3 kp fun _ _ => rfl
  refine ⟨hr, hclaims, ?_, ?_, ?_⟩
  · rw [schedAdd_procTable]
    exact (pushFrame_field _ fun _ _ => rfl).trans hpml4₃
  · rw [schedAdd_procTable]
    exact (pushFrame_field _ fun _ _ => rfl).trans hstack₃
  · rw [schedAdd_phys, ← hphys₃, ← hstack₃]
    rfl

/-- **`proc_spawn_init` once it has an image and pages for `proc_create`**: it drops the slot again,
or adds a process. -/
theorem spawn_eq {ld : Loader} {stub : U64} {i : Fin maxProcs} {m m' : Machine} {s : Phys}
    (he : m.spawn ld stub = some m') (hfetch : ld.fetch m.kernel.phys = (none, s))
    (hslot : freeSlot m.kernel = some i) (hv : s.pmm.Valid) (hroom : 2 ≤ s.pmm.clearBits) :
    ∃ g f k', CreatedIn i g f (m.kernel.withPhys s) k' ∧
      let r := ld.elfLoad (pageAddr f)
        (usermodeMapStack (pageAddr f) (createdPhys m.kernel.kernelPml4 g f s))
      (r.1.valid = false ∧ Claims i .unused m.kernel.runQueue m.kernel m'.kernel ∧
        m'.cr3 = m.cr3 ∧ m'.kernel.phys = ld.release r.2) ∨
      SpawnedIn ld stub r.1 (ld.release r.2) i g f m m' := by
  obtain ⟨⟨r, k''⟩, hspawn, rfl⟩ := Option.map_eq_some_iff.mp he
  obtain ⟨g, f, k', hcreate, hk'⟩ := procCreate_ok (k := m.kernel.withPhys s) hslot hv hroom
  have hclaims : Claims i .ready m.kernel.runQueue m.kernel k' := by
    have h := (procCreate_claims (k := m.kernel.withPhys s) hslot).1
    rw [hcreate] at h
    exact ⟨h.ne_zero, h.free, h.others, h.state, h.pid, h.nextPid, h.currentProc, h.kernelPml4,
      h.runQueue⟩
  have hphys : k'.phys = createdPhys m.kernel.kernelPml4 g f s := hk'.phys
  refine ⟨g, f, k', hk', ?_⟩
  have heq : procSpawnInit ld stub m.kernel =
      let r := ld.elfLoad (pageAddr f) (usermodeMapStack (pageAddr f) k'.phys)
      let k := (k'.withPhys (usermodeMapStack (pageAddr f) k'.phys)).withPhys (ld.release r.2)
      if r.1.valid then startInit ld stub i r.1 k
      else some (-1, k.upd i fun p => { p with state := .unused }) := by
    simp only [procSpawnInit, hfetch, hcreate, hk'.pml4]
    rfl
  rw [heq] at hspawn
  dsimp only at hspawn ⊢
  rw [← hphys]
  have hload := (hclaims.withPhys (usermodeMapStack (pageAddr f) k'.phys)).withPhys
    (ld.release (ld.elfLoad (pageAddr f) (usermodeMapStack (pageAddr f) k'.phys)).2)
  have hclaim : (if (ld.fetch m.kernel.phys).1.isSome then none else freeSlot m.kernel) =
      some i := by
    rw [hfetch, hslot]
    rfl
  rw [hclaim]
  split at hspawn
  next =>
    obtain ⟨rfl, hadd, hpml4, hstack, hphys⟩ := startInit_eq hload hk'.pml4 hk'.kstack hspawn
    exact .inr ⟨hadd, claim_frame i .fresh m k'', hpml4, hstack, hphys⟩
  next hvalid =>
    obtain ⟨-, rfl⟩ := Prod.mk.inj (Option.some.inj hspawn)
    exact .inl ⟨Bool.eq_false_of_not_eq_true hvalid, hload.upd
      (f := fun p => { p with state := .unused }) (fun _ _ => rfl) fun _ => rfl, rfl, rfl⟩

/-- An image without segments, and an empty stack at `rsp`. -/
def bareLoader (entry rsp : U64) : Loader where
  fetch := fun s => (none, s)
  release := id
  elfLoad := fun _ s => (⟨entry, 0, true⟩, s)
  buildUserStack := fun _ s => (rsp, s)

theorem procFind_isSome {pid : BitVec 32} {k : Kernel} {i : Fin maxProcs}
    (hpid : (k.procTable i).pid = pid) (hst : (k.procTable i).state ≠ .unused) :
    ∃ j, procFind pid k = some j := by
  rw [← Option.isSome_iff_exists]
  unfold procFind
  rw [List.find?_isSome]
  exact ⟨i, List.mem_finRange i, decide_eq_true ⟨hpid, hst⟩⟩

/-- The memory after `proc_spawn_init` has built the first frame of a process that has its stack in
page `g` and its PML4 in page `f`. -/
def spawnedPhys (kernelPml4 entry rsp stub : U64) (g f : Nat) (s : Phys) : Phys :=
  (pushWords (pageAddr g + kstackSize) (switchFrame stub entry rsp 0x202)
    (usermodeMapStack (pageAddr f) (createdPhys kernelPml4 g f s))).2

/-- What `proc_spawn_init` of a `bareLoader` does with memory to spare. -/
structure Spawned (entry rsp stub : U64) (i : Fin maxProcs) (g f : Nat) (m m' : Machine) :
    Prop where
  claims : Claims i .ready (schedAdd i m.kernel).runQueue m.kernel m'.kernel
  frame : ClaimFrame i .fresh m m'
  free_stack : m.kernel.phys.pmm.Free g
  free_pml4 : (m.kernel.phys.pmm.mark g).Free f
  pml4 : (m'.kernel.procTable i).pml4 = pageAddr f
  phys : m'.kernel.phys = spawnedPhys m.kernel.kernelPml4 entry rsp stub g f m.kernel.phys

theorem spawn_ok {i z : Fin maxProcs} {m : Machine} (hslot : freeSlot m.kernel = some i)
    (hz : m.pid z = 0) (hzst : m.state z ≠ .unused) (hv : m.kernel.phys.pmm.Valid)
    (hroom : 2 ≤ m.kernel.phys.pmm.clearBits) (entry rsp stub : U64) :
    ∃ g f m', m.spawn (bareLoader entry rsp) stub = some m' ∧ Spawned entry rsp stub i g f m m' := by
  have hsome : ∃ m', m.spawn (bareLoader entry rsp) stub = some m' := by
    obtain ⟨g, f, k', hcreate, hk'⟩ := procCreate_ok hslot hv hroom
    have hclaims : Claims i .ready m.kernel.runQueue m.kernel k' := by
      have h := (procCreate_claims hslot).1
      rwa [hcreate] at h
    have hzi : z ≠ i := fun h => hzst (h ▸ hclaims.free)
    let k₂ := k'.withPhys (usermodeMapStack (pageAddr f) k'.phys)
    let k₃ := k₂.upd i fun p => { p with
      brkStart := (0 + 4096 - 1) &&& ~~~4095, brk := (0 + 4096 - 1) &&& ~~~4095, cwd := "/" }
    have hz₃ : k₃.procTable z = m.kernel.procTable z :=
      (upd_apply _ i z _).trans ((if_neg hzi).trans (hclaims.others z hzi))
    obtain ⟨kp, hkp⟩ : ∃ kp, procFind 0 k₃ = some kp :=
      procFind_isSome (i := z) (by rw [hz₃]; exact hz) (by rw [hz₃]; exact hzst)
    have hstart : ∃ r, startInit (bareLoader entry rsp) stub i ⟨entry, 0, true⟩ k₂ = some r := by
      unfold startInit
      dsimp only
      rw [hkp]
      exact ⟨_, rfl⟩
    have hspawn : procSpawnInit (bareLoader entry rsp) stub m.kernel =
        startInit (bareLoader entry rsp) stub i ⟨entry, 0, true⟩ k₂ := by
      have hcreate' : procCreate (m.kernel.withPhys m.kernel.phys) = (some i, k') := hcreate
      simp only [procSpawnInit, bareLoader, hcreate', hk'.pml4]
      rfl
    obtain ⟨r, hr⟩ := hstart
    exact ⟨_, congrArg (Option.map _) (hspawn.trans hr)⟩
  obtain ⟨m', he⟩ := hsome
  obtain ⟨g, f, k', hk', ⟨hvalid, -⟩ | h⟩ := spawn_eq he rfl hslot hv hroom
  · cases hvalid
  · exact ⟨g, f, m', he, h.claims, h.frame, hk'.free_stack, hk'.free_pml4, h.pml4, h.phys⟩

/-! ## From boot to the first process -/

theorem freeSlot_isSome {k : Kernel} {i : Fin maxProcs} (h0 : i ≠ 0)
    (hst : (k.procTable i).state = .unused) : ∃ j, freeSlot k = some j := by
  rw [← Option.isSome_iff_exists]
  unfold freeSlot
  rw [List.find?_isSome]
  exact ⟨i, List.mem_finRange i, decide_eq_true ⟨h0, hst⟩⟩

theorem boot_procTable (tty : Fin 64 → U64) (k : Kernel) (j : Fin maxProcs) (hj : j ≠ 0) :
    (Machine.boot tty k).kernel.procTable j = Process.zero := by
  unfold Machine.boot procInit
  dsimp only
  rw [update_of_ne hj]

theorem boot_state (tty : Fin 64 → U64) (k : Kernel) (j : Fin maxProcs) :
    (Machine.boot tty k).state j = if j = 0 then .running else .unused := by
  split
  · next h => rw [h]; rfl
  · next h => exact congrArg Process.state (boot_procTable tty k j h)

/-- Process `i` was created in `m₀` and waits for process 0 to use up the `n` ticks it has left. -/
structure Started (i : Fin maxProcs) (m₀ : Machine) (n : BitVec 32) (m : Machine) : Prop
    extends KernelFrame m₀.kernel m.kernel where
  current : m.kernel.currentProc = some 0
  state : ∀ j, m.state j = if j = 0 then .running else if j = i then .ready else .unused
  point : m.point = update (fun j => if j = 0 then .run else .broken) i .fresh
  irq0 : m.irq0 = false
  slice : (m.kernel.procTable 0).timeslice = n

/-- Process `i`, created in `m₀`, has the processor and is in user mode. -/
structure FirstRun (i : Fin maxProcs) (m₀ m : Machine) : Prop
    extends KernelFrame m₀.kernel m.kernel where
  current : m.kernel.currentProc = some i
  state : ∀ j, m.state j = if j = 0 then .ready else if j = i then .running else .unused
  point : m.point = update (fun j => if j = 0 then .tick else .broken) i .run
  irq0 : m.irq0 = true
  cr3 : m.cr3 = (m₀.kernel.procTable i).pml4

section FirstRun

variable {i : Fin maxProcs} {m₀ m : Machine} {n : BitVec 32}

theorem Started.point_zero (h : Started i m₀ n m) (hi : i ≠ 0) : m.point 0 = .run := by
  rw [h.point, update_of_ne hi.symm]
  rfl

theorem Started.tick (h : Started i m₀ n m) (hn : (0#32).slt (n - 1) = true) :
    Started i m₀ (n - 1) (handlePit 0 m) := by
  rcases handlePit_cases 0 m with ⟨-, ht, hi, hpt, hsl⟩ | ⟨hn', -⟩
  · refine ⟨h.toKernelFrame.trans ht.toKernelFrame, ht.currentProc.trans h.current, fun j => ?_,
      hpt.trans h.point, hi, by rw [hsl, h.slice]⟩
    rcases ht.state j with hj | ⟨hj, -⟩
    · rw [hj, h.state]
    · rw [h.state] at hj
      split at hj
      · cases hj
      · split at hj <;> cases hj
  · rw [h.slice, hn] at hn'
    cases hn'

theorem Started.switch (h : Started i m₀ n m) (hn : (0#32).slt (n - 1) = false) (hi : i ≠ 0)
    (hq : ∀ p, m₀.Queued p ↔ p = i) (hpml4 : (m₀.kernel.procTable i).pml4 ≠ 0) :
    ∃ m', (handlePit 0 m).kernel.currentProc = some i ∧ (handlePit 0 m).point i = .fresh ∧
      (handlePit 0 m).resume i = some m' ∧ FirstRun i m₀ m' := by
  have hready : m.state i = .ready := by rw [h.state, if_neg hi, if_pos rfl]
  rcases handlePit_cases 0 m with ⟨hn', -⟩ | ⟨-, m₁, ht, hirq, hpt, he⟩
  · rw [h.slice, hn] at hn'
    cases hn'
  have hst (j : Fin maxProcs) : m₁.state j = m.state j := by
    rcases ht.state j with hj | ⟨hj, -⟩
    · exact hj
    · rw [h.state] at hj
      split at hj
      · cases hj
      · split at hj <;> cases hj
  obtain ⟨hf, hy⟩ := schedYield_spec 0 m₁
  rw [← he] at hf hy
  have hqueue {p : Fin maxProcs} (hp : m₁.Queued p) : p = i := by
    refine (hq p).mp ?_
    obtain ⟨idx, hidx⟩ := hp
    exact ⟨idx, by rw [← h.queue, ← ht.queue]; exact hidx⟩
  cases hy with
  | stay hno _ _ _ =>
    rcases hno with hno | h0
    · obtain ⟨idx, hidx⟩ := (hq i).mpr rfl
      exact absurd ((hst i).trans hready) (hno i ⟨idx, by rw [ht.queue, h.queue]; exact hidx⟩)
    · rw [hst, h.state, if_pos rfl] at h0
      cases h0
  | switch next hne hnq _ hst' hcur hcr3 =>
    obtain rfl := hqueue hnq
    have hpoint : (handlePit 0 m).point = update m.point 0 .tick := hf.point.trans hpt
    have hfresh : (handlePit 0 m).point next = .fresh := by
      rw [hpoint, update_of_ne hi, h.point, update_self]
    have hsame : (m₁.kernel.procTable next).pml4 = (m₀.kernel.procTable next).pml4 :=
      ((h.core next).trans (ht.core next)).field fun _ _ _ => rfl
    clear he
    generalize handlePit 0 m = m' at *
    refine ⟨m'.setPoint next .run, hcur, hfresh, by simp only [Machine.resume, hfresh],
      h.toKernelFrame.trans (ht.toKernelFrame.trans hf.toKernelFrame), hcur, fun j => ?_, ?_,
      hf.irq0.trans hirq, ?_⟩
    · refine (hst' j).trans ?_
      simp only [hst, h.state, if_true, and_true]
      by_cases h0 : j = 0
      · rw [if_neg fun hj => hi (hj.symm.trans h0), if_pos h0, if_pos h0]
      · simp only [if_neg h0]
        split <;> rfl
    · refine (congrArg (update · next Point.run) (hpoint.trans (by rw [h.point]))).trans ?_
      funext j
      by_cases hj : j = next
      · rw [hj, update_self, update_self]
      · rw [update_of_ne hj, update_of_ne hj]
        by_cases h0 : j = 0
        · rw [h0, update_self, if_pos rfl]
        · rw [update_of_ne h0, update_of_ne hj, if_neg h0, if_neg h0]
    · refine hcr3.trans ?_
      rw [hsame, if_neg hpml4]

variable {tty : Fin 64 → U64} {k : Kernel} {entry rsp stub : U64} {g f : Nat}

theorem Spawned.queue (h : Spawned entry rsp stub i g f (Machine.boot tty k) m) :
    m.kernel.runQueue = ⟨update (fun _ => none) 0 (some i), 0, 1, 1⟩ :=
  h.claims.runQueue

theorem Spawned.queued (h : Spawned entry rsp stub i g f (Machine.boot tty k) m)
    (p : Fin maxProcs) : m.Queued p ↔ p = i := by
  have hqueue : m.kernel.runQueue.queue = update (fun _ => none) 0 (some i) := by
    rw [h.queue]
  unfold Machine.Queued
  rw [hqueue]
  constructor
  · rintro ⟨idx, hidx⟩
    by_cases h0 : idx = 0
    · rw [h0, update_self] at hidx
      exact (Option.some.inj hidx).symm
    · rw [update_of_ne h0] at hidx
      cases hidx
  · rintro rfl
    exact ⟨0, update_self ..⟩

theorem Spawned.started (h : Spawned entry rsp stub i g f (Machine.boot tty k) m) :
    Started i m 5 m := by
  have hi := h.claims.ne_zero
  refine ⟨KernelFrame.refl _, h.claims.currentProc, fun j => ?_, h.frame.point, h.frame.irq0, ?_⟩
  · by_cases hj : j = i
    · rw [if_neg (hj ▸ hi), if_pos hj, hj]
      exact h.claims.state
    · rw [if_neg hj, ← boot_state tty k j]
      exact congrArg Process.state (h.claims.others j hj)
  · rw [h.claims.others 0 hi.symm]
    rfl

/-- What a condition on runs has to allow for the first process to run. -/
structure AllowsFirstRun (ok : Machine → Event → Prop) : Prop where
  spawn : ∀ tty k, ok (Machine.boot tty k) .spawn
  tick : ∀ m, m.irq0 = false → ok m .tick
  resume : ∀ m c, m.kernel.currentProc = some c → m.point c = .fresh → ok m .resume

theorem picOk_allows : AllowsFirstRun PicOk :=
  ⟨fun _ _ => nofun, fun _ h _ => h, fun _ _ _ _ => nofun⟩

/-- **Five ticks after it was spawned the first process runs**, with the interrupt of the last tick
in service. -/
theorem first_run_of (reach : Machine → Prop) (tty : Fin 64 → U64) {k : Kernel}
    (hv : k.phys.pmm.Valid) (hroom : 2 ≤ k.phys.pmm.clearBits) (entry rsp stub : U64)
    (hspawn : ∀ m, (Machine.boot tty k).spawn (bareLoader entry rsp) stub = some m → reach m)
    (htick : ∀ m, reach m → m.kernel.currentProc = some 0 → m.point 0 = .run → m.irq0 = false →
      reach (handlePit 0 m))
    (hresume : ∀ m m' c, reach m → m.kernel.currentProc = some c → m.point c = .fresh →
      m.resume c = some m' → reach m') :
    ∃ i g f m₀ m, Spawned entry rsp stub i g f (Machine.boot tty k) m₀ ∧ FirstRun i m₀ m ∧
      reach m := by
  obtain ⟨i, hslot⟩ := freeSlot_isSome (k := (Machine.boot tty k).kernel) (i := 1) (by decide)
    (congrArg Process.state (boot_procTable tty k 1 (by decide)))
  obtain ⟨g, f, m₀, hm₀, h⟩ := spawn_ok (z := 0) hslot rfl (by rw [boot_state]; decide) hv hroom
    entry rsp stub
  have hi := h.claims.ne_zero
  have htick {n m} (hs : Started i m₀ n m) (hr : reach m) : reach (handlePit 0 m) :=
    htick m hr hs.current (hs.point_zero hi) hs.irq0
  have h5 := h.started
  have h4 := h5.tick (by decide)
  have h3 := h4.tick (by decide)
  have h2 := h3.tick (by decide)
  have h1 := h2.tick (by decide)
  have hr1 := htick h2 (htick h3 (htick h4 (htick h5 (hspawn m₀ hm₀))))
  have hpml4 : (m₀.kernel.procTable i).pml4 ≠ 0 := by
    rw [h.pml4]
    exact fun h0 => (hv.mark h.free_stack).free_ne_zero h.free_pml4
      ((pageAddr_eq_zero h.free_pml4.lt).mp h0)
  obtain ⟨m, hcur, hfresh, hres, hm⟩ := h1.switch (by decide) hi h.queued hpml4
  exact ⟨i, g, f, m₀, m, h, hm, hresume _ m i (htick h1 hr1) hcur hfresh hres⟩

theorem first_run {ok : Machine → Event → Prop} (hok : AllowsFirstRun ok) (tty : Fin 64 → U64)
    {k : Kernel} (hv : k.phys.pmm.Valid) (hroom : 2 ≤ k.phys.pmm.clearBits)
    (entry rsp stub : U64) :
    ∃ i g f m₀ m, Spawned entry rsp stub i g f (Machine.boot tty k) m₀ ∧ FirstRun i m₀ m ∧
      MReach SameSched ok tty k m := by
  refine first_run_of (MReach SameSched ok tty k) tty hv hroom entry rsp stub (fun m hm => ?_)
    (fun m hr hc hp hi => ?_) fun m m' c hr hc hp hm => ?_
  · exact Relation.ReflTransGen.single ⟨.spawn, hok.spawn tty k, .spawn _ _ _ _ rfl rfl hm⟩
  · exact hr.tail ⟨.tick, hok.tick m hi, .tick m 0 hc (.inl hp)⟩
  · exact hr.tail ⟨.resume, hok.resume m c hc hp, .resume _ _ c hc hm⟩

end FirstRun

end Sinux.Proc

import Mathlib.Data.List.MinMax
import Sinux.Proc.CreateFail
import Sinux.Proc.ExecClean
import Sinux.Proc.ForkCopy

/-!
# The user heap

The model:

- `sysBrk` is `SYS_BRK`. It moves `brk` and maps nothing.
- `HeapStep` is a call of the process after its `SYS_EXECVE`: a `SYS_BRK` that needs no new page, or
  a `SYS_FORK` that makes no child.

Results:

- `HeapBacked`: what `malloc` relies on. The heap starts at the end of the image and is mapped
  writable up to `brk`.
- `elfLoad_loadEnd`: `load_end` is the end of the last segment, rounded up to a page.
- `brk_answered_iff`: a request is answered properly exactly when it needs no new page.
- `heap_backed_run`: over runs of such calls the heap is backed, and a fork that makes a child breaks
  it: the child has no `brk_start`.

Out of scope: what other processes do to the memory of this one.
-/

namespace Sinux.Proc

open Function Sinux.Lib Sinux.Lib.Radix Sinux.Mm Sinux.Fs

/-- `sys_brk` by `cur`: the value returned and the kernel after. -/
def sysBrk (addr : U64) (cur : Fin maxProcs) (k : Kernel) : Int × Kernel :=
  let p := k.procTable cur
  if addr = 0 then (p.brk.toInt, k)
  else if addr < p.brkStart then (-22, k)
  else (addr.toInt, k.upd cur fun p => { p with brk := addr })

/-! ## The end of the image -/

/-- Rounded up to a page. -/
def pageRound (n : Nat) : Nat := (n + 4095) / 4096 * 4096

/-- The end of the last segment that is loaded; 0 if there is none. -/
def imageEnd (image : Image) : Nat :=
  (((phdrs image).filter fun ph => ph.Loads).map fun ph => ph.vaddr.toNat + ph.memsz.toNat).foldr
    max 0

section

variable {image : Image} {size : U64} {pml4 : U64} {s : Phys} {st st' : Load} {ph : Phdr}

theorem le_imageEnd (hph : ph ∈ phdrs image) (hl : ph.Loads) :
    ph.vaddr.toNat + ph.memsz.toNat ≤ imageEnd image := by
  refine List.le_max_of_le' 0 (List.mem_map_of_mem (List.mem_filter.mpr ⟨hph, ?_⟩)) le_rfl
  exact decide_eq_true hl

theorem imageEnd_cases (image : Image) : imageEnd image = 0 ∨
    ∃ ph ∈ phdrs image, ph.Loads ∧ imageEnd image = ph.vaddr.toNat + ph.memsz.toNat := by
  unfold imageEnd
  have hmax (l : List Nat) : l.foldr max 0 = 0 ∨ l.foldr max 0 ∈ l := by
    induction l with
    | nil => exact .inl rfl
    | cons a l ih =>
      rw [List.foldr_cons]
      rcases max_choice a (l.foldr max 0) with h | h
      · rw [h]
        exact .inr (List.mem_cons_self ..)
      · rw [h]
        exact ih.imp_right (List.mem_cons_of_mem a)
  refine (hmax _).imp_right fun h => ?_
  obtain ⟨ph, hph, he⟩ := List.mem_map.mp h
  obtain ⟨hph, hl⟩ := List.mem_filter.mp hph
  exact ⟨ph, hph, of_decide_eq_true hl, he.symm⟩

theorem loads_of_tail (h : .tail ph ∈ work image) : ph ∈ phdrs image ∧ ph.Loads := by
  obtain ⟨q, hq, hw⟩ := List.mem_flatMap.mp h
  unfold Phdr.work at hw
  by_cases hl : q.Loads ∧ ¬ q.Refused
  · rw [if_pos hl] at hw
    have heq : ph = q := by simpa using hw
    exact heq ▸ ⟨hq, hl.1⟩
  · rw [if_neg hl] at hw
    simp at hw

theorem elfLoad_loadEnd (h : (elfLoad pml4 image size s).1.valid = true)
    (hend : imageEnd image + 4095 < 2 ^ 64) :
    (elfLoad pml4 image size s).1.loadEnd.toNat = pageRound (imageEnd image) := by
  have hvend {ph : Phdr} (hph : ph ∈ phdrs image) (hl : ph.Loads) :
      ph.vend.toNat = pageRound (ph.vaddr.toNat + ph.memsz.toNat) :=
    Phdr.vend_toNat (by have := le_imageEnd hph hl; omega)
  have hvalid := validate_of_valid h
  have hall := (valid_run h).2
  have hlast : (elfLoad pml4 image size s).1.loadEnd = 0 ∨ ∃ ph ∈ phdrs image, ph.Loads ∧
      (elfLoad pml4 image size s).1.loadEnd = ph.vend := by
    rw [elfLoad_eq hvalid] at h ⊢
    cases hrun : loadRun pml4 image size s with
    | error st =>
      rw [hrun] at h
      cases h
    | ok st =>
      refine (ok_run hrun).2.2.imp_right ?_
      rintro ⟨ph, hph, heq⟩
      exact ⟨ph, (loads_of_tail hph).1, (loads_of_tail hph).2, heq⟩
  apply Nat.le_antisymm
  · rcases hlast with h0 | ⟨ph, hph, hl, heq⟩
    · rw [h0]
      exact Nat.zero_le _
    · have hle := le_imageEnd hph hl
      rw [heq, hvend hph hl]
      unfold pageRound
      omega
  · rcases imageEnd_cases image with h0 | ⟨ph, hph, hl, heq⟩
    · rw [h0]
      exact Nat.zero_le _
    · rw [heq, ← hvend hph hl]
      exact (hall ph hph).2 hl

end

/-! ## After `SYS_EXECVE` -/

/-- **The heap is backed by memory**: from the end of the image to `brk`, every address is mapped
for user mode, writable. -/
structure HeapBacked (image : Image) (k : Kernel) (i : Fin maxProcs) : Prop where
  start : (k.procTable i).brkStart.toNat = pageRound (imageEnd image)
  le : (k.procTable i).brkStart ≤ (k.procTable i).brk
  mapped : ∀ a, (k.procTable i).brkStart.toNat ≤ a → a < (k.procTable i).brk.toNat →
    UserMapped k.phys.mem (pageOf (k.procTable i).pml4) True a

/-- `cur` has just entered `image`. -/
def Execed (image : Image) (cur : Fin maxProcs) (k : Kernel) : Prop :=
  ∃ env argv envp st size entry, env.file = some (image, size) ∧ st.phys.pmm.Valid ∧
    (execve env argv envp st).result = .entered entry ∧
    k.phys = (execve env argv envp st).state.phys ∧
    k.procTable cur = (execve env argv envp st).state.proc

section

variable {env : ExecEnv} {st : ExecState} {argv envp : Option (List Str)} {entry : U64}

theorem execve_loads (h : (execve env argv envp st).result = .entered entry) :
    ∃ file buf kargv kenvp inodes heap, env.file = some file ∧
      execve env argv envp st =
        execLoad env file buf kargv kenvp inodes { st with heap := heap } := by
  cases execve_opening env argv envp st with
  | fails e _ hresult =>
    rw [h] at hresult
    cases hresult
  | loads file buf kargv kenvp inodes heap hfile _ _ _ _ ho =>
    exact ⟨file, buf, kargv, kenvp, inodes, heap, hfile, ho⟩

/-- **What a process that enters an image finds mapped.** -/
theorem execve_mapped_iff {image : Image} {size : U64} (hv : st.phys.pmm.Valid)
    (hfile : env.file = some (image, size)) (h : (execve env argv envp st).result = .entered entry)
    (hlasts : Lasts noSpace 0 (st.phys.pmm.clearBits - 1) ((callPages image).map Prod.fst)) {a : Nat}
    (ha : a < 2 ^ 47) :
    UserMapped (execve env argv envp st).state.phys.mem
      (pageOf (execve env argv envp st).state.proc.pml4) True a ↔
        MapsWritable (callMapped st image) a := by
  obtain ⟨file, buf, kargv, kenvp, inodes, heap, hfile', heq⟩ := execve_loads h
  cases hfile.symm.trans hfile'
  rw [heq] at h ⊢
  unfold execLoad at h ⊢
  rcases vmmNewPml4_cases hv env.kernelPml4 with ⟨-, he⟩ | ⟨f, hf, hne, he⟩
  · simp only [he, if_true] at h
    cases h
  rw [show vmmNewPml4 env.kernelPml4 st.phys = (pageAddr f, newSpace env.kernelPml4 f st.phys)
    from he] at h ⊢
  simp only [if_neg hne] at h ⊢
  by_cases hvalid : (elfLoad (pageAddr f) image size (newSpace env.kernelPml4 f st.phys)).1.valid = true
  · have hok := validate_of_valid hvalid
    simp only [if_pos hvalid, Process.replace, pageOf_pageAddr hf.lt]
    rw [← (callRun_eq hok _ _).2.2 hvalid]
    have hran : Ran env.kernelPml4 f st.phys image size := ran_of_lasts hv hf hlasts
    exact hran.userMapped_iff ha
  · simp only [if_neg hvalid] at h
    cases h

theorem pageRound_toNat {e : U64} {n : Nat} (he : e.toNat = pageRound n) :
    ((e + 4096 - 1) &&& ~~~4095).toNat = pageRound n := by
  have h1 : (1 : U64).toNat = 1 := rfl
  have h4096 : (4096 : U64).toNat = 4096 := rfl
  have hsum : (e + 4096 - 1).toNat = e.toNat + 4095 := by
    unfold pageRound at he
    rw [BitVec.toNat_sub, BitVec.toNat_add, h1, h4096]
    omega
  show (pageMask (e + 4096 - 1)).toNat = _
  rw [pageMask_toNat, hsum, he]
  unfold pageRound
  omega

theorem Execed.start {image : Image} {cur : Fin maxProcs} {k : Kernel} (h : Execed image cur k)
    (hend : imageEnd image + 4095 < 2 ^ 64) : HeapBacked image k cur := by
  obtain ⟨env, argv, envp, st, size, entry, hfile, hv, hresult, -, hproc⟩ := h
  obtain ⟨file, buf, kargv, kenvp, inodes, heap, hfile', heq⟩ := execve_loads hresult
  cases hfile.symm.trans hfile'
  rw [heq] at hresult hproc
  unfold execLoad at hresult hproc
  rcases vmmNewPml4_cases hv env.kernelPml4 with ⟨-, he⟩ | ⟨f, hf, hne, he⟩
  · simp only [he, if_true] at hresult
    cases hresult
  simp only [he, if_neg hne] at hresult hproc
  set r := elfLoad (pageAddr f) image size ⟨st.phys.pmm.mark f,
    update st.phys.mem f (freshPml4 env.kernelPml4 st.phys.mem f)⟩ with hr
  by_cases hvalid : r.1.valid = true
  · simp only [hvalid, if_true] at hproc
    have hround : ((r.1.loadEnd + 4096 - 1) &&& ~~~4095).toNat = pageRound (imageEnd image) :=
      pageRound_toNat (elfLoad_loadEnd hvalid hend)
    refine ⟨by rw [hproc]; exact hround, by rw [hproc]; exact BitVec.le_refl _,
      fun a hle hlt => ?_⟩
    rw [hproc] at hle hlt
    exact absurd hlt (Nat.not_lt.mpr hle)
  · simp only [if_neg hvalid] at hresult
    cases hresult

end

/-! ## `SYS_BRK` -/

/-- The request needs no page that is not mapped: it asks for `brk`, or is refused, or ends in
memory that happens to be mapped. -/
def BrkOk (addr : U64) (i : Fin maxProcs) (k : Kernel) : Prop :=
  addr = 0 ∨ addr < (k.procTable i).brkStart ∨
    ∀ a, (k.procTable i).brkStart.toNat ≤ a → a < addr.toNat →
      UserMapped k.phys.mem (pageOf (k.procTable i).pml4) True a

/-- A request is met with memory, or refused without effect. -/
def BrkAnswered (image : Image) (addr : U64) (i : Fin maxProcs) (k : Kernel) : Prop :=
  addr ≠ 0 →
    ((sysBrk addr i k).1 = addr.toInt ∧ ((sysBrk addr i k).2.procTable i).brk = addr ∧
      HeapBacked image (sysBrk addr i k).2 i) ∨
    ((sysBrk addr i k).1 < 0 ∧ ((sysBrk addr i k).2.procTable i).brk = (k.procTable i).brk)

/-- A fork that makes no child: the pages of the process are in use, and the fork stops before it
claims a slot. -/
structure ForkOk (i : Fin maxProcs) (k : Kernel) : Prop where
  valid : k.phys.pmm.Valid
  used : ∀ g, Node childOf userIdx 4 k.phys.mem {pageOf (k.procTable i).pml4} g →
    ¬ k.phys.pmm.Free g
  early : ForkStopsEarly i k

/-- A call of process `i` that meets its condition. -/
inductive HeapStep (i : Fin maxProcs) (k : Kernel) : Kernel → Prop
  | brk (addr : U64) (hok : BrkOk addr i k) : HeapStep i k (sysBrk addr i k).2
  | fork (ctx : UserCtx) (hok : ForkOk i k) : HeapStep i k (sysFork ctx i k).2

section

variable {image : Image} {i : Fin maxProcs} {addr : U64} {k k' : Kernel}

theorem sysBrk_cases (addr : U64) (i : Fin maxProcs) (k : Kernel) :
    (addr = 0 ∧ sysBrk addr i k = ((k.procTable i).brk.toInt, k)) ∨
    (addr ≠ 0 ∧ addr < (k.procTable i).brkStart ∧ sysBrk addr i k = (-22, k)) ∨
    (addr ≠ 0 ∧ (k.procTable i).brkStart ≤ addr ∧
      sysBrk addr i k = (addr.toInt, k.upd i fun p => { p with brk := addr })) := by
  unfold sysBrk
  by_cases h0 : addr = 0
  · exact .inl ⟨h0, if_pos h0⟩
  · by_cases hlt : addr < (k.procTable i).brkStart
    · exact .inr (.inl ⟨h0, hlt, by rw [if_neg h0, if_pos hlt]⟩)
    · exact .inr (.inr ⟨h0, BitVec.not_lt.mp hlt, by rw [if_neg h0, if_neg hlt]⟩)

theorem HeapBacked.move (h : HeapBacked image k i) (hle : (k.procTable i).brkStart ≤ addr)
    (hmapped : ∀ a, (k.procTable i).brkStart.toNat ≤ a → a < addr.toNat →
      UserMapped k.phys.mem (pageOf (k.procTable i).pml4) True a) :
    HeapBacked image (k.upd i fun p => { p with brk := addr }) i := by
  refine ⟨?_, ?_, fun a ha hlt => ?_⟩
  · rw [upd_self]
    exact h.start
  · rw [upd_self]
    exact hle
  · rw [upd_self] at ha hlt ⊢
    exact hmapped a ha hlt

theorem brk_answered_iff (h : HeapBacked image k i) (addr : U64) :
    BrkAnswered image addr i k ↔ BrkOk addr i k := by
  unfold BrkAnswered BrkOk
  rcases sysBrk_cases addr i k with ⟨h0, -⟩ | ⟨h0, hlt, he⟩ | ⟨h0, hle, he⟩
  · exact iff_of_true (fun hne => absurd h0 hne) (.inl h0)
  · refine iff_of_true (fun _ => .inr ?_) (.inr (.inl hlt))
    rw [he]
    exact ⟨show (-22 : Int) < 0 by decide, rfl⟩
  · rw [he, or_iff_right h0, or_iff_right (BitVec.not_lt.mpr hle)]
    have hbrk : ((k.upd i fun p => { p with brk := addr }).procTable i).brk = addr := by
      rw [upd_self]
    constructor
    · intro hans a ha hlt
      rcases hans h0 with ⟨-, -, hb⟩ | ⟨-, hsame⟩
      · have hm := hb.mapped a (by rw [upd_self]; exact ha) (by rw [upd_self]; exact hlt)
        rw [upd_self] at hm
        exact hm
      · exact h.mapped a ha (by rw [← hsame, hbrk]; exact hlt)
    · exact fun hm _ => .inl ⟨rfl, hbrk, h.move hle hm⟩

theorem HeapBacked.congr (h : HeapBacked image k i) (hproc : k'.procTable i = k.procTable i)
    (hmem : ∀ g, Node childOf userIdx 4 k.phys.mem {pageOf (k.procTable i).pml4} g →
      k'.phys.mem g = k.phys.mem g) : HeapBacked image k' i := by
  refine ⟨hproc ▸ h.start, hproc ▸ h.le, fun a hle hlt => ?_⟩
  rw [hproc] at hle hlt ⊢
  have hm := h.mapped a hle hlt
  have huser := vpageOf_user (a := BitVec.ofNat 64 a) (by rw [toNat_ofNat_low hm.low]; exact hm.low)
  have hleaf := leafEntry_congr (fun g hg => hmem g (hg.mono (Nat.le_succ 3) subset_rfl))
    (Set.mem_singleton _) huser
  exact ⟨hm.low, hleaf ▸ hm.present, hleaf ▸ hm.user, hleaf ▸ hm.writable⟩

theorem HeapBacked.step (h : HeapBacked image k i) (hstep : HeapStep i k k') :
    HeapBacked image k' i := by
  cases hstep with
  | brk addr hok =>
    rcases sysBrk_cases addr i k with ⟨-, he⟩ | ⟨-, -, he⟩ | ⟨h0, hle, he⟩
    · rwa [he]
    · rwa [he]
    · rw [he]
      exact h.move hle ((hok.resolve_left h0).resolve_left (BitVec.not_lt.mpr hle))
  | fork ctx hok =>
    have hsame := fork_no_trace ctx hok.valid hok.used hok.early
    exact h.congr hsame.process hsame.space

theorem HeapBacked.run (h : HeapBacked image k i)
    (hrun : Relation.ReflTransGen (HeapStep i) k k') : HeapBacked image k' i := by
  induction hrun with
  | refl => exact h
  | tail _ hstep ih => exact ih.step hstep

/-- The heap of a child is not where the image ends, unless the image has no segment. -/
theorem sysFork_child_heap {ctx : UserCtx} (hlive : (k.procTable i).state ≠ .unused)
    (hok : 0 ≤ (sysFork ctx i k).1) {j : Fin maxProcs} (hslot : freeSlot k = some j)
    (hb : HeapBacked image (sysFork ctx i k).2 j) : imageEnd image = 0 := by
  obtain ⟨pml4, t, hclone⟩ : ∃ pml4 t, vmmClonePml4 k.kernelPml4 (k.procTable i).pml4 k.phys =
    (pml4, t) := ⟨_, _, rfl⟩
  obtain ⟨hne, j', k', hcreate, -⟩ := sysFork_nonneg hclone hok
  obtain rfl : j = j' := by
    have h := (procCreate_claims (k := k.withPhys t) hslot).2
    rw [hcreate] at h
    exact (Option.some.inj (h.resolve_left nofun)).symm
  have hij : i ≠ j := fun e => hlive (e ▸ (freeSlot_some hslot).2)
  have hzero := (sysFork_heap ctx hclone hne hslot hcreate hij).brkStart
  have hstart := hb.start
  rw [hzero] at hstart
  unfold pageRound at hstart
  have h0 : (0 : U64).toNat = 0 := rfl
  omega

end

/-- **Heaps over runs.** After an `SYS_EXECVE`, in every state reached by calls that meet their
conditions, the heap is backed by memory. A further request is answered properly exactly when it needs
no new page, and the child of a fork that succeeds has a heap only if the image had no segment. -/
theorem heap_backed_run {image : Image} {cur : Fin maxProcs} {k₀ k : Kernel}
    (h : Execed image cur k₀) (hend : imageEnd image + 4095 < 2 ^ 64)
    (hrun : Relation.ReflTransGen (HeapStep cur) k₀ k) :
    HeapBacked image k cur ∧ (∀ addr, BrkAnswered image addr cur k ↔ BrkOk addr cur k) ∧
      ∀ ctx i, (k.procTable cur).state ≠ .unused → freeSlot k = some i →
        0 ≤ (sysFork ctx cur k).1 → HeapBacked image (sysFork ctx cur k).2 i →
        imageEnd image = 0 := by
  have hback := (h.start hend).run hrun
  exact ⟨hback, fun addr => brk_answered_iff hback addr,
    fun ctx i hlive hslot hok => sysFork_child_heap hlive hok hslot⟩

/-! A process that has just entered a file. -/

def heapStart (s : Phys) : ExecState :=
  { execStart with
    phys := s
    proc := { Process.zero with pid := 1, state := .running, pml4 := 0x2000 } }

def heapEntered (s : Phys) (image : Image) (size : U64) : ExecOutcome :=
  execve (execEnv image size) none none (heapStart s)

def heapKernel (s : Phys) (image : Image) (size : U64) : Kernel :=
  { bootKernel with
    phys := (heapEntered s image size).state.phys
    procTable := update (fun _ => Process.zero) 1 (heapEntered s image size).state.proc
    currentProc := some 1 }

theorem heapKernel_proc (s : Phys) (image : Image) (size : U64) :
    (heapKernel s image size).procTable 1 = (heapEntered s image size).state.proc := by
  simp only [heapKernel, update_self]

theorem heapKernel_execed {s : Phys} {image : Image} {size entry : U64} (hv : s.pmm.Valid)
    (h : (heapEntered s image size).result = .entered entry) :
    Execed image 1 (heapKernel s image size) :=
  ⟨execEnv image size, none, none, heapStart s, size, entry, rfl, hv, h, rfl,
    heapKernel_proc s image size⟩

theorem nine_le : 9 ≤ bitmapMaxPages := by decide

/-- Nine pages: enough for the file below and one page of its stack. -/
def ninePages : Phys := ⟨⟨emptySpace.pmm.bitmap, 9, 6, nine_le⟩, emptySpace.mem⟩

/-- A file whose only page lies right below the user stack. -/
def belowStack : Image := imageOf (ehdrBytes 64 1 ++ phdrBytes 6 120 0x7FFFFFCFF000 0 0x1000)

/-- It has just been entered, and no page is left. -/
def entered : Kernel := heapKernel ninePages belowStack 120

theorem entered_proc : (entered.procTable 1).brkStart = 0x7FFFFFD00000 ∧
    (entered.procTable 1).pml4 = 0x3000 ∧ entered.phys.pmm.freePages = 0 := by decide +kernel

theorem ninePages_valid : ninePages.pmm.Valid := ⟨by decide, by decide⟩

theorem entered_result : (heapEntered ninePages belowStack 120).result = .entered 0x400000 := by
  decide +kernel

theorem entered_pmm : entered.phys.pmm.Valid := ⟨by decide +kernel, by decide +kernel⟩

theorem loadCost_take_mono (m : Mem) (r : Nat) (l : List U64) {k k' : Nat} (h : k ≤ k') :
    loadCost m r (l.take k) ≤ loadCost m r (l.take k') := by
  have hsub : l.take k ⊆ l.take k' := fun x hx => List.mem_of_mem_take (i := k) (by
    rwa [List.take_take, Nat.min_eq_left h])
  have hlow : lowPages (l.take k) ⊆ lowPages (l.take k') := fun v hv => by
    simp only [lowPages, List.mem_toFinset, List.mem_map, List.mem_filter] at hv ⊢
    obtain ⟨a, ⟨ha, hlt⟩, rfl⟩ := hv
    exact ⟨a, ⟨hsub ha, hlt⟩, rfl⟩
  refine Nat.add_le_add (by simp only [List.length_take]; omega) (Finset.card_le_card ?_)
  exact Finset.filter_subset_filter _ (Finset.biUnion_subset_biUnion_of_subset_left _ hlow)

/-- Memory lasts for two pages: the one of the file, and the lowest of the stack. -/
theorem belowStack_lasts : Lasts noSpace 0 5 ((callPages belowStack).map Prod.fst) := by
  intro k hk hlt
  have htwo : loadCost noSpace 0 (((callPages belowStack).map Prod.fst).take 2) = 5 := by
    decide +kernel
  have hk2 : k < 2 := by
    by_contra hge
    have hmono := loadCost_take_mono noSpace 0 ((callPages belowStack).map Prod.fst)
      (Nat.not_lt.mp hge)
    omega
  obtain rfl | rfl : k = 0 ∨ k = 1 := by omega
  · exact ⟨by revert hk; decide +kernel, by decide +kernel⟩
  · exact ⟨by revert hk; decide +kernel, htwo.le⟩

/-- The lowest page of its stack. -/
theorem entered_mapped {a : Nat} (hle : 0x7FFFFFD00000 ≤ a) (hlt : a < 0x7FFFFFD01000) :
    UserMapped entered.phys.mem (pageOf (entered.procTable 1).pml4) True a := by
  have hlow : a < 2 ^ 47 := by omega
  have hpage : vpageOf (BitVec.ofNat 64 a) = vpageOf 0x7FFFFFD00000 := by
    have hbase : (0x7FFFFFD00000 : U64).toNat = 0x7FFFFFD00000 := rfl
    rw [vpageOf_eq_iff (by rwa [toNat_ofNat_low hlow]) (by decide), toNat_ofNat_low hlow, hbase]
    omega
  have hmaps : MapsWritable (callMapped (heapStart ninePages) belowStack) a := by
    unfold MapsWritable
    rw [hpage]
    decide +kernel
  have hbits : ninePages.pmm.clearBits - 1 = 5 := by decide
  have hlasts : Lasts noSpace 0 (ninePages.pmm.clearBits - 1)
      ((callPages belowStack).map Prod.fst) := hbits ▸ belowStack_lasts
  rw [show entered.procTable 1 = (heapEntered ninePages belowStack 120).state.proc from
    heapKernel_proc ..]
  exact (execve_mapped_iff ninePages_valid rfl entered_result hlasts hlow).mpr hmaps

theorem entered_brk : BrkOk 0x7FFFFFD01000 1 entered :=
  .inr (.inr fun a hle hlt => by
    rw [entered_proc.1] at hle
    exact entered_mapped hle hlt)

theorem sysBrk_phys (addr : U64) (i : Fin maxProcs) (k : Kernel) :
    (sysBrk addr i k).2.phys = k.phys := by
  rcases sysBrk_cases addr i k with ⟨-, he⟩ | ⟨-, -, he⟩ | ⟨-, -, he⟩ <;> rw [he]
  rfl

/-- With no page left a fork makes no child. -/
theorem forkOk_of_full {i : Fin maxProcs} {k : Kernel} (hv : k.phys.pmm.Valid)
    (hfull : k.phys.pmm.freePages = 0) : ForkOk i k := by
  have hclear : k.phys.pmm.clearBits = 0 := by rw [← hv.counter, hfull]; rfl
  refine ⟨hv, fun g _ hg => ?_, .inr (.inl (by rw [hfull]; rfl)), fun h => ?_⟩
  · have hpos := Pmm.clearBits_pos hg
    omega
  · rw [hfull] at h
    exact absurd h (Nat.not_le.mpr (Nat.add_pos_left Nat.one_pos _))

/-- It moves `brk` by the page of the stack, and then finds no memory for a fork. -/
theorem heap_backed_run_belowStack :
    let k := (sysFork ⟨0, 0, 0, 0⟩ 1 (sysBrk 0x7FFFFFD01000 1 entered).2).2
    HeapBacked belowStack k 1 ∧ (k.procTable 1).brk = 0x7FFFFFD01000 := by
  intro k
  have hexec : Execed belowStack 1 entered := heapKernel_execed ninePages_valid entered_result
  have hok : ForkOk 1 (sysBrk 0x7FFFFFD01000 1 entered).2 :=
    forkOk_of_full (by rw [sysBrk_phys]; exact entered_pmm) (by rw [sysBrk_phys]; exact entered_proc.2.2)
  have hrun : Relation.ReflTransGen (HeapStep 1) entered k :=
    (Relation.ReflTransGen.single (.brk _ entered_brk)).tail (.fork _ hok)
  refine ⟨(heap_backed_run hexec (by decide +kernel) hrun).1, ?_⟩
  rw [(fork_no_trace ⟨0, 0, 0, 0⟩ hok.valid hok.used hok.early).process]
  rcases sysBrk_cases 0x7FFFFFD01000 1 entered with ⟨h0, -⟩ | ⟨-, hlt, -⟩ | ⟨-, -, he⟩
  · cases h0
  · rw [entered_proc.1] at hlt
    exact absurd hlt (by decide)
  · rw [he, upd_self]

/-- It asks for one page: it gets the address, and no memory. -/
theorem brk_maps_nothing :
    let k := heapKernel emptySpace lowSegment 121
    Execed lowSegment 1 k ∧ (sysBrk 0x402000 1 k).1 = 0x402000 ∧
    ((sysBrk 0x402000 1 k).2.procTable 1).brkStart = 0x401000 ∧
    ((sysBrk 0x402000 1 k).2.procTable 1).brk = 0x402000 ∧
    ¬ UserMapped (sysBrk 0x402000 1 k).2.phys.mem
      (pageOf ((sysBrk 0x402000 1 k).2.procTable 1).pml4) True 0x401000 := by
  refine ⟨heapKernel_execed emptySpace_tables.valid
    (by decide +kernel : _ = ExecResult.entered 0x400000), by decide +kernel,
    by decide +kernel, by decide +kernel, fun hm => ?_⟩
  exact hm.present (by decide +kernel)

end Sinux.Proc

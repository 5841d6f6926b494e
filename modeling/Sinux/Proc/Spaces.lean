import Sinux.Proc.Spawn
import Sinux.Proc.KernelStack
import Sinux.Mm.AddressSpace

/-!
# The memory of processes

What creating a process does to memory: a page for its stack, a PML4, the pages of its user stack,
a copy of another address space, and the first frame. `P` holds for the pages the allocator can hand
out; the rest was taken at boot. The first frame goes to the page after the one that was obtained for
the stack; `P` never holds for two neighbours, so that page belongs to no address space.
-/

namespace Sinux.Proc

open Function Sinux.Lib Sinux.Lib.Radix Sinux.Mm

/-- The address spaces `roots` are a forest, and it is made of pages the allocator handed out. -/
structure Spaces (P : Nat → Prop) (roots : Set Nat) (s : Phys) : Prop where
  tables : Tables 4 roots s
  node : ∀ x, Node childOf userIdx 4 s.mem roots x → P x
  free : ∀ x, s.pmm.Free x → P x

/-- At most `n` pages were taken, and only they and pages of the address spaces were written. -/
structure Grows (roots roots' : Set Nat) (n : Nat) (s s' : Phys) : Prop where
  tables : Tables 4 roots' s'
  used : ∀ x, s.pmm.Used x → s'.pmm.Used x
  free : ∀ x, s'.pmm.Free x → s.pmm.Free x
  bits : s.pmm.clearBits ≤ s'.pmm.clearBits + n
  sub : roots ⊆ roots'
  node : ∀ x, Node childOf userIdx 4 s'.mem roots' x →
    Node childOf userIdx 4 s.mem roots x ∨ s.pmm.Free x
  mem : ∀ x, ¬ s.pmm.Free x → ¬ Node childOf userIdx 4 s.mem roots x → s'.mem x = s.mem x
  kernelHalf : ∀ r ∈ roots, ∀ i : Fin 512, ¬ userIdx i → s'.mem r i = s.mem r i

section Grows

variable {P : Nat → Prop} {roots roots' roots'' : Set Nat} {n n' : Nat} {s s' s'' : Phys}

theorem Grows.refl (h : Tables 4 roots s) : Grows roots roots 0 s s :=
  ⟨h, fun _ => id, fun _ => id, le_refl _, subset_rfl, fun _ => Or.inl, fun _ _ _ => rfl,
    fun _ _ _ _ => rfl⟩

theorem Grows.trans (h : Grows roots roots' n s s') (h' : Grows roots' roots'' n' s' s'') :
    Grows roots roots'' (n + n') s s'' where
  tables := h'.tables
  used := fun x hx => h'.used x (h.used x hx)
  free := fun x hx => h.free x (h'.free x hx)
  bits := by
    have := h.bits
    have := h'.bits
    omega
  sub := h.sub.trans h'.sub
  node := fun x hx => (h'.node x hx).elim (h.node x) fun hf => .inr (h.free x hf)
  mem := fun x hf hn => by
    have hn' : ¬ Node childOf userIdx 4 s'.mem roots' x := fun hx =>
      (h.node x hx).elim hn hf
    rw [h'.mem x (fun hx => hf (h.free x hx)) hn', h.mem x hf hn]
  kernelHalf := fun r hr i hi => by
    rw [h'.kernelHalf r (h.sub hr) i hi, h.kernelHalf r hr i hi]

theorem Grows.spaces (h : Grows roots roots' n s s') (hs : Spaces P roots s) :
    Spaces P roots' s' :=
  ⟨h.tables, fun x hx => (h.node x hx).elim (hs.node x) (hs.free x),
    fun x hx => hs.free x (h.free x hx)⟩

/-! ## The operations -/

theorem createdPhys_mem {g f x : Nat} (hg : s.pmm.Free g) (hf : (s.pmm.mark g).Free f)
    (hx : ¬ s.pmm.Free x) (kernelPml4 : U64) :
    (createdPhys kernelPml4 g f s).mem x = s.mem x := by
  have hxf : x ≠ f := fun e => hx (e ▸ (Pmm.free_mark.mp hf).1)
  have hxg : x ≠ g := fun e => hx (e ▸ hg)
  unfold createdPhys
  dsimp only
  rw [update_of_ne hxf, update_of_ne hxg]

theorem grows_created (h : Tables 4 roots s) {g f : Nat} (hg : s.pmm.Free g)
    (hf : (s.pmm.mark g).Free f) (kernelPml4 : U64) :
    Grows roots (insert f roots) 2 s (createdPhys kernelPml4 g f s) := by
  obtain ⟨hfill, hmem⟩ := h.fill hg fun _ => 0
  obtain ⟨hnew, hnode⟩ := hfill.newRoot hf kernelPml4
  have htakes : s.pmm.Takes [g, f] ((s.pmm.mark g).mark f) := .cons hg (.single hf)
  have hnode' (x : Nat) : Node childOf userIdx 4 (createdPhys kernelPml4 g f s).mem
      (insert f roots) x ↔ Node childOf userIdx 4 s.mem roots x ∨ x = f := by
    rw [← Node.congr hmem (Nat.le_succ 4)]
    exact hnode x
  refine ⟨hnew, fun x => htakes.used_mono, fun x hx => ((htakes.free_iff x).mp hx).1,
    (htakes.clearBits).le, Set.subset_insert f roots, fun x hx => ?_, fun x hx _ => ?_,
    fun r hr i _ => ?_⟩
  · rcases (hnode' x).mp hx with hx | rfl
    · exact .inl hx
    · exact .inr (Pmm.free_mark.mp hf).1
  · exact createdPhys_mem hg hf hx kernelPml4
  · rw [createdPhys_mem hg hf (Pmm.not_free_of_used (h.used r (Node.root hr)))]

theorem missing_le (m : Mem) (r : Nat) (v : VPage) : missing m r v ≤ 3 := by
  rw [missing_eq_card]
  refine (Finset.card_filter_le _ _).trans ((List.toFinset_card_le _).trans ?_)
  exact le_refl 3

theorem mappedPages_insert {m m' : Mem} {r : Nat} {v : VPage} {e : U64}
    (h : ∀ w : VPage, w.User → leafEntry m' r w = if w = v then e else leafEntry m r w) :
    mappedPages m' r ⊆ insert v (mappedPages m r) := by
  intro w hw
  obtain ⟨hu, hw⟩ := mem_mappedPages.mp hw
  rw [h w hu] at hw
  by_cases hwv : w = v
  · exact hwv ▸ Finset.mem_insert_self ..
  · rw [if_neg hwv] at hw
    exact Finset.mem_insert_of_mem (mem_mappedPages.mpr ⟨hu, hw⟩)

theorem mappedPages_congr {m m' : Mem} {r : Nat} (hr : r ∈ roots)
    (hm : ∀ x, Node childOf userIdx 4 m roots x → m' x = m x) :
    mappedPages m' r = mappedPages m r := by
  ext v
  rw [mem_mappedPages, mem_mappedPages]
  refine and_congr_right fun hv => ?_
  rw [leafEntry_congr (fun x hx => hm x (hx.mono (Nat.le_succ 3) subset_rfl)) hr hv]

/-- **A page taken, filled with `c` and mapped.** -/
theorem grows_map (h : Tables 4 roots s) {pml4 va : U64} (hr : pageOf pml4 ∈ roots)
    (hv : (vpageOf va).User) (flags : U64) (hnx : flags &&& vmmNx = 0)
    (hroom : 4 ≤ s.pmm.clearBits) (c : Fin 512 → U64) :
    ∃ g, s.pmm.Free g ∧ s.alloc = (pageAddr g, { s with pmm := s.pmm.mark g }) ∧ pageAddr g ≠ 0 ∧
      let s' := vmmMap pml4 va (pageAddr g) flags ⟨s.pmm.mark g, update s.mem g c⟩
      Grows roots roots 4 s s' ∧
      mappedPages s'.mem (pageOf pml4) ⊆
        insert (vpageOf va) (mappedPages s.mem (pageOf pml4)) := by
  rcases Phys.alloc_cases h.valid with ⟨hnone, -⟩ | ⟨g, hg, -, hne, he⟩
  · obtain ⟨g, hg⟩ := exists_free_of_clearBits_pos (s := s.pmm) (by omega)
    exact absurd hg (hnone g)
  have hmiss := missing_le s.mem (pageOf pml4) (vpageOf va)
  obtain ⟨M, hm⟩ := vmmMap_frame h hr hv hnx hg c (by omega)
  have hlen : (g :: M).length ≤ 4 := by
    rw [List.length_cons, hm.count]
    omega
  have hbits := hm.takes.clearBits
  refine ⟨g, hg, he, hne, ⟨hm.tables, fun x => hm.takes.used_mono,
    fun x hx => ((hm.takes.free_iff x).mp hx).1, by omega, subset_rfl, fun x hx => ?_,
    fun x hf hn => ?_, hm.kernelHalf⟩, ?_⟩
  · exact (hm.sub x hx).imp_right (hm.takes.free_of_mem x)
  · exact hm.mem x (fun hx => hn (hx.mono (Nat.le_succ 3) subset_rfl))
      fun hx => hf (hm.takes.free_of_mem x hx)
  · refine mappedPages_insert (e := leafOf (pageAddr g) flags) fun w hw => ?_
    rw [hm.leaf _ hr w hw]
    simp only [true_and]

theorem user_of_lt {virt : U64} (h : virt.toNat < 2 ^ 47) : (vpageOf virt).User := by
  show (virt >>> 39 &&& 0x1FF#64).toNat < 256
  rw [idx_toNat]
  omega

theorem grows_mapStackLoop {pml4 : U64} (hr : pageOf pml4 ∈ roots) (n : Nat) {va : U64}
    (h : Tables 4 roots s) (hva : va.toNat + 4096 * n ≤ 2 ^ 47)
    (hroom : 4 * n ≤ s.pmm.clearBits) :
    Grows roots roots (4 * n) s (mapStackLoop pml4 n va s) ∧
      (mappedPages (mapStackLoop pml4 n va s).mem (pageOf pml4)).card ≤
        (mappedPages s.mem (pageOf pml4)).card + n := by
  induction n generalizing va s with
  | zero => exact ⟨Grows.refl h, le_refl _⟩
  | succ n ih =>
    have hv : (vpageOf va).User := user_of_lt (by omega)
    obtain ⟨g, hg, he, hne, hgrow, hmap⟩ :=
      grows_map h hr hv 7 (by decide) (by omega) fun _ => 0
    have hzero : (⟨s.pmm.mark g, s.mem⟩ : Phys).kmemsetPage (pageAddr g) =
        ⟨s.pmm.mark g, update s.mem g fun _ => 0⟩ := by
      rw [Phys.kmemsetPage, pageOf_pageAddr hg.lt]
    have hstep : mapStackLoop pml4 (n + 1) va s = mapStackLoop pml4 n (va + 4096)
        (vmmMap pml4 va (pageAddr g) 7 ⟨s.pmm.mark g, update s.mem g fun _ => 0⟩) := by
      simp only [mapStackLoop, he, if_neg hne, hzero]
    have hnext : (va + 4096).toNat = va.toNat + 4096 := by
      rw [BitVec.toNat_add]
      show (va.toNat + 4096) % 2 ^ 64 = _
      omega
    have hbits := hgrow.bits
    obtain ⟨hgrow', hcard⟩ := ih hgrow.tables
      (show (va + 4096).toNat + 4096 * n ≤ 2 ^ 47 by omega) (by omega)
    rw [hstep]
    constructor
    · have htrans := hgrow.trans hgrow'
      rwa [show 4 + 4 * n = 4 * (n + 1) by omega] at htrans
    · have hins := (Finset.card_le_card hmap).trans (Finset.card_insert_le _ _)
      omega

theorem Spaces.mono (h : Spaces P roots' s) (hsub : roots ⊆ roots') : Spaces P roots s := by
  exact ⟨h.tables.mono (le_refl 4) hsub, fun x hx => h.node x (hx.mono (le_refl 4) hsub), h.free⟩

theorem pushWords_pmm (sp : U64) (ws : List U64) (s : Phys) : (pushWords sp ws s).2.pmm = s.pmm := by
  unfold pushWords
  induction ws generalizing sp s with
  | nil => rfl
  | cons w ws ih => exact ih _ _

/-- The words below the end of a stack go to the page after the one it was given. -/
theorem pushWords_stack {g : Nat} (hg : g + 2 < 2 ^ 52) {ws : List U64} (hws : ws.length ≤ 512)
    (s : Phys) {x : Nat} (hx : x ≠ g + 1) :
    (pushWords (pageAddr g + kstackSize) ws s).2.mem x = s.mem x := by
  have hsp : (pageAddr g + kstackSize).toNat = (g + 1) * 4096 + 8 * 512 := by
    rw [BitVec.toNat_add, pageAddr_toNat (by omega), show kstackSize.toNat = 8192 from rfl]
    omega
  exact (pushWords_spec (by omega) ws (le_refl 512) hws hsp s).1 x hx

theorem Spaces.push (h : Spaces P roots s) (hP : ∀ x, P x → ¬ P (x + 1)) {g : Nat}
    (hg : g + 2 < 2 ^ 52) (hPg : P g) {ws : List U64} (hws : ws.length ≤ 512) :
    Spaces P roots (pushWords (pageAddr g + kstackSize) ws s).2 := by
  have hmem (x : Nat) (hx : Node childOf userIdx 4 s.mem roots x) :
      (pushWords (pageAddr g + kstackSize) ws s).2.mem x = s.mem x :=
    pushWords_stack hg hws s fun e => hP g hPg (e ▸ h.node x hx)
  have hpmm := pushWords_pmm (pageAddr g + kstackSize) ws s
  refine ⟨h.tables.frame (Nat.le_succ 4) (hpmm ▸ h.tables.valid) hmem fun x hx => ?_,
    fun x hx => h.node x ((Node.congr hmem (Nat.le_succ 4)).mp hx), fun x hx => ?_⟩
  · rw [hpmm]
    exact h.tables.used x hx
  · rw [hpmm] at hx
    exact h.free x hx

theorem Spaces.destroy (h : Spaces P roots s) {pml4 : U64} (hr : pageOf pml4 ∈ roots) :
    Spaces P (roots \ {pageOf pml4}) (vmmDestroyPml4 pml4 s) ∧
    (vmmDestroyPml4 pml4 s).mem = s.mem ∧
    s.pmm.clearBits ≤ (vmmDestroyPml4 pml4 s).pmm.clearBits := by
  obtain ⟨hnd, hu, heq, ht⟩ := h.tables.destroy hr
  obtain ⟨-, htot, hbit⟩ := freeAll_spec hnd h.tables.valid hu
  have hmem : (vmmDestroyPml4 pml4 s).mem = s.mem := by rw [heq, Phys.freeAll_mem]
  rw [← heq] at htot hbit
  refine ⟨⟨ht, fun x hx => ?_, fun x hx => ?_⟩, hmem, ?_⟩
  · rw [hmem] at hx
    exact h.node x (hx.mono (le_refl 4) Set.sdiff_subset)
  · obtain ⟨hlt, hclear⟩ := hx
    rw [hbit] at hclear
    by_cases hL : x ∈ spacePages s.mem (pageOf pml4)
    · exact h.node x ((mem_spacePages.mp hL).mono (le_refl 4) (Set.singleton_subset_iff.mpr hr))
    · rw [decide_eq_false hL, Bool.not_false, Bool.true_and] at hclear
      exact h.free x ⟨htot ▸ hlt, hclear⟩
  · unfold Pmm.clearBits PackedBits.clearCount
    rw [htot]
    refine Nat.count_mono_left fun x _ hx => ?_
    rw [← bmTest_eq] at hx ⊢
    rw [hbit, hx, Bool.and_false]

theorem grows_clone (h : Tables 4 roots s) {src : U64} (hr : pageOf src ∈ roots)
    (hroom : cloneCost (mappedPages s.mem (pageOf src)) ≤ s.pmm.clearBits) (kernelPml4 : U64) :
    ∃ f t, vmmClonePml4 kernelPml4 src s = (pageAddr f, t) ∧ s.pmm.Free f ∧
      Grows roots (insert f roots) (cloneCost (mappedPages s.mem (pageOf src))) s t ∧
      (∀ x, Node childOf userIdx 4 s.mem roots x → t.mem x = s.mem x) ∧
      (∀ x, Node childOf userIdx 4 t.mem {f} x → s.pmm.Free x) ∧
      ∀ i, ¬ userIdx i → t.mem f i = freshPml4 kernelPml4 s.mem f i := by
  have hsrc : ∀ g, Node childOf userIdx 4 s.mem {pageOf src} g → ¬ s.pmm.Free g :=
    fun g hg => Pmm.not_free_of_used
      ((h.root hr).used g hg)
  obtain ⟨f, L, t, he, hf, hc⟩ : ∃ f L t, vmmClonePml4 kernelPml4 src s = (pageAddr f, t) ∧
      s.pmm.Free f ∧ Cloned kernelPml4 s (pageOf src) f _ L t :=
    vmmClonePml4_spec (fun _ => mem_mappedPages) hsrc h.valid hroom rfl
  have hold (x : Nat) (hx : Node childOf userIdx 4 s.mem roots x) : t.mem x = s.mem x :=
    hc.mem x (hc.not_mem_of_not_free (Pmm.not_free_of_used (h.used x hx)))
  have hnew (x : Nat) (hx : Node childOf userIdx 4 t.mem {f} x) : s.pmm.Free x :=
    hc.takes.free_of_mem x ((hc.node x).mp hx)
  have hbits := hc.takes.clearBits
  rw [hc.count] at hbits
  refine ⟨f, t, he, hf, ⟨hc.union h, fun x => hc.takes.used_mono,
    fun x hx => ((hc.takes.free_iff x).mp hx).1, hbits.le, Set.subset_insert f roots, fun x hx => ?_,
    fun x hx _ => hc.mem x (hc.not_mem_of_not_free hx), fun r hr' i _ => ?_⟩, hold, hnew,
    hc.kernelHalf⟩
  · rw [Set.insert_eq] at hx
    rcases Node.union_iff.mp hx with hx | hx
    · exact .inr (hnew x hx)
    · exact .inl ((Node.congr hold (Nat.le_succ 4)).mp hx)
  · rw [hold r (Node.root hr')]

end Grows

/-! ## `sys_fork` and `proc_spawn_init` -/

section Create

variable {P : Nat → Prop} (hP : ∀ x, P x → ¬ P (x + 1)) {roots : Set Nat}

/-- What a `sys_fork` by `cur` that finds a slot and enough pages does; `c` is the page of the
child's PML4. -/
structure Forked (P : Nat → Prop) (roots : Set Nat) (n : Nat) (cur i : Fin maxProcs) (c : Nat)
    (m m' : Machine) : Prop where
  claims : Claims i .ready (schedAdd i m.kernel).runQueue m.kernel m'.kernel
  frame : ClaimFrame i .fresh m m'
  pml4 : (m'.kernel.procTable i).pml4 = pageAddr c
  ppid : (m'.kernel.procTable i).ppid = m'.pid cur
  fresh : m.kernel.phys.pmm.Free c
  spaces : Spaces P (insert c roots) m'.kernel.phys
  bits : m.kernel.phys.pmm.clearBits ≤ m'.kernel.phys.pmm.clearBits + n
  /-- The address spaces that were there keep their contents. -/
  mem : ∀ x, Node childOf userIdx 4 m.kernel.phys.mem roots x →
    m'.kernel.phys.mem x = m.kernel.phys.mem x

/-- What `sys_fork` does once the copy in page `c` is made and there are pages `g` and `f` for
`proc_create`; `t` is the memory with the copy. -/
structure ForkedIn (ctx : UserCtx) (cur i : Fin maxProcs) (c g f : Nat) (t : Phys)
    (m m' : Machine) : Prop where
  claims : Claims i .ready (schedAdd i m.kernel).runQueue m.kernel m'.kernel
  frame : ClaimFrame i .fresh m m'
  pml4 : (m'.kernel.procTable i).pml4 = pageAddr c
  ppid : (m'.kernel.procTable i).ppid = m'.pid cur
  kstack : (m'.kernel.procTable i).kstack = pageAddr g
  alloc : t.alloc.1 = pageAddr g
  free_stack : t.pmm.Free g
  free_pml4 : (t.pmm.mark g).Free f
  behind : g + 1 = f ∨ t.pmm.Used (g + 1)
  phys : m'.kernel.phys = (pushWords (pageAddr g + kstackSize)
    (switchFrame ctx.stub ctx.rip ctx.rsp ctx.rflags)
    (createdPhys m.kernel.kernelPml4 g f t)).2

theorem fork_eq {i cur : Fin maxProcs} {m : Machine} {c : Nat} {t : Phys}
    (hclone : vmmClonePml4 m.kernel.kernelPml4 (m.kernel.procTable cur).pml4 m.kernel.phys =
      (pageAddr c, t)) (hc0 : pageAddr c ≠ 0) (hslot : freeSlot m.kernel = some i)
    (hv : t.pmm.Valid) (hroom : 2 ≤ t.pmm.clearBits) (ctx : UserCtx) :
    ∃ g f, ForkedIn ctx cur i c g f t m (m.fork ctx cur) := by
  obtain ⟨g, f, k', hcreate, hk'⟩ := procCreate_ok (k := m.kernel.withPhys t) hslot hv hroom
  have hclaims := claims_of_procCreate hslot hcreate
  have hadd := sysFork_claims ctx hclone hc0 hcreate hclaims
  have hcreated : k'.phys = createdPhys m.kernel.kernelPml4 g f t := hk'.phys
  -- the child before its first frame is built
  let child (p : Process) : Process := { p with
    pml4 := pageAddr c, ppid := (k'.procTable cur).pid, brk := (k'.procTable cur).brk,
    cwd := (k'.procTable cur).cwd }
  let k₃ := inheritFds 64 i cur (k'.upd i child)
  have hself : (k'.upd i child).procTable i = child (k'.procTable i) := upd_self
  have hfield {β : Type} (h : Process → β) (hfds : ∀ (p : Process) fds,
      h { p with fds := fds } = h p) : h (k₃.procTable i) = h (child (k'.procTable i)) :=
    (inheritFds_field 64 cur hfds).trans (congrArg h hself)
  have hstack : (k₃.procTable i).kstack = pageAddr g :=
    (hfield Process.kstack fun _ _ => rfl).trans hk'.kstack
  have hpid : (k₃.procTable cur).pid = (k'.procTable cur).pid :=
    (inheritFds_field 64 cur fun _ _ => rfl).trans (upd_field fun _ => rfl)
  let frame := switchFrame ctx.stub ctx.rip ctx.rsp ctx.rflags
  have hfork : (sysFork ctx cur m.kernel).2 = schedAdd i (pushFrame i frame k₃) := by
    simp only [sysFork, hclone, if_neg hc0, hcreate]
    rfl
  have hphys : (pushFrame i frame k₃).phys =
      (pushWords (pageAddr g + kstackSize) frame k'.phys).2 := by
    rw [← hstack]
    rfl
  have hm : m.fork ctx cur = (m.withKernel (sysFork ctx cur m.kernel).2).claim (some i) .fresh := by
    simp only [Machine.fork, hclone, if_neg hc0, hslot, hcreate]
    rfl
  have htab : (m.fork ctx cur).kernel.procTable = (pushFrame i frame k₃).procTable := by
    rw [hm]
    exact (congrArg Kernel.procTable hfork).trans schedAdd_procTable
  have hpush {β : Type} (h : Process → β) (hrsp : ∀ (p : Process) rsp,
      h { p with rsp := rsp } = h p) (j : Fin maxProcs) :
      h ((m.fork ctx cur).kernel.procTable j) = h (k₃.procTable j) := by
    rw [htab]
    exact pushFrame_field frame hrsp
  refine ⟨g, f, by rw [hm]; exact hadd, by rw [hm]; exact claim_frame i .fresh m _, ?_, ?_, ?_,
    hk'.alloc, hk'.free_stack, hk'.free_pml4, hk'.behind, ?_⟩
  · exact (hpush Process.pml4 (fun _ _ => rfl) i).trans (hfield Process.pml4 fun _ _ => rfl)
  · exact (hpush Process.ppid (fun _ _ => rfl) i).trans ((hfield Process.ppid fun _ _ => rfl).trans
      ((hpush Process.pid (fun _ _ => rfl) cur).trans hpid).symm)
  · exact (hpush Process.kstack (fun _ _ => rfl) i).trans hstack
  · rw [← hcreated, hm, ← hphys]
    exact (congrArg Kernel.phys hfork).trans schedAdd_phys

theorem stack_lt {t : Phys} {g : Nat} (hg : t.pmm.Free g) : g + 2 < 2 ^ 52 := by
  have := hg.1
  have := t.pmm.total_le
  unfold bitmapMaxPages at this
  omega

include hP in
theorem fork_ok {i cur : Fin maxProcs} {m : Machine} (hs : Spaces P roots m.kernel.phys)
    (hr : pageOf (m.kernel.procTable cur).pml4 ∈ roots) (hslot : freeSlot m.kernel = some i)
    {n : Nat} (hn : cloneCost (mappedPages m.kernel.phys.mem
      (pageOf (m.kernel.procTable cur).pml4)) + 2 ≤ n) (hroom : n ≤ m.kernel.phys.pmm.clearBits)
    (ctx : UserCtx) : ∃ c, Forked P roots n cur i c m (m.fork ctx cur) := by
  obtain ⟨c, t, hclone, hc, hgrow, hold, -, -⟩ :=
    grows_clone hs.tables hr (by omega) m.kernel.kernelPml4
  have ht := hgrow.spaces hs
  have hbits := hgrow.bits
  have hc0 : pageAddr c ≠ 0 := fun h0 =>
    hs.tables.valid.free_ne_zero hc ((pageAddr_eq_zero hc.lt).mp h0)
  obtain ⟨g, f, hF⟩ := fork_eq hclone hc0 hslot ht.tables.valid (by omega) ctx
  have hgrow' := grows_created ht.tables hF.free_stack hF.free_pml4 m.kernel.kernelPml4
  have hspaces : Spaces P (insert c roots) (createdPhys m.kernel.kernelPml4 g f t) :=
    (hgrow'.spaces ht).mono (Set.subset_insert f _)
  have hg := stack_lt hF.free_stack
  have hPg := ht.free g hF.free_stack
  have hws : (switchFrame ctx.stub ctx.rip ctx.rsp ctx.rflags).length ≤ 512 := by
    show 8 ≤ 512
    decide
  refine ⟨c, hF.claims, hF.frame, hF.pml4, hF.ppid, hc, ?_, ?_, fun x hx => ?_⟩
  · rw [hF.phys]
    exact hspaces.push hP hg hPg hws
  · have hbits' := hgrow'.bits
    rw [hF.phys, pushWords_pmm]
    omega
  · have hused := hgrow.used x (hs.tables.used x hx)
    have hne : x ≠ g + 1 := fun e => hP g hPg (e ▸ hs.node x hx)
    rw [hF.phys, pushWords_stack hg hws _ hne,
      createdPhys_mem hF.free_stack hF.free_pml4 (Pmm.not_free_of_used hused), hold x hx]

theorem mappedPages_created {s : Phys} {g f : Nat} (kernelPml4 : U64) :
    mappedPages (createdPhys kernelPml4 g f s).mem f = ∅ := by
  refine Finset.eq_empty_of_forall_notMem fun v hv => ?_
  obtain ⟨hu, hv⟩ := mem_mappedPages.mp hv
  refine hv ?_
  unfold createdPhys
  rw [leafEntry_freshPml4 hu]
  rfl

include hP in
theorem spaces_spawned {s : Phys} (hs : Spaces P roots s) {g f : Nat} (hg : s.pmm.Free g)
    (hf : (s.pmm.mark g).Free f) (hroom : 2050 ≤ s.pmm.clearBits)
    (kernelPml4 entry rsp stub : U64) :
    let s' := spawnedPhys kernelPml4 entry rsp stub g f s
    Spaces P (insert f roots) s' ∧ s.pmm.clearBits ≤ s'.pmm.clearBits + 2050 ∧
      (mappedPages s'.mem f).card ≤ 512 := by
  have hgrow := grows_created hs.tables hg hf kernelPml4
  have hbits := hgrow.bits
  have hpage : pageOf (pageAddr f) = f := pageOf_pageAddr hf.lt
  have hroot : pageOf (pageAddr f) ∈ insert f roots := by
    rw [hpage]
    exact Set.mem_insert f roots
  obtain ⟨hgrow', hcard⟩ := grows_mapStackLoop hroot 512 hgrow.tables
    (show (0x7FFFFFF00000 - 512 * 4096 : U64).toNat + 4096 * 512 ≤ 2 ^ 47 by decide) (by omega)
  rw [hpage, mappedPages_created, Finset.card_empty, Nat.zero_add] at hcard
  have hspaces := hgrow'.spaces (hgrow.spaces hs)
  have hbits' := hgrow'.bits
  have hlt := stack_lt hg
  have hPg := hs.free g hg
  have hws : (switchFrame stub entry rsp 0x202).length ≤ 512 := by show 8 ≤ 512; decide
  refine ⟨hspaces.push hP hlt hPg hws, ?_, ?_⟩
  · unfold spawnedPhys usermodeMapStack
    rw [pushWords_pmm]
    omega
  · unfold spawnedPhys usermodeMapStack
    rw [mappedPages_congr (Set.mem_insert f roots) fun x hx => pushWords_stack hlt hws _
      fun e => hP g hPg (e ▸ hspaces.node x hx)]
    exact hcard

end Create

end Sinux.Proc

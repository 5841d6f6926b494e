import Sinux.Mm.CloneFail
import Sinux.Proc.Machine

/-!
# Processes that could not be created

`proc_create` claims its slot, with the state `PROC_READY`, before it allocates the kernel stack and
the PML4. If one of the two is missing it returns `NULL`, gives back the stack and leaves the slot
as it is: a ready process without memory that nobody will ever wait for. `sys_fork` clones the
address space first and destroys the clone when there is no process; what it does about pages is in
`Mm/CloneFail.lean`.

* `NoTrace`: the slots have their states and the free pages are the same.
* `create_no_trace_iff`: a failed `proc_create` leaves no trace exactly if there was no free slot.
* `fork_no_trace`, `fork_trace`: `sys_fork` leaves none if no table of the clone failed to be
  allocated and, where the clone was finished, there was no free slot; and only then.
* `failed_creation_iff`: both, and `create_eats_slot`: a slot that is lost.
-/

namespace Sinux.Proc

open Sinux.Lib Sinux.Lib.Radix Sinux.Mm

/-- **Nothing is left of a failed creation**: every slot has the state it had, and the same pages
are free. -/
structure NoTrace (k k' : Kernel) : Prop where
  states : ∀ j, (k'.procTable j).state = (k.procTable j).state
  free : ∀ g, k'.phys.pmm.Free g ↔ k.phys.pmm.Free g

/-- For a fork the parent and its pages are as before, too. -/
structure ForkNoTrace (parent : Fin maxProcs) (k k' : Kernel) : Prop extends NoTrace k k' where
  process : k'.procTable parent = k.procTable parent
  space : ∀ g, Node childOf userIdx 4 k.phys.mem {pageOf (k.procTable parent).pml4} g →
    k'.phys.mem g = k.phys.mem g

/-- The mapped pages of a process. -/
noncomputable def userPages (i : Fin maxProcs) (k : Kernel) : Finset VPage :=
  mappedPages k.phys.mem (pageOf (k.procTable i).pml4)

/-- The fork does not run out of pages at a table, and if the copy is finished there is no slot to
claim. -/
def ForkStopsEarly (parent : Fin maxProcs) (k : Kernel) : Prop :=
  NoTableFails (userPages parent k) k.phys.pmm.freePages.toNat ∧
    (cloneCost (userPages parent k) ≤ k.phys.pmm.freePages.toNat → freeSlot k = none)

theorem Claims.not_noTrace {i : Fin maxProcs} {q : RunQueue} {k k' : Kernel}
    (h : Claims i .ready q k k') : ¬ NoTrace k k' := fun hno => by
  have hst := hno.states i
  rw [h.state, h.free] at hst
  cases hst

/-- **A `proc_create` that returned `NULL`** left no trace exactly if it found no slot. -/
theorem create_no_trace_iff {k k' : Kernel} (h : procCreate k = (none, k')) :
    NoTrace k k' ↔ freeSlot k = none := by
  rcases procCreate_cases k k.phys with ⟨hslot, he⟩ | ⟨i, k'', hslot, hclaims, he⟩
  · obtain rfl : k = k' := congrArg Prod.snd (he.symm.trans h)
    exact iff_of_true ⟨fun _ => rfl, fun _ => Iff.rfl⟩ hslot
  · have hk : procCreate k = (none, k'') := by
      rcases he with he | he
      · exact he
      · cases he.symm.trans h
    obtain rfl : k'' = k' := congrArg Prod.snd (hk.symm.trans h)
    refine iff_of_false hclaims.not_noTrace ?_
    rw [hslot]
    exact Option.some_ne_none i

section

variable (ctx : UserCtx) {parent : Fin maxProcs} {k : Kernel} {pml4 : U64} {t : Phys}

/-! ## `sys_fork` -/

theorem sysFork_noClone
    (hclone : vmmClonePml4 k.kernelPml4 (k.procTable parent).pml4 k.phys = (0, t)) :
    (sysFork ctx parent k).2 = k.withPhys t := by
  simp only [sysFork, hclone, if_true]

theorem sysFork_noSlot
    (hclone : vmmClonePml4 k.kernelPml4 (k.procTable parent).pml4 k.phys = (pml4, t))
    (hne : pml4 ≠ 0) (hslot : freeSlot k = none) :
    (sysFork ctx parent k).2 = k.withPhys (vmmDestroyPml4 pml4 t) := by
  rcases procCreate_cases k t with ⟨-, he⟩ | ⟨i, _, hi, -⟩
  · simp only [sysFork, hclone, if_neg hne, he]
    rfl
  · cases hslot.symm.trans hi

/-- Once the clone is there and a slot is free, the slot is claimed, whatever follows. -/
theorem sysFork_slot
    (hclone : vmmClonePml4 k.kernelPml4 (k.procTable parent).pml4 k.phys = (pml4, t))
    (hne : pml4 ≠ 0) {i : Fin maxProcs} (hslot : freeSlot k = some i) :
    ∃ q, Claims i .ready q k (sysFork ctx parent k).2 := by
  rcases procCreate_cases k t with ⟨hnone, -⟩ | ⟨j, k', hj, hclaims, he⟩
  · cases hslot.symm.trans hnone
  obtain rfl : i = j := Option.some.inj (hslot.symm.trans hj)
  rcases he with he | he
  · refine ⟨k.runQueue, ?_⟩
    simp only [sysFork, hclone, if_neg hne, he]
    exact hclaims.withPhys _
  · exact ⟨_, sysFork_claims ctx hclone hne he hclaims⟩

variable (hv : k.phys.pmm.Valid)
  (hsrc : ∀ g, Node childOf userIdx 4 k.phys.mem {pageOf (k.procTable parent).pml4} g →
    ¬ k.phys.pmm.Free g)
include hv hsrc

/-- **The fork leaves no trace** if it stops early. -/
theorem fork_no_trace (h : ForkStopsEarly parent k) :
    ForkNoTrace parent k (sysFork ctx parent k).2 := by
  obtain ⟨hno, hfull⟩ := h
  rw [hv.counter] at hno hfull
  rcases vmmClonePml4_outcome hv hsrc k.kernelPml4 with
    ⟨-, e⟩ | ⟨f, hf, hne, ⟨L, t, e, hc⟩ | ⟨t, -, ht⟩ | ⟨u, e, ⟨hpmm, hmem, -⟩ | ⟨t, ht, -⟩⟩⟩
  · rw [sysFork_noClone ctx e]
    exact ⟨⟨fun _ => rfl, fun _ => Iff.rfl⟩, rfl, fun _ _ => rfl⟩
  · have hbits := hc.takes.clearBits
    have hcount := hc.count
    obtain ⟨hpmm, hmem⟩ := hc.giveUp hf
    rw [sysFork_noSlot ctx e hne (hfull (by unfold cloneCost userPages; omega))]
    exact ⟨⟨fun _ => rfl, fun g => by rw [Kernel.withPhys, hpmm]⟩, rfl,
      fun g hg => hmem g (hsrc g hg)⟩
  · exact absurd hno ht.tableFails
  · rw [sysFork_noClone ctx e]
    exact ⟨⟨fun _ => rfl, fun g => by rw [Kernel.withPhys, hpmm]⟩, rfl,
      fun g hg => hmem g (hsrc g hg)⟩
  · exact absurd hno ht.tableFails

/-- **And only then**, if `NULL` leads to no free page. -/
theorem fork_trace (hnull : NullSafe k.phys)
    (h : NoTrace k (sysFork ctx parent k).2) : ForkStopsEarly parent k := by
  unfold ForkStopsEarly
  rw [hv.counter]
  rcases vmmClonePml4_outcome hv hsrc k.kernelPml4 with
    ⟨hzero, -⟩ |
      ⟨f, hf, hne, ⟨L, t, e, hc⟩ | ⟨t, e, ht⟩ | ⟨u, e, ⟨-, -, v, hvS, hn⟩ | ⟨t, ht, rfl⟩⟩⟩
  · refine ⟨Or.inr (Or.inl hzero), fun hle => ?_⟩
    unfold cloneCost at hle
    omega
  · have hbits := hc.takes.clearBits
    have hcount := hc.count
    refine ⟨Or.inl (by unfold cloneCost userPages; omega), fun _ => ?_⟩
    by_contra hslot
    obtain ⟨i, hi⟩ := Option.ne_none_iff_exists'.mp hslot
    obtain ⟨q, hclaims⟩ := sysFork_slot ctx e hne hi
    exact hclaims.not_noTrace h
  · exfalso
    cases hslot : freeSlot k with
    | none =>
      rw [sysFork_noSlot ctx e hne hslot] at h
      obtain ⟨g, hg, hlost⟩ := ht.lost hnull hf hne
      exact hlost ((h.free g).mpr hg)
    | some i =>
      obtain ⟨q, hclaims⟩ := sysFork_slot ctx e hne hslot
      exact hclaims.not_noTrace h
  · refine ⟨Or.inr (Or.inr ⟨v, hvS, hn⟩), fun hle => ?_⟩
    have hlt := copyCost_lt (pagesBelow_subset _ v.num) hvS fun hv' =>
      Nat.lt_irrefl _ (Finset.mem_filter.mp hv').2
    unfold cloneCost userPages at hle
    omega
  · exfalso
    rw [sysFork_noClone ctx e] at h
    obtain ⟨g, hg, hlost⟩ := ht.lost hnull hf hne
    exact hlost ((h.free g).mpr hg)

end

/-- **When a failed creation leaves no trace.** `proc_create`: exactly if no slot was free.
`sys_fork`: if it stops early, and only then if `NULL` leads to no free page. -/
theorem failed_creation_iff (ctx : UserCtx) (parent : Fin maxProcs) (k : Kernel) :
    (∀ k', procCreate k = (none, k') → (NoTrace k k' ↔ freeSlot k = none)) ∧
    (k.phys.pmm.Valid →
      (∀ g, Node childOf userIdx 4 k.phys.mem {pageOf (k.procTable parent).pml4} g →
        ¬ k.phys.pmm.Free g) →
      (sysFork ctx parent k).1 < 0 →
      (ForkStopsEarly parent k → ForkNoTrace parent k (sysFork ctx parent k).2) ∧
      (NullSafe k.phys → ForkNoTrace parent k (sysFork ctx parent k).2 →
        ForkStopsEarly parent k)) :=
  ⟨fun _ h => create_no_trace_iff h, fun hv hsrc _ =>
    ⟨fork_no_trace ctx hv hsrc, fun hnull h => fork_trace ctx hv hsrc hnull h.toNoTrace⟩⟩

/-- A kernel without free pages; `st` is the state of the slots but the first. -/
def noMemory (st : ProcState) : Kernel where
  phys := ⟨⟨fun _ => 0xFF, 8, 0, eight_le_bitmapMaxPages⟩, fun _ _ => 0⟩
  kernelPml4 := 0x1000
  procTable := fun i => if i = 0 then { Process.zero with state := .running, pml4 := 0x2000 }
    else { Process.zero with state := st }
  currentProc := some 0
  nextPid := 1
  refcount := fun _ => 0
  runQueue := ⟨fun _ => none, 0, 0, 0⟩

/-- With a full table and no memory neither leaves a trace. -/
theorem failed_creation_noMemory :
    NoTrace (noMemory .zombie) (procCreate (noMemory .zombie)).2 ∧
      ForkNoTrace 0 (noMemory .zombie) (sysFork ⟨0, 0, 0, 0⟩ 0 (noMemory .zombie)).2 := by
  have hslot : freeSlot (noMemory .zombie) = none := by decide +kernel
  have hnofree : ∀ g, ¬ (noMemory .zombie).phys.pmm.Free g := by
    rintro g ⟨hlt, hbit⟩
    have hall : ∀ g < 8, bmTest (noMemory .zombie).phys.pmm.bitmap g = true := by decide
    rw [hall g hlt] at hbit
    cases hbit
  have hcreate : procCreate (noMemory .zombie) = (none, (procCreate (noMemory .zombie)).2) := by
    unfold procCreate
    rw [hslot]
  obtain ⟨hnull, hfork⟩ := failed_creation_iff ⟨0, 0, 0, 0⟩ 0 (noMemory .zombie)
  refine ⟨(hnull _ hcreate).mpr hslot, ?_⟩
  exact (hfork ⟨by decide, by decide⟩ (fun g _ => hnofree g) (by decide)).1
    ⟨Or.inr (Or.inl (by decide)), fun _ => hslot⟩

/-- **A slot is lost.** Without free pages `proc_create` returns `NULL`, and slot 1, which was
unused, is ready, with neither kernel stack nor page table. -/
theorem create_eats_slot :
    (procCreate (noMemory .unused)).1 = none ∧
      ((noMemory .unused).procTable 1).state = .unused ∧
      ((procCreate (noMemory .unused)).2.procTable 1).state = .ready ∧
      ((procCreate (noMemory .unused)).2.procTable 1).kstack = 0 ∧
      ((procCreate (noMemory .unused)).2.procTable 1).pml4 = 0 := by
  decide +kernel

end Sinux.Proc

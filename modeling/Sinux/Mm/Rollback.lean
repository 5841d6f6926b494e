import Sinux.Mm.Large

/-!
# A large block that cannot be completed

When `kmalloc_slab` runs out of pages it frees the pages `ptr`, `ptr + 4096`, ..., as many as it has
obtained, whichever they were.

* `largeLoop_runs_out`: by then it holds every page that was free.
* `kmalloc_rollback_iff`: the page-frame allocator is back as it was exactly when the free pages
  were consecutive.
-/

namespace Sinux.Mm

open Sinux.Lib

/-- `kmalloc_slab(size)` obtains a page and then runs out. -/
def RunsOut (size : U64) (s : Phys) : Prop := s.alloc.1 ≠ 0 ∧ (kmallocLarge size s).1 = 0

/-- The free pages are consecutive. -/
def Contiguous (s : Pmm) : Prop := ∀ i j k, s.Free i → s.Free k → i ≤ j → j ≤ k → s.Free j

variable {s t : Phys} {f : Nat}

/-! ## Counters and bits without the counter invariant -/

theorem Pmm.Takes.freePages {s s' : Pmm} {L : List Nat} (h : s.Takes L s') :
    s'.freePages = s.freePages - BitVec.ofNat 64 L.length := by
  induction h with
  | nil s => simp
  | cons hf _ ih =>
    rw [ih, List.length_cons, BitVec.ofNat_add]
    show _ - 1#64 - _ = _
    bv_omega

theorem free_used {g : Nat} (hu : s.pmm.Used g) : (s.free (pageAddr g)).pmm = s.pmm.release g := by
  have hg : pageOf (pageAddr g) = g := pageOf_pageAddr hu.lt
  rw [Phys.free_pmm, pmmFree_used (by rwa [hg]), hg]

theorem bmTest_free {g : Nat} (hg : g < 2 ^ 52) (s : Phys) (i : Nat) :
    bmTest (s.free (pageAddr g)).pmm.bitmap i =
      (bmTest s.pmm.bitmap i && !(decide (i = g) && decide (i < s.pmm.totalPages))) := by
  by_cases hu : s.pmm.Used g
  · rw [free_used hu, Pmm.bmTest_release]
    by_cases hi : g = i
    · subst hi
      simp [hu.1]
    · simp [hi, Ne.symm hi]
  · rw [Phys.free_pmm, pmmFree_not_used (by rwa [pageOf_pageAddr hg])]
    by_cases hi : i = g
    · subst hi
      cases hb : bmTest s.pmm.bitmap i with
      | false => rfl
      | true =>
        have hge : ¬ i < s.pmm.totalPages := fun hlt => hu ⟨hlt, hb⟩
        simp [hge]
    · simp [hi]

theorem bmTest_freeAll {L : List Nat} (hL : ∀ g ∈ L, g < 2 ^ 52) (s : Phys) (i : Nat) :
    bmTest (s.freeAll L).pmm.bitmap i =
      (bmTest s.pmm.bitmap i && !(decide (i ∈ L) && decide (i < s.pmm.totalPages))) := by
  induction L generalizing s with
  | nil => simp
  | cons g L ih =>
    have hstep := ih (fun x hx => hL x (List.mem_cons_of_mem g hx)) (s.free (pageAddr g))
    rw [Phys.free_pmm, pmmFree_totalPages, ← Phys.free_pmm,
      bmTest_free (hL g List.mem_cons_self)] at hstep
    refine hstep.trans ?_
    by_cases hi : i = g
    · subst hi
      cases bmTest s.pmm.bitmap i <;> cases decide (i < s.pmm.totalPages) <;> simp
    · simp [hi]

theorem freeAll_totalPages (L : List Nat) (s : Phys) :
    (s.freeAll L).pmm.totalPages = s.pmm.totalPages := by
  induction L generalizing s with
  | nil => rfl
  | cons g L ih => exact (ih _).trans (pmmFree_totalPages ..)

theorem freeAll_freePages {L : List Nat} (hnd : L.Nodup) {s : Phys} (hu : ∀ g ∈ L, s.pmm.Used g) :
    (s.freeAll L).pmm.freePages = s.pmm.freePages + BitVec.ofNat 64 L.length := by
  induction L generalizing s with
  | nil => simp
  | cons g L ih =>
    obtain ⟨hg, hnd⟩ := List.nodup_cons.mp hnd
    have he := free_used (hu g List.mem_cons_self)
    have hstep := ih hnd (s := s.free (pageAddr g)) fun x hx => by
      rw [he]
      exact Pmm.used_release.mpr ⟨hu x (List.mem_cons_of_mem g hx), fun e => hg (e ▸ hx)⟩
    refine hstep.trans ?_
    rw [he, List.length_cons, BitVec.ofNat_add]
    show _ + 1#64 + _ = _
    bv_omega

theorem Pmm.ext_bits {s s' : Pmm} (ht : s'.totalPages = s.totalPages)
    (hf : s'.freePages = s.freePages) (hb : ∀ i, bmTest s'.bitmap i = bmTest s.bitmap i) :
    s' = s := by
  have hbm : s'.bitmap = s.bitmap := PackedBits.ext_test fun i => by
    rw [← bmTest_eq, ← bmTest_eq]
    exact hb i
  obtain ⟨b, t, f, _⟩ := s
  obtain ⟨b', t', f', _⟩ := s'
  simp only at ht hbm hf
  subst ht hbm hf
  rfl

theorem freeAll_perm {L L' : List Nat} (ht : s.pmm.Takes L t.pmm) (hp : L'.Perm L) :
    (t.freeAll L').pmm = s.pmm := by
  have hu : ∀ g ∈ L', t.pmm.Used g := fun g hg => ht.used_of_mem g (hp.mem_iff.mp hg)
  refine Pmm.ext_bits ?_ ?_ fun i => ?_
  · rw [freeAll_totalPages, ht.totalPages]
  · rw [freeAll_freePages (hp.nodup_iff.mpr ht.nodup) hu, ht.freePages, hp.length_eq]
    bv_omega
  · rw [bmTest_freeAll (fun g hg => (hu g hg).lt), ht.bmTest, ht.totalPages]
    by_cases hi : i ∈ L
    · have hf := ht.free_of_mem i hi
      simp [hp.mem_iff, hi, hf.1, hf.2]
    · simp [hp.mem_iff, hi]

/-! ## Running out -/

/-- The loop has taken the pages `L` and runs out: then nothing is free, and the pages from `ptr` on
are freed, as many as it took. -/
theorem largeLoop_runs_out {ptr : U64} (h0 : ¬ s.pmm.Free 0) :
    ∀ {n : Nat} {L : List Nat} {t : Phys}, s.pmm.Takes L t.pmm → t.mem = s.mem → ptr ≠ 0 →
      (largeLoop ptr n L.length t).1 = 0 → ∃ L' t', s.pmm.Takes (L ++ L') t'.pmm ∧
        (∀ g, ¬ t'.pmm.Free g) ∧
        largeLoop ptr n L.length t = (0, freeRange ptr (L ++ L').length t')
  | 0, _, _, _, _, hptr, hz => absurd hz hptr
  | n + 1, L, t, ht, hm, hptr, hz => by
    unfold largeLoop at hz ⊢
    rcases pmmAlloc_cases t.pmm with ⟨hn, he⟩ | ⟨g, hg, -, he⟩
    · have halloc : t.alloc = (0, t) := by rw [Phys.alloc, he]
      rw [halloc]
      exact ⟨[], t, by rwa [List.append_nil], hn, by simp⟩
    · have hg0 : g ≠ 0 := fun e => h0 (((ht.free_iff 0).mp (e ▸ hg)).1)
      have halloc : t.alloc = (pageAddr g, { t with pmm := t.pmm.mark g }) := by rw [Phys.alloc, he]
      rw [halloc] at hz ⊢
      dsimp only at hz ⊢
      rw [if_neg fun e => hg0 ((pageAddr_eq_zero hg.lt).mp e)] at hz ⊢
      have hstep := largeLoop_runs_out h0 (n := n) (L := L ++ [g])
        (t := { t with pmm := t.pmm.mark g }) (ht.append (Pmm.Takes.single hg)) hm hptr
      rw [List.length_append, List.length_singleton] at hstep
      obtain ⟨L', t', hL', hn, heq⟩ := hstep hz
      rw [List.append_assoc] at hL' heq
      exact ⟨[g] ++ L', t', hL', hn, heq⟩

/-- All free pages are taken, and what is freed is the run that starts at the first one. -/
theorem kmallocLarge_runs_out {size : U64} (h : RunsOut size s) :
    ∃ (f : Nat) (L : List Nat) (t : Phys), s.pmm.Free f ∧ (∀ g, g < f → ¬ s.pmm.Free g) ∧
      s.pmm.Takes L t.pmm ∧ (∀ g, s.pmm.Free g ↔ g ∈ L) ∧
      kmallocLarge size s = (0, t.freeAll (List.range' f L.length)) := by
  obtain ⟨hfirst, hz⟩ := h
  rcases pmmAlloc_cases s.pmm with ⟨_, he⟩ | ⟨f, hf, hlow, he⟩
  · exact absurd (congrArg Prod.fst he) hfirst
  have halloc : s.alloc = (pageAddr f, { s with pmm := s.pmm.mark f }) := by rw [Phys.alloc, he]
  have hf0 : pageAddr f ≠ 0 := by rwa [halloc] at hfirst
  have hfree0 : ¬ s.pmm.Free 0 := fun hfree =>
    hf0 ((pageAddr_eq_zero hf.lt).mpr (Nat.eq_zero_of_not_pos fun hpos => hlow 0 hpos hfree))
  unfold kmallocLarge at hz ⊢
  rw [halloc] at hz ⊢
  dsimp only at hz ⊢
  rw [if_neg hf0] at hz ⊢
  obtain ⟨L', t, ht, hn, heq⟩ := largeLoop_runs_out hfree0 (L := [f])
    (t := { s with pmm := s.pmm.mark f }) (Pmm.Takes.single hf) rfl hf0 hz
  refine ⟨f, [f] ++ L', t, hf, hlow, ht, fun g => ⟨fun hg => ?_, ht.free_of_mem g⟩, ?_⟩
  · by_contra hmem
    exact hn g ((ht.free_iff g).mpr ⟨hg, hmem⟩)
  · rw [← freeRange_eq]
    exact heq

/-! ## The rollback -/

theorem perm_range' {L : List Nat} (hnd : L.Nodup) (hsub : ∀ g ∈ L, g ∈ List.range' f L.length) :
    (List.range' f L.length).Perm L :=
  ((hnd.subperm hsub).perm_of_length_le (by rw [List.length_range'])).symm

theorem contiguous_iff_perm {s : Pmm} {L : List Nat} (hnd : L.Nodup)
    (hmem : ∀ g, s.Free g ↔ g ∈ L) (hf : s.Free f) (hlow : ∀ g, g < f → ¬ s.Free g) :
    Contiguous s ↔ (List.range' f L.length).Perm L := by
  constructor
  · intro hc
    refine perm_range' hnd fun g hg => ?_
    have hfree := (hmem g).mpr hg
    have hge : f ≤ g := Nat.le_of_not_lt fun hlt => hlow g hlt hfree
    -- the pages from `f` to `g` are all among them
    have hsub : List.range' f (g - f + 1) ⊆ L := fun x hx => by
      have hx := List.mem_range'_1.mp hx
      exact (hmem x).mp (hc f x g hf hfree hx.1 (by omega))
    have hnodup : (List.range' f (g - f + 1)).Nodup := List.nodup_range'
    have hlen := (hnodup.subperm hsub).length_le
    rw [List.length_range'] at hlen
    exact List.mem_range'_1.mpr (by omega)
  · intro hp i j k hi hk hij hjk
    have hin (g : Nat) : s.Free g ↔ f ≤ g ∧ g < f + L.length := by
      rw [hmem, ← hp.mem_iff, List.mem_range'_1]
    rw [hin] at hi hk ⊢
    omega

/-- **A large block that cannot be completed is rolled back** exactly when the free pages are
consecutive. -/
theorem kmalloc_rollback_iff (h : Heap) {size : U64} (hlarge : 2048 < size)
    (hruns : RunsOut size h.phys) :
    (∃ h', kmallocSlab size h = some (0, h') ∧ h'.phys.pmm = h.phys.pmm) ↔
      Contiguous h.phys.pmm := by
  obtain ⟨f, L, t, hf, hlow, ht, hmem, heq⟩ := kmallocLarge_runs_out hruns
  rw [contiguous_iff_perm ht.nodup hmem hf hlow, kmallocSlab_large hlarge, heq]
  constructor
  · rintro ⟨h', he, hpmm⟩
    obtain ⟨-, rfl⟩ := Prod.mk.inj (Option.some.inj he)
    have hpmm : (t.freeAll (List.range' f L.length)).pmm = h.phys.pmm := hpmm
    refine perm_range' ht.nodup fun g hg => ?_
    have hlt : ∀ x ∈ List.range' f L.length, x < 2 ^ 52 := fun x hx => by
      have hx := List.mem_range'_1.mp hx
      have hclear := ht.clearBits
      have hmax := h.phys.pmm.clearBits_le
      have htotal := h.phys.pmm.total_le
      have hft := hf.1
      unfold bitmapMaxPages at hmax htotal
      omega
    -- the bit of a page taken is clear again
    have hbit := bmTest_freeAll hlt t g
    rw [hpmm, (ht.free_of_mem g hg).2, (ht.used_of_mem g hg).2] at hbit
    by_contra hout
    simp [hout] at hbit
  · intro hp
    exact ⟨_, rfl, freeAll_perm ht hp⟩

/-- Eight pages of which 1 and 2 are free. -/
def twoFree : Phys := ⟨⟨fun _ => 0xF9, 8, 2, eight_le_bitmapMaxPages⟩, fun _ _ => 0⟩

/-- Eight pages of which 1 and 3 are free. -/
def twoHoles : Phys := ⟨⟨fun _ => 0xF5, 8, 2, eight_le_bitmapMaxPages⟩, fun _ _ => 0⟩

/-- Three pages are asked for, two are free and adjacent: both are free afterwards. -/
theorem kmalloc_rollback_twoFree : RunsOut 12288 twoFree ∧
    ∃ h', kmallocSlab 12288 (slabInit twoFree) = some (0, h') ∧ h'.phys.pmm = twoFree.pmm := by
  have hruns : RunsOut 12288 twoFree := by
    unfold RunsOut
    decide
  refine ⟨hruns, (kmalloc_rollback_iff (slabInit twoFree) (by decide) hruns).mpr ?_⟩
  have hfree (g : Nat) (hg : twoFree.pmm.Free g) : g = 1 ∨ g = 2 := by
    have hall : ∀ g < 8, twoFree.pmm.Free g → g = 1 ∨ g = 2 := by decide
    exact hall g hg.1 hg
  have h1 : twoFree.pmm.Free 1 := by decide
  have h2 : twoFree.pmm.Free 2 := by decide
  intro i j k hi hk hij hjk
  rcases hfree i hi with rfl | rfl <;> rcases hfree k hk with rfl | rfl
  · exact (show j = 1 by omega) ▸ h1
  · rcases (show j = 1 ∨ j = 2 by omega) with rfl | rfl
    · exact h1
    · exact h2
  · omega
  · exact (show j = 2 by omega) ▸ h2

/-- With pages 1 and 3 free, page 2, which belongs to someone else, is freed, and page 3 is lost. -/
theorem kmalloc_rollback_holes :
    ∃ h', kmallocSlab 12288 (slabInit twoHoles) = some (0, h') ∧
      twoHoles.pmm.Used 2 ∧ h'.phys.pmm.Free 2 ∧ twoHoles.pmm.Free 3 ∧ h'.phys.pmm.Used 3 := by
  refine ⟨_, kmallocSlab_large (by decide) _, ?_⟩
  decide

end Sinux.Mm

import Sinux.Mm.Clone
import Sinux.Proc.Elf

/-!
# What `elf_load` maps

The page tables are a forest of used pages (`Tables`), and the PML4 is one of its roots. A call of
`vmm_map` is starved when there are fewer free pages than tables missing above its address: it goes
on with the page at address 0 as a table.

- `Loaded` is what loading keeps as long as every address is in the user half and no call is starved:
  the tables stay a forest, each page mapped has the entry of the last call for it, and the pages
  obtained keep what was put into them. `loaded_run` is the induction over the rounds.
- `loadCost` counts the pages that mapping a list of addresses takes. With it `run_served` says on
  the file and the free pages alone how far loading comes.
- `elfLoad_confined_iff`: loading is confined to user space and complete if and only if the pages it
  comes to lie below 2^47, memory does not run out between a page and its tables and, when it
  succeeds, the segments end below 2^47 and those that share a page agree on whether it is writable.

Out of scope: the kernel half of the tables, which `vmm_map` reaches with addresses from 2^47 on.
-/

namespace Sinux.Proc

open Function Sinux.Lib Sinux.Lib.Radix Sinux.Mm

/-! ## Pages of a segment -/

namespace Phdr

variable {ph : Phdr} {k : Nat}

theorem vstart_toNat (ph : Phdr) : ph.vstart.toNat = ph.vaddr.toNat / 4096 * 4096 :=
  pageMask_toNat _

theorem vend_toNat (h : ph.vaddr.toNat + ph.memsz.toNat + 4095 < 2 ^ 64) :
    ph.vend.toNat = (ph.vaddr.toNat + ph.memsz.toNat + 4095) / 4096 * 4096 := by
  have hsum : (ph.vaddr + ph.memsz + 4096 - 1).toNat =
      ph.vaddr.toNat + ph.memsz.toNat + 4095 := by
    have h1 : (1 : U64).toNat = 1 := rfl
    have h4096 : (4096 : U64).toNat = 4096 := rfl
    rw [BitVec.toNat_sub, BitVec.toNat_add, BitVec.toNat_add, h1, h4096]
    omega
  rw [vend, pageMask_toNat, hsum]

theorem pageVa_toNat (hk : k < ph.pages) : (ph.pageVa k).toNat = ph.vstart.toNat + 4096 * k := by
  have hend := ph.vend.isLt
  unfold pages at hk
  rw [pageVa, BitVec.toNat_add, BitVec.toNat_ofNat]
  omega

theorem pageVa_lt_vend (hk : k < ph.pages) : (ph.pageVa k).toNat + 4096 ≤ ph.vend.toNat := by
  rw [pageVa_toNat hk]
  unfold pages at hk
  omega

theorem lt_pages_iff (h : ph.vaddr.toNat + ph.memsz.toNat + 4095 < 2 ^ 64) {a : Nat}
    (ha : ph.vaddr.toNat ≤ a) (hend : a < ph.vaddr.toNat + ph.memsz.toNat) :
    ∃ k < ph.pages, (ph.pageVa k).toNat = a / 4096 * 4096 := by
  have hk : a / 4096 - ph.vaddr.toNat / 4096 < ph.pages := by
    unfold pages
    rw [vend_toNat h, vstart_toNat]
    omega
  refine ⟨_, hk, ?_⟩
  rw [pageVa_toNat hk, vstart_toNat]
  omega

theorem base_le_pageVa (hk : k < ph.pages) (h : ¬ ph.vaddr < userLoadBase) :
    userLoadBase ≤ ph.pageVa k := by
  rw [BitVec.not_lt, BitVec.le_def] at h
  have hbase : userLoadBase.toNat = 1024 * 4096 := rfl
  rw [BitVec.le_def, pageVa_toNat hk, vstart_toNat]
  omega

end Phdr

theorem vpageOf_user {a : U64} (h : a.toNat < 2 ^ 47) : (vpageOf a).User := by
  show (a >>> 39 &&& 0x1FF#64).toNat < 256
  rw [idx_toNat]
  omega

theorem vpageOf_eq_iff {a b : U64} (ha : a.toNat < 2 ^ 47) (hb : b.toNat < 2 ^ 47) :
    vpageOf a = vpageOf b ↔ a.toNat / 4096 = b.toNat / 4096 := by
  constructor
  · intro h
    have hnum := congrArg VPage.num h
    rw [vpageOf_num, vpageOf_num] at hnum
    omega
  · intro h
    apply VPage.num_inj
    rw [vpageOf_num, vpageOf_num, h]

/-! ## Filling a page -/

/-- What is copied: from the start of the page, or from where the segment starts in it. -/
theorem pageCopy_cases {ph : Phdr} {va : U64} {c : PageCopy} (h : pageCopy ph va = some c) :
    (ph.vaddr.toNat ≤ va.toNat ∧ va.toNat - ph.vaddr.toNat < ph.filesz.toNat ∧ c.dst.toNat = 0 ∧
      c.src = ph.offset + (va - ph.vaddr) ∧
      c.len.toNat = min 4096 (ph.filesz.toNat - (va.toNat - ph.vaddr.toNat))) ∨
    (va.toNat < ph.vaddr.toNat ∧ c.dst.toNat = ph.vaddr.toNat - va.toNat ∧ c.src = ph.offset ∧
      (ph.vaddr.toNat - va.toNat < 4096 →
        c.len.toNat = min ph.filesz.toNat (4096 - (ph.vaddr.toNat - va.toNat)))) := by
  have h4096 : (4096 : U64).toNat = 4096 := rfl
  unfold pageCopy at h
  dsimp only at h
  by_cases h1 : ph.vaddr ≤ va ∧ 0 < ph.filesz
  · rw [if_pos h1] at h
    have hle := BitVec.le_def.mp h1.1
    have hoff : (va - ph.vaddr).toNat = va.toNat - ph.vaddr.toNat := BitVec.toNat_sub_of_le h1.1
    by_cases h2 : va - ph.vaddr < ph.filesz
    · rw [if_pos h2] at h
      have hlt := BitVec.lt_def.mp h2
      have hrest : (ph.filesz - (va - ph.vaddr)).toNat =
          ph.filesz.toNat - (va.toNat - ph.vaddr.toNat) := by
        rw [BitVec.toNat_sub_of_le (BitVec.le_of_lt h2), hoff]
      cases h
      refine .inl ⟨hle, hoff ▸ hlt, rfl, rfl, ?_⟩
      dsimp only
      split_ifs with h3 <;> rw [BitVec.lt_def] at h3 <;> omega
    · rw [if_neg h2] at h
      cases h
  · rw [if_neg h1] at h
    by_cases h2 : va < ph.vaddr
    · rw [if_pos h2] at h
      have hlt := BitVec.lt_def.mp h2
      have hoff : (ph.vaddr - va).toNat = ph.vaddr.toNat - va.toNat :=
        BitVec.toNat_sub_of_le (BitVec.le_of_lt h2)
      generalize hcopy : (if ph.filesz < 4096 - (ph.vaddr - va) then ph.filesz
        else 4096 - (ph.vaddr - va)) = copy at h
      by_cases h3 : 0 < copy
      · rw [if_pos h3] at h
        cases h
        refine .inr ⟨hlt, hoff, rfl, fun hpage => ?_⟩
        have hrest : (4096 - (ph.vaddr - va)).toNat = 4096 - (ph.vaddr.toNat - va.toNat) := by
          rw [BitVec.toNat_sub_of_le (by rw [BitVec.le_def]; omega), hoff, h4096]
        dsimp only
        rw [← hcopy]
        split_ifs with h3 <;> rw [BitVec.lt_def] at h3 <;> omega
      · rw [if_neg h3] at h
        cases h
    · rw [if_neg h2] at h
      cases h

theorem pageCopy_fits {ph : Phdr} {va : U64} {c : PageCopy} (hva : ph.vaddr.toNat < va.toNat + 4096)
    (h : pageCopy ph va = some c) : c.dst.toNat + c.len.toNat ≤ 4096 := by
  rcases pageCopy_cases h with ⟨-, -, hdst, -, hlen⟩ | ⟨hlt, hdst, -, hlen⟩
  · omega
  · have hlen := hlen (by omega)
    omega

theorem pageOf_pageAddr_add {g i : Nat} (hg : g < 2 ^ 52) (hi : i < 4096) {x : U64}
    (hx : x.toNat = i) : (pageAddr g + x).toNat = g * 4096 + i ∧ pageOf (pageAddr g + x) = g := by
  have h : (pageAddr g + x).toNat = g * 4096 + i := by
    rw [BitVec.toNat_add, pageAddr_toNat hg, hx]
    omega
  refine ⟨h, ?_⟩
  rw [pageOf, h]
  omega

theorem fillPage_mem {image : Image} {ph : Phdr} {va : U64} {g f : Nat} {s : Phys}
    (hva : ph.vaddr.toNat < va.toNat + 4096) (hg : g < 2 ^ 52) (hf : f ≠ g) :
    (fillPage image ph va (pageAddr g) s).mem f = s.mem f := by
  have hset : (s.kmemsetPage (pageAddr g)).mem f = s.mem f := by
    refine update_of_ne ?_ _ _
    rwa [pageOf_pageAddr hg]
  unfold fillPage
  cases hc : pageCopy ph va with
  | none => exact hset
  | some c =>
    have hfit := pageCopy_fits hva hc
    refine (Phys.kmemcpyFrom_mem fun k hk => ?_).trans hset
    have hsum : (c.dst + BitVec.ofNat 64 k).toNat = c.dst.toNat + k := by
      rw [BitVec.toNat_add, BitVec.toNat_ofNat]
      omega
    rw [BitVec.add_assoc, (pageOf_pageAddr_add hg (by omega) hsum).2]
    exact hf

theorem fillPage_eq {image : Image} {ph : Phdr} {va : U64} {g : Nat} {s : Phys}
    (hva : ph.vaddr.toNat < va.toNat + 4096) (hg : g < 2 ^ 52) :
    fillPage image ph va (pageAddr g) s =
      ⟨s.pmm, update s.mem g ((fillPage image ph va (pageAddr g) s).mem g)⟩ := by
  have hmem : (fillPage image ph va (pageAddr g) s).mem =
      update s.mem g ((fillPage image ph va (pageAddr g) s).mem g) := by
    funext f
    by_cases hf : f = g
    · rw [hf, update_self]
    · rw [update_of_ne hf, fillPage_mem hva hg hf]
  rw [← hmem, ← fillPage_pmm image ph va (pageAddr g) s]

/-! ## Loading -/

/-- There are fewer free pages than missing tables. -/
def MapCall.Starved (root : Nat) (c : MapCall) : Prop :=
  c.before.pmm.clearBits < missing c.before.mem root (vpageOf c.virt)

instance (root : Nat) (c : MapCall) : Decidable (c.Starved root) :=
  inferInstanceAs (Decidable (_ < _))

/-- The leaf entries after the calls recorded in `st`, if they were those of `m` before. -/
def Load.leaf (st : Load) (root : Nat) (m : Mem) (r : Nat) (v : VPage) : U64 :=
  match st.calls.find? fun c => r = root ∧ vpageOf c.virt = v with
  | some c => leafOf c.phys c.flags
  | none => leafEntry m r v

theorem Load.leaf_cons {st st' : Load} {c : MapCall} (h : st'.calls = c :: st.calls) (root : Nat)
    (m : Mem) (r : Nat) (v : VPage) : st'.leaf root m r v =
      if r = root ∧ v = vpageOf c.virt then leafOf c.phys c.flags else st.leaf root m r v := by
  unfold Load.leaf
  rw [h, List.find?_cons]
  by_cases hsame : r = root ∧ vpageOf c.virt = v
  · rw [if_pos ⟨hsame.1, hsame.2.symm⟩, decide_eq_true hsame]
  · rw [if_neg fun hx => hsame ⟨hx.1, hx.2.symm⟩, decide_eq_false hsame]

theorem Load.leaf_of_call {st : Load} {c : MapCall} (hc : c ∈ st.calls) (root : Nat) (m : Mem) :
    ∃ c' ∈ st.calls, vpageOf c'.virt = vpageOf c.virt ∧
      st.leaf root m root (vpageOf c.virt) = leafOf c'.phys c'.flags := by
  unfold Load.leaf
  cases hfind : st.calls.find? fun c' => root = root ∧ vpageOf c'.virt = vpageOf c.virt with
  | none => exact absurd (List.find?_eq_none.mp hfind c hc) (by simp)
  | some c' =>
    refine ⟨c', List.mem_of_find?_eq_some hfind, ?_, rfl⟩
    have := List.find?_some hfind
    simpa using this

theorem Load.leaf_of_no_call {st : Load} {v : VPage} (h : ∀ c ∈ st.calls, vpageOf c.virt ≠ v)
    (root : Nat) (m : Mem) (r : Nat) : st.leaf root m r v = leafEntry m r v := by
  have hnone : st.calls.find? (fun c => r = root ∧ vpageOf c.virt = v) = none :=
    List.find?_eq_none.mpr fun c hc => by simp [h c hc]
  rw [Load.leaf, hnone]

/-- **Loading so far**, from memory `s₀`: the pages `T` became tables, and each call has mapped a
page of its own. -/
structure Loaded (roots : Set Nat) (root : Nat) (s₀ : Phys) (T : List Nat) (st : Load) : Prop where
  tables : Tables 4 roots st.phys
  takes : ∃ L, s₀.pmm.Takes L st.phys.pmm ∧
    ∀ f, f ∈ L ↔ f ∈ T ∨ f ∈ st.calls.map fun c => pageOf c.phys
  node : ∀ f, Node childOf userIdx 3 st.phys.mem roots f ↔
    Node childOf userIdx 3 s₀.mem roots f ∨ f ∈ T
  leaf : ∀ r ∈ roots, ∀ v : VPage, v.User →
    leafEntry st.phys.mem r v = st.leaf root s₀.mem r v
  apart : ∀ c ∈ st.calls, pageOf c.phys ∉ T
  distinct : (st.calls.map fun c => pageOf c.phys).Nodup
  contents : ∀ c ∈ st.calls,
    st.phys.mem (pageOf c.phys) = c.before.mem (pageOf c.phys)
  kernelHalf : ∀ r ∈ roots, ∀ i : Fin 512, ¬ userIdx i → st.phys.mem r i = s₀.mem r i
  mem : ∀ f, ¬ s₀.pmm.Free f → ¬ Node childOf userIdx 3 s₀.mem roots f →
    st.phys.mem f = s₀.mem f

/-- The calls so far are in the user half and not starved. -/
def Load.Good (root : Nat) (st : Load) : Prop :=
  ∀ c ∈ st.calls, (vpageOf c.virt).User ∧ ¬ c.Starved root

section

variable {roots : Set Nat} {s₀ : Phys} {pml4 : U64} {image : Image} {st : Load} {T : List Nat}

theorem Loaded.start (h : Tables 4 roots s₀) (root : Nat) {loadEnd : U64} {reads : List Span} :
    Loaded roots root s₀ [] ⟨s₀, loadEnd, reads, []⟩ where
  tables := h
  takes := ⟨[], .nil _, by simp⟩
  node := fun f => by simp
  leaf := fun _ _ _ _ => rfl
  apart := nofun
  distinct := List.nodup_nil
  contents := nofun
  kernelHalf := fun _ _ _ _ => rfl
  mem := fun _ _ _ => rfl

theorem vmmFlags_nx (ph : Phdr) : ph.vmmFlags &&& vmmNx = 0 := by
  unfold Phdr.vmmFlags
  split <;> decide

theorem Loaded.page (h₀ : Tables 4 roots s₀) (h : Loaded roots (pageOf pml4) s₀ T st)
    (hr : pageOf pml4 ∈ roots) {ph : Phdr} {k : Nat} (hk : k < ph.pages) {st' : Load}
    (hstep : loadPage pml4 image ph k st = .ok st')
    (hgood : st'.Good (pageOf pml4)) :
    ∃ M, Loaded roots (pageOf pml4) s₀ (T ++ M) st' := by
  have hva : ph.vaddr.toNat < (ph.pageVa k).toNat + 4096 := by
    rw [ph.pageVa_toNat hk, ph.vstart_toNat]
    omega
  unfold loadPage at hstep
  rcases Phys.alloc_cases h.tables.valid with ⟨-, he⟩ | ⟨g, hg, -, hne, he⟩
  · rw [he] at hstep
    cases hstep
  simp only [he, if_neg hne] at hstep
  rw [fillPage_eq hva hg.lt] at hstep
  generalize (fillPage image ph (ph.pageVa k) (pageAddr g) _).mem g = c at hstep
  cases hstep
  obtain ⟨htab, hagree⟩ := h.tables.fill hg c
  have hagree₃ (x : Nat) (hx : Node childOf userIdx 3 st.phys.mem roots x) :
      update st.phys.mem g c x = st.phys.mem x :=
    hagree x (hx.mono (Nat.le_succ 3) subset_rfl)
  obtain ⟨huser, hroom⟩ := hgood _ (List.mem_cons_self ..)
  obtain ⟨M, hm⟩ := vmmMap_spec (tables_four.mp htab).1 hr huser (pageAddr g) ph.vmmFlags
    (Nat.le_of_not_lt hroom)
  have hpage : pageOf (pageAddr g) = g := pageOf_pageAddr hg.lt
  have hchild : childOf (leafOf (pageAddr g) ph.vmmFlags) = some g := by
    rw [childOf_leafOf (vmmFlags_nx ph), hpage]
  have hgn : ¬ Node childOf userIdx 4 (update st.phys.mem g c) roots g := fun hx =>
    h.tables.not_node_of_free hg ((Node.congr hagree (Nat.le_succ 4)).mp hx)
  have hgu : (st.phys.pmm.mark g).Used g := (Pmm.used_mark hg.1).mpr (Or.inr rfl)
  obtain ⟨L, htakes, hL⟩ := h.takes
  have hgL : g ∉ L := fun hx => Pmm.not_free_of_used (htakes.used_of_mem g hx) hg
  have hML (x : Nat) (hx : x ∈ M) : x ≠ g ∧ x ∉ L := by
    obtain ⟨hfree, hxg⟩ := Pmm.free_mark.mp (hm.takes.free_of_mem x hx)
    exact ⟨hxg, fun hxL => Pmm.not_free_of_used (htakes.used_of_mem x hxL) hfree⟩
  refine ⟨M, htab.map hr huser hchild hm hgu (h.tables.valid.free_ne_zero hg) hgn,
    ⟨L ++ g :: M, htakes.append (.cons hg hm.takes), fun f => ?_⟩, fun f => ?_,
    fun r hr' v hv => ?_, fun x hx => ?_, ?_, fun x hx => ?_, fun r hr' i hi => ?_,
    fun f hf hn => ?_⟩
  · rw [List.mem_append, hL, List.mem_cons, List.mem_append, List.map_cons, List.mem_cons, hpage]
    tauto
  · rw [hm.node, Node.congr hagree₃ (Nat.le_succ 3), h.node, List.mem_append, or_assoc]
  · rw [hm.leaf r hr' v hv, leafEntry_congr hagree₃ hr' hv, h.leaf r hr' v hv]
    exact (Load.leaf_cons rfl ..).symm
  · rw [List.mem_append, not_or]
    rcases List.mem_cons.mp hx with rfl | hx
    · rw [hpage]
      exact ⟨fun hT => hgL ((hL g).mpr (.inl hT)), fun hM => (hML g hM).1 rfl⟩
    · exact ⟨h.apart x hx, fun hM => (hML _ hM).2
        ((hL _).mpr (.inr (List.mem_map_of_mem hx)))⟩
  · rw [List.map_cons, List.nodup_cons, hpage]
    exact ⟨fun hx => hgL ((hL g).mpr (.inr hx)), h.distinct⟩
  · rcases List.mem_cons.mp hx with rfl | hx
    · rw [hpage]
      exact hm.mem g (fun hx => hgn (hx.mono (Nat.le_succ 3) subset_rfl)) fun hM => (hML g hM).1 rfl
    · have hxL : pageOf x.phys ∈ L := (hL _).mpr (.inr (List.mem_map_of_mem hx))
      have hnode : ¬ Node childOf userIdx 3 st.phys.mem roots (pageOf x.phys) := by
        rw [h.node, not_or]
        exact ⟨fun hn => h₀.not_node_of_free (htakes.free_of_mem _ hxL)
          (hn.mono (Nat.le_succ 3) subset_rfl), h.apart x hx⟩
      have hne : pageOf x.phys ≠ g := fun e => hgL (e ▸ hxL)
      rw [hm.mem _ (fun hn => hnode ((Node.congr hagree₃ (Nat.le_succ 3)).mp hn))
        fun hM => (hML _ hM).2 hxL]
      exact (update_of_ne hne _ _).trans (h.contents x hx)
  · rw [hm.kernelHalf r hr' i hi]
    exact (congrFun (hagree₃ r (Node.root hr')) i).trans (h.kernelHalf r hr' i hi)
  · have hfree₀ (x : Nat) (hx : x ∈ L ++ g :: M) : s₀.pmm.Free x :=
      (htakes.append (.cons hg hm.takes)).free_of_mem x hx
    have hgf : f ≠ g := fun e => hf (e ▸ hfree₀ g (by simp))
    have hnode : ¬ Node childOf userIdx 3 st.phys.mem roots f := by
      rw [h.node, not_or]
      exact ⟨hn, fun hT => hf (hfree₀ f (List.mem_append_left _ ((hL f).mpr (.inl hT))))⟩
    rw [hm.mem f (fun hx => hnode ((Node.congr hagree₃ (Nat.le_succ 3)).mp hx))
      fun hM => hf (hfree₀ f (by simp [hM]))]
    exact (update_of_ne hgf _ _).trans (h.mem f hf hn)

theorem run_page_full {pml4 : U64} {image : Image} {ph : Phdr} {k : Nat}
    (h : st.phys.alloc = (0, st.phys)) : Work.run pml4 image st (.page ph k) = .error st := by
  show loadPage pml4 image ph k st = _
  simp only [loadPage, h, if_true]

/-- What a round can do: map a page, or leave memory and the calls as they are. -/
theorem Work.run_cases (pml4 : U64) (image : Image) (hv : st.phys.pmm.Valid) (w : Work) :
    (∃ ph k st', w = .page ph k ∧ loadPage pml4 image ph k st = .ok st') ∨
      ((finalState (w.run pml4 image st)).phys = st.phys ∧
        (finalState (w.run pml4 image st)).calls = st.calls) := by
  cases w with
  | head ph =>
    refine .inr ?_
    unfold Work.run
    dsimp only
    split <;> exact ⟨rfl, rfl⟩
  | page ph k =>
    rcases Phys.alloc_cases hv with ⟨-, he⟩ | ⟨g, -, -, hne, he⟩
    · rw [run_page_full he]
      exact .inr ⟨rfl, rfl⟩
    · have hnull : st.phys.alloc.1 ≠ 0 := by rwa [he]
      exact .inl ⟨ph, k, _, rfl, if_neg hnull⟩
  | tail ph => exact .inr ⟨rfl, rfl⟩

theorem Loaded.congr (h : Loaded roots (pageOf pml4) s₀ T st) {st' : Load}
    (hp : st'.phys = st.phys) (hc : st'.calls = st.calls) :
    Loaded roots (pageOf pml4) s₀ T st' := by
  obtain ⟨phys, loadEnd, reads, calls⟩ := st
  obtain ⟨phys', loadEnd', reads', calls'⟩ := st'
  obtain rfl : phys' = phys := hp
  obtain rfl : calls' = calls := hc
  exact ⟨h.tables, h.takes, h.node, h.leaf, h.apart, h.distinct, h.contents, h.kernelHalf, h.mem⟩

theorem Work.calls_mono (w : Work) (st : Load) :
    ∀ c ∈ st.calls, c ∈ (finalState (w.run pml4 image st)).calls := by
  intro c hc
  unfold Work.run
  cases w with
  | head ph =>
    dsimp only
    split <;> exact hc
  | page ph k =>
    dsimp only
    unfold loadPage
    dsimp only
    split
    · exact hc
    · exact List.mem_cons_of_mem _ hc
  | tail ph => exact hc

theorem calls_mono (l : List Work) (st : Load) :
    ∀ c ∈ st.calls, c ∈ (finalState (l.foldlM (Work.run pml4 image) st)).calls := by
  induction l generalizing st with
  | nil => exact fun c hc => hc
  | cons w l ih =>
    intro c hc
    have hstep : c ∈ (finalState (w.run pml4 image st)).calls := w.calls_mono st c hc
    cases hrun : w.run pml4 image st with
    | error st' =>
      rw [foldlM_cons_error hrun, ← hrun]
      exact hstep
    | ok st' =>
      rw [hrun] at hstep
      rw [foldlM_cons_ok hrun]
      exact ih st' c hstep

/-- The rounds on pages are rounds of their loops. -/
def InRange (l : List Work) : Prop := ∀ ph k, Work.page ph k ∈ l → k < ph.pages

theorem Load.Good.of_sub {root : Nat} {st' : Load} (h : st'.Good root)
    (hsub : ∀ c ∈ st.calls, c ∈ st'.calls) : st.Good root := fun c hc => h c (hsub c hc)

/-- **A run in the user half**: it ends with every call served, or comes to a first call that is
starved. -/
theorem loaded_or_starved (h₀ : Tables 4 roots s₀) (hr : pageOf pml4 ∈ roots) {l : List Work}
    (hl : InRange l) (h : Loaded roots (pageOf pml4) s₀ T st) (hgood : st.Good (pageOf pml4))
    (huser : ∀ c ∈ (finalState (l.foldlM (Work.run pml4 image) st)).calls, (vpageOf c.virt).User) :
    ((finalState (l.foldlM (Work.run pml4 image) st)).Good (pageOf pml4) ∧
      ∃ T', Loaded roots (pageOf pml4) s₀ T' (finalState (l.foldlM (Work.run pml4 image) st))) ∨
      ∃ T₁ st₁ st₂ ph k, ∃ l' : List Work, Loaded roots (pageOf pml4) s₀ T₁ st₁ ∧
        st₁.Good (pageOf pml4) ∧ k < ph.pages ∧ loadPage pml4 image ph k st₁ = .ok st₂ ∧
        (∃ c ∈ st₂.calls, c.Starved (pageOf pml4)) ∧ l.foldlM (Work.run pml4 image) st =
          l'.foldlM (Work.run pml4 image) st₂ := by
  induction l generalizing st T with
  | nil => exact .inl ⟨hgood, T, h⟩
  | cons w l ih =>
    have hcases := w.run_cases pml4 image h.tables.valid
    have hl' : InRange l := fun ph k hw => hl ph k (List.mem_cons_of_mem w hw)
    cases hrun : w.run pml4 image st with
    | error st' =>
      rw [foldlM_cons_error hrun]
      rcases hcases with ⟨ph, k, st₁, rfl, hpage⟩ | ⟨hp, hc⟩
      · rw [show Work.run pml4 image st (.page ph k) = .ok st₁ from hpage] at hrun
        cases hrun
      · rw [hrun] at hp hc
        exact .inl ⟨hgood.of_sub fun c => hc ▸ id, T, h.congr hp hc⟩
    | ok st' =>
      rw [foldlM_cons_ok hrun] at huser ⊢
      rcases hcases with ⟨ph, k, st₁, rfl, hpage⟩ | ⟨hp, hc⟩
      · rw [show Work.run pml4 image st (.page ph k) = .ok st₁ from hpage] at hrun
        cases hrun
        have hk := hl ph k (List.mem_cons_self ..)
        by_cases hst : ∃ c ∈ st'.calls, c.Starved (pageOf pml4)
        · exact .inr ⟨T, st, st', ph, k, l, h, hgood, hk, hpage, hst, rfl⟩
        · have hgood' : st'.Good (pageOf pml4) := fun c hc =>
            ⟨huser c (calls_mono l st' c hc), fun hs => hst ⟨c, hc, hs⟩⟩
          obtain ⟨M, hM⟩ := h.page h₀ hr hk hpage hgood'
          exact ih hl' hM hgood' huser
      · rw [hrun] at hp hc
        exact ih hl' (h.congr hp hc) (hgood.of_sub fun c => hc ▸ id) huser

theorem loaded_run (h₀ : Tables 4 roots s₀) (hr : pageOf pml4 ∈ roots) {l : List Work}
    (hl : InRange l) (h : Loaded roots (pageOf pml4) s₀ T st)
    (hgood : (finalState (l.foldlM (Work.run pml4 image) st)).Good (pageOf pml4)) :
    ∃ T', Loaded roots (pageOf pml4) s₀ T' (finalState (l.foldlM (Work.run pml4 image) st)) := by
  rcases loaded_or_starved h₀ hr hl h (hgood.of_sub (calls_mono l st)) fun c hc =>
    (hgood c hc).1 with ⟨-, hT⟩ | ⟨_, _, st₂, _, _, l', _, _, _, _, ⟨c, hc, hst⟩, hfin⟩
  · exact hT
  · rw [hfin] at hgood
    exact absurd hst (hgood c (calls_mono l' st₂ c hc)).2

end

/-! ## How far memory lasts -/

/-- The table paths above the pages `D` that lead nowhere yet. -/
def tablesMissing (m : Mem) (r : Nat) (D : Finset VPage) : Finset (List (Fin 512)) :=
  (tablesOver D).filter fun ρ => walk childOf m r ρ = none

theorem card_tablesMissing_insert {m m' : Mem} {r : Nat} {D : Finset VPage} {v : VPage}
    (huser : ∀ w ∈ D, w.User)
    (hpath : ∀ ρ, Path userIdx 3 ρ →
      (walk childOf m' r ρ = none ↔ walk childOf m r ρ = none ∧ ρ ∉ v.tablePaths)) :
    (tablesMissing m r (insert v D)).card = missing m r v + (tablesMissing m' r D).card := by
  have hset : tablesMissing m r (insert v D) =
      (v.tablePaths.toFinset.filter fun ρ => walk childOf m r ρ = none) ∪ tablesMissing m' r D := by
    ext ρ
    simp only [tablesMissing, tablesOver_insert, Finset.mem_union, Finset.mem_filter,
      List.mem_toFinset]
    by_cases hρ : ρ ∈ tablesOver D
    · obtain ⟨w, hw, hρw⟩ := mem_tablesOver.mp hρ
      rw [hpath ρ (VPage.path_of_mem_tablePaths (huser w hw) hρw).1]
      tauto
    · tauto
  have hdisj : Disjoint (v.tablePaths.toFinset.filter fun ρ => walk childOf m r ρ = none)
      (tablesMissing m' r D) := by
    refine Finset.disjoint_left.mpr fun ρ hρ hρ' => ?_
    obtain ⟨hρD, hnone⟩ := Finset.mem_filter.mp hρ'
    obtain ⟨w, hw, hρw⟩ := mem_tablesOver.mp hρD
    rw [hpath ρ (VPage.path_of_mem_tablePaths (huser w hw) hρw).1] at hnone
    exact hnone.2 (List.mem_toFinset.mp (Finset.mem_filter.mp hρ).1)
  rw [hset, Finset.card_union_of_disjoint hdisj, missing_eq_card]

/-- The pages of user space among those at the addresses `l`. -/
def lowPages (l : List U64) : Finset VPage :=
  ((l.filter fun a => a.toNat < 2 ^ 47).map vpageOf).toFinset

/-- What it takes to map a new page at each of the addresses `l`: the pages, and the tables above
them that are missing. -/
def loadCost (m : Mem) (r : Nat) (l : List U64) : Nat :=
  l.length + (tablesMissing m r (lowPages l)).card

/-- With `free` pages, every address that is come to is in user space and gets its tables: memory
does not run out between a page and the tables above it. -/
def Lasts (m : Mem) (r free : Nat) (l : List U64) : Prop :=
  ∀ k, (hk : k < l.length) → loadCost m r (l.take k) < free →
    l[k].toNat < 2 ^ 47 ∧ loadCost m r (l.take (k + 1)) ≤ free

instance (m : Mem) (r free : Nat) (l : List U64) : Decidable (Lasts m r free l) :=
  inferInstanceAs (Decidable (∀ k, (hk : k < l.length) → _))

section

variable {m m' : Mem} {r free : Nat} {a : U64} {l : List U64}

theorem lowPages_user {v : VPage} (h : v ∈ lowPages l) : v.User := by
  simp only [lowPages, List.mem_toFinset, List.mem_map, List.mem_filter, decide_eq_true_eq] at h
  obtain ⟨a, ⟨-, ha⟩, rfl⟩ := h
  exact vpageOf_user ha

theorem lowPages_cons (ha : a.toNat < 2 ^ 47) :
    lowPages (a :: l) = insert (vpageOf a) (lowPages l) := by
  have hfilter : (a :: l).filter (fun a => a.toNat < 2 ^ 47) =
      a :: l.filter (fun a => a.toNat < 2 ^ 47) := List.filter_cons_of_pos (decide_eq_true ha)
  rw [lowPages, hfilter, List.map_cons, List.toFinset_cons, lowPages]

theorem loadCost_nil (m : Mem) (r : Nat) : loadCost m r [] = 0 := by
  simp [loadCost, lowPages, tablesMissing, tablesOver]

theorem loadCost_cons (ha : a.toNat < 2 ^ 47) (hpath : ∀ ρ, Path userIdx 3 ρ →
      (walk childOf m' r ρ = none ↔ walk childOf m r ρ = none ∧ ρ ∉ (vpageOf a).tablePaths)) :
    loadCost m r (a :: l) = missing m r (vpageOf a) + 1 + loadCost m' r l := by
  unfold loadCost
  rw [lowPages_cons ha, card_tablesMissing_insert (fun w => lowPages_user) hpath, List.length_cons]
  omega

theorem Lasts.zero (m : Mem) (r : Nat) (l : List U64) : Lasts m r 0 l := fun _ _ h =>
  absurd h (Nat.not_lt_zero _)

theorem Lasts.head (h : Lasts m r free (a :: l)) (hfree : 0 < free) :
    a.toNat < 2 ^ 47 ∧ missing m r (vpageOf a) + 1 ≤ free := by
  obtain ⟨hlow, hle⟩ := h 0 (Nat.succ_pos _) ((loadCost_nil m r).trans_lt hfree)
  rw [List.getElem_cons_zero] at hlow
  refine ⟨hlow, ?_⟩
  have hone : loadCost m r [a] = missing m r (vpageOf a) + 1 := by
    rw [loadCost, lowPages_cons hlow, missing_eq_card, tablesMissing, tablesOver_insert, Nat.add_comm]
    simp [lowPages, tablesOver]
  exact hone ▸ hle

theorem lasts_cons (ha : a.toNat < 2 ^ 47) (hroom : missing m r (vpageOf a) + 1 ≤ free)
    (hpath : ∀ ρ, Path userIdx 3 ρ →
      (walk childOf m' r ρ = none ↔ walk childOf m r ρ = none ∧ ρ ∉ (vpageOf a).tablePaths)) :
    Lasts m r free (a :: l) ↔ Lasts m' r (free - (missing m r (vpageOf a) + 1)) l := by
  have hcost (k : Nat) : loadCost m r ((a :: l).take (k + 1)) =
      missing m r (vpageOf a) + 1 + loadCost m' r (l.take k) := loadCost_cons ha hpath
  constructor
  · intro h k hk hlt
    have := h (k + 1) (Nat.succ_lt_succ hk) (by rw [hcost]; omega)
    rw [hcost, List.getElem_cons_succ] at this
    exact ⟨this.1, by omega⟩
  · intro h k hk hlt
    cases k with
    | zero =>
      refine ⟨ha, ?_⟩
      rw [hcost, List.take_zero, loadCost_nil]
      omega
    | succ k =>
      rw [hcost] at hlt ⊢
      obtain ⟨hlow, hle⟩ := h k (Nat.lt_of_succ_lt_succ hk) (by omega)
      exact ⟨hlow, by omega⟩

end

/-- The page is in user space and there was memory for its tables. -/
def MapCall.Served (root : Nat) (c : MapCall) : Prop := c.virt.toNat < 2 ^ 47 ∧ ¬ c.Starved root

section

variable {roots : Set Nat} {pml4 : U64} {image : Image} {st : Load} {ph : Phdr}

/-- One round on a page, when there is a page for it. -/
theorem loadPage_served (image : Image) (h : Tables 4 roots st.phys) (hr : pageOf pml4 ∈ roots) {k : Nat}
    (hk : k < ph.pages) (hfree : 0 < st.phys.pmm.clearBits) :
    let cost := missing st.phys.mem (pageOf pml4) (vpageOf (ph.pageVa k)) + 1
    ∃ c st', loadPage pml4 image ph k st = .ok st' ∧ st'.calls = c :: st.calls ∧
      c.target = (ph.pageVa k, ph.vmmFlags) ∧
      (c.Served (pageOf pml4) ↔ (ph.pageVa k).toNat < 2 ^ 47 ∧ cost ≤ st.phys.pmm.clearBits) ∧
      (c.Served (pageOf pml4) → Tables 4 roots st'.phys ∧
        st'.phys.pmm.clearBits = st.phys.pmm.clearBits - cost ∧
        ∀ ρ, Path userIdx 3 ρ → (walk childOf st'.phys.mem (pageOf pml4) ρ = none ↔
          walk childOf st.phys.mem (pageOf pml4) ρ = none ∧
            ρ ∉ (vpageOf (ph.pageVa k)).tablePaths)) := by
  intro cost
  have hva : ph.vaddr.toNat < (ph.pageVa k).toNat + 4096 := by
    rw [ph.pageVa_toNat hk, ph.vstart_toNat]
    omega
  rcases Phys.alloc_cases h.valid with ⟨hnone, -⟩ | ⟨g, hg, -, hne, he⟩
  · obtain ⟨i, hi⟩ := exists_free_of_clearBits_pos hfree
    exact absurd hi (hnone i)
  unfold loadPage
  simp only [he, if_neg hne]
  rw [fillPage_eq hva hg.lt]
  generalize (fillPage image ph (ph.pageVa k) (pageAddr g) _).mem g = x
  have hserved : MapCall.Served (pageOf pml4) ⟨ph.pageVa k, pageAddr g, ph.vmmFlags,
      ⟨st.phys.pmm.mark g, update st.phys.mem g x⟩⟩ ↔
      (ph.pageVa k).toNat < 2 ^ 47 ∧ cost ≤ st.phys.pmm.clearBits := by
    refine and_congr_right fun hlow => ?_
    have hmiss : missing (update st.phys.mem g x) (pageOf pml4) (vpageOf (ph.pageVa k)) + 1 = cost :=
      congrArg (· + 1) (missing_congr (fun ρ hρ => h.walk_fill hg x hr hρ) (vpageOf_user hlow))
    have hbits := Pmm.clearBits_mark hg
    show ¬ (st.phys.pmm.mark g).clearBits <
      missing (update st.phys.mem g x) (pageOf pml4) (vpageOf (ph.pageVa k)) ↔ _
    omega
  refine ⟨_, _, rfl, rfl, rfl, hserved, fun hs => ?_⟩
  obtain ⟨hlow, hroom⟩ := hserved.mp hs
  obtain ⟨M, hm⟩ := vmmMap_frame h hr (vpageOf_user hlow) (vmmFlags_nx ph) hg x hroom
  have hbits := hm.takes.clearBits
  have hcount := hm.count
  rw [List.length_cons] at hbits
  refine ⟨hm.tables, ?_, fun ρ hρ => ?_⟩
  · dsimp only
    omega
  · rw [hm.path _ hr ρ hρ, eq_self, true_and]

/-- **How a run ends**: every call is served if and only if memory lasts, and then it comes to its
end if and only if no segment is refused and there is memory for all pages. -/
theorem run_served {l : List Work} (image : Image) (st : Load) (h : Tables 4 roots st.phys)
    (hr : pageOf pml4 ∈ roots)
    (hl : InRange l) (hst : ∀ c ∈ st.calls, c.Served (pageOf pml4)) :
    let r := l.foldlM (Work.run pml4 image) st
    let vas := (mapped l).map Prod.fst
    let free := st.phys.pmm.clearBits
    ((∀ c ∈ (finalState r).calls, c.Served (pageOf pml4)) ↔
      Lasts st.phys.mem (pageOf pml4) free vas) ∧
    (Lasts st.phys.mem (pageOf pml4) free vas → ((∃ st', r = .ok st') ↔
      (∀ ph, Work.head ph ∈ l → ¬ ph.Refused) ∧
        loadCost st.phys.mem (pageOf pml4) vas ≤ free)) := by
  induction l generalizing st with
  | nil =>
    refine ⟨iff_of_true hst fun _ hk => absurd hk (Nat.not_lt_zero _), fun _ => ?_⟩
    exact iff_of_true ⟨st, rfl⟩ ⟨nofun, (loadCost_nil _ _).trans_le (Nat.zero_le _)⟩
  | cons w l ih =>
    have hl' : InRange l := fun ph k hw => hl ph k (List.mem_cons_of_mem w hw)
    cases w with
    | head ph =>
      by_cases href : ph.Refused
      · rw [foldlM_cons_error (if_pos href), mapped_refused href]
        refine ⟨iff_of_true hst fun _ hk => absurd hk (Nat.not_lt_zero _), fun _ => ?_⟩
        exact iff_of_false nofun fun hall => hall.1 ph (List.mem_cons_self ..) href
      · rw [foldlM_cons_ok (if_neg href), mapped_head href]
        obtain ⟨h1, h2⟩ := ih { st with reads := ph.headSpans ++ st.reads } h hl' hst
        refine ⟨h1, fun hlasts => (h2 hlasts).trans (and_congr_left fun _ => ?_)⟩
        simp only [List.mem_cons, Work.head.injEq, forall_eq_or_imp]
        exact (and_iff_right href).symm
    | page ph k =>
      have hheads : (∀ q, Work.head q ∈ Work.page ph k :: l → ¬ q.Refused) ↔
          ∀ q, Work.head q ∈ l → ¬ q.Refused := by simp
      rw [mapped_page, List.map_cons, hheads]
      intro r vas free
      by_cases hfree : 0 < st.phys.pmm.clearBits
      · obtain ⟨c, st', hrun, hcalls, -, hserved, hnext⟩ := loadPage_served image h hr
          (hl ph k (List.mem_cons_self ..)) hfree
        have hr' : r = l.foldlM (Work.run pml4 image) st' :=
          foldlM_cons_ok (show Work.run pml4 image st (.page ph k) = _ from hrun) l
        by_cases hs : c.Served (pageOf pml4)
        · obtain ⟨hlow, hroom⟩ := hserved.mp hs
          obtain ⟨htab, hbits, hpath⟩ := hnext hs
          have hst' : ∀ c' ∈ st'.calls, c'.Served (pageOf pml4) := fun c' hc' => by
            rw [hcalls] at hc'
            rcases List.mem_cons.mp hc' with rfl | hc'
            · exact hs
            · exact hst c' hc'
          obtain ⟨h1, h2⟩ := ih st' htab hl' hst'
          rw [hbits] at h1 h2
          rw [hr', lasts_cons hlow hroom hpath, loadCost_cons hlow hpath]
          refine ⟨h1, fun hlasts => (h2 hlasts).trans (and_congr_right fun _ => ?_)⟩
          omega
        · have hnot : ¬ Lasts st.phys.mem (pageOf pml4) free vas := fun hlasts =>
            hs (hserved.mpr (hlasts.head hfree))
          refine ⟨iff_of_false (fun hall => hs (hall c ?_)) hnot, fun hlasts => absurd hlasts hnot⟩
          rw [hr']
          exact calls_mono l st' c (hcalls ▸ List.mem_cons_self ..)
      · have hzero : free = 0 := Nat.eq_zero_of_not_pos hfree
        rcases Phys.alloc_cases h.valid with ⟨-, he⟩ | ⟨g, hg, -, -, -⟩
        · have hr' : r = .error st := foldlM_cons_error (run_page_full he) l
          rw [hr', hzero]
          refine ⟨iff_of_true hst (Lasts.zero _ _ _), fun _ => iff_of_false nofun fun hall => ?_⟩
          have hle := hall.2
          rw [loadCost, List.length_cons] at hle
          omega
        · exact absurd (Pmm.clearBits_pos hg) hfree
    | tail ph =>
      have hheads : (∀ q, Work.head q ∈ Work.tail ph :: l → ¬ q.Refused) ↔
          ∀ q, Work.head q ∈ l → ¬ q.Refused := by simp
      rw [foldlM_cons_ok rfl, mapped_tail, hheads]
      exact ih { st with loadEnd := _ } h hl' hst

end

/-! ## The rounds of a file -/

section

variable {pml4 : U64} {image : Image} {size : U64} {s : Phys} {st st' : Load} {ph : Phdr} {k : Nat}

theorem page_mem_work : Work.page ph k ∈ work image ↔
    ph ∈ phdrs image ∧ ph.Loads ∧ ¬ ph.Refused ∧ k < ph.pages := by
  have hwork (q : Phdr) : Work.page ph k ∈ q.work ↔
      q = ph ∧ q.Loads ∧ ¬ q.Refused ∧ k < q.pages := by
    unfold Phdr.work
    by_cases h : q.Loads ∧ ¬ q.Refused
    · rw [if_pos h]
      simp only [List.mem_cons, reduceCtorEq, false_or, List.mem_append, List.mem_map,
        List.mem_range, Work.page.injEq, List.not_mem_nil, or_false]
      constructor
      · rintro ⟨j, hj, rfl, rfl⟩
        exact ⟨rfl, h.1, h.2, hj⟩
      · rintro ⟨rfl, -, -, hk⟩
        exact ⟨k, hk, rfl, rfl⟩
    · rw [if_neg h]
      simp only [List.mem_cons, reduceCtorEq, List.not_mem_nil, or_false, false_iff]
      exact fun hx => h ⟨hx.2.1, hx.2.2.1⟩
  unfold work
  rw [List.mem_flatMap]
  simp only [hwork]
  constructor
  · rintro ⟨q, hq, rfl, h⟩
    exact ⟨hq, h⟩
  · rintro ⟨hq, h⟩
    exact ⟨ph, hq, rfl, h⟩

theorem work_inRange (image : Image) : InRange (work image) := fun _ _ h =>
  (page_mem_work.mp h).2.2.2

theorem reached_subset (n : Nat) (l : List Work) : reached n l ⊆ l := by
  induction l generalizing n with
  | nil => exact fun _ h => h
  | cons w l ih =>
    cases w with
    | head ph =>
      rw [reached]
      split
      · exact List.cons_subset_cons _ (List.nil_subset _)
      · exact List.cons_subset_cons _ (ih n)
    | page ph k =>
      cases n with
      | zero => exact List.nil_subset _
      | succ n => exact List.cons_subset_cons _ (ih n)
    | tail ph => exact List.cons_subset_cons _ (ih n)

theorem page_not_mem_reached_zero (l : List Work) : Work.page ph k ∉ reached 0 l := by
  induction l with
  | nil => exact List.not_mem_nil
  | cons w l ih =>
    cases w with
    | head q =>
      rw [reached]
      split <;> simp [ih]
    | page q j => exact List.not_mem_nil
    | tail q => simp [reached, ih]

/-- What a round that goes on does to `load_end`. -/
theorem run_eq_ok {w : Work} (h : w.run pml4 image st = .ok st') :
    (∀ q, w = .head q → ¬ q.Refused) ∧
    ((∃ q, w = .tail q ∧ st'.loadEnd = if st.loadEnd < q.vend then q.vend else st.loadEnd) ∨
      (∀ q, w ≠ .tail q) ∧ st'.loadEnd = st.loadEnd) := by
  cases w with
  | head q =>
    by_cases href : q.Refused
    · rw [show Work.run pml4 image st (.head q) = .error _ from if_pos href] at h
      cases h
    · rw [show Work.run pml4 image st (.head q) = .ok _ from if_neg href] at h
      cases h
      refine ⟨fun q' hq => ?_, .inr ⟨nofun, rfl⟩⟩
      cases hq
      exact href
  | page q j =>
    by_cases hnull : st.phys.alloc.1 = 0
    · rw [show Work.run pml4 image st (.page q j) = .error _ from if_pos hnull] at h
      cases h
    · rw [show Work.run pml4 image st (.page q j) = .ok _ from if_neg hnull] at h
      cases h
      exact ⟨nofun, .inr ⟨nofun, rfl⟩⟩
  | tail q =>
    cases h
    exact ⟨nofun, .inl ⟨q, rfl, rfl⟩⟩

/-- A run to the end has met no refused segment, and `load_end` is the largest end of a segment. -/
theorem ok_run {l : List Work} (h : l.foldlM (Work.run pml4 image) st = .ok st') :
    st.loadEnd ≤ st'.loadEnd ∧
    (∀ ph, (.head ph ∈ l → ¬ ph.Refused) ∧ (.tail ph ∈ l → ph.vend ≤ st'.loadEnd)) ∧
    (st'.loadEnd = st.loadEnd ∨ ∃ ph, .tail ph ∈ l ∧ st'.loadEnd = ph.vend) := by
  induction l generalizing st with
  | nil =>
    cases h
    exact ⟨BitVec.le_refl _, fun ph => ⟨nofun, nofun⟩, .inl rfl⟩
  | cons w l ih =>
    cases hrun : w.run pml4 image st with
    | error e =>
      rw [foldlM_cons_error hrun] at h
      cases h
    | ok st₁ =>
      rw [foldlM_cons_ok hrun] at h
      obtain ⟨hle, hall, hlast⟩ := ih h
      obtain ⟨hhead, hend⟩ := run_eq_ok hrun
      have hstep : st.loadEnd ≤ st₁.loadEnd ∧ (∀ q, w = .tail q → q.vend ≤ st₁.loadEnd) ∧
          (st₁.loadEnd = st.loadEnd ∨ ∃ q, w = .tail q ∧ st₁.loadEnd = q.vend) := by
        rcases hend with ⟨q, rfl, heq⟩ | ⟨hno, heq⟩
        · rw [heq]
          split_ifs with hlt
          · refine ⟨BitVec.le_of_lt hlt, fun q' hq => ?_, .inr ⟨q, rfl, rfl⟩⟩
            cases hq
            exact BitVec.le_refl _
          · refine ⟨BitVec.le_refl _, fun q' hq => ?_, .inl rfl⟩
            cases hq
            exact BitVec.not_lt.mp hlt
        · exact ⟨heq ▸ BitVec.le_refl _, fun q hq => absurd hq (hno q), .inl heq⟩
      refine ⟨BitVec.le_trans hstep.1 hle, fun ph => ⟨fun hmem => ?_, fun hmem => ?_⟩, ?_⟩
      · exact (List.mem_cons.mp hmem).elim (fun heq => hhead ph heq.symm) (hall ph).1
      · exact (List.mem_cons.mp hmem).elim (fun heq => BitVec.le_trans (hstep.2.1 ph heq.symm) hle)
          (hall ph).2
      · rcases hlast with heq | ⟨ph, hph, heq⟩
        · exact hstep.2.2.imp heq.trans fun ⟨q, hq, hq'⟩ => ⟨q, hq ▸ List.mem_cons_self ..,
            heq.trans hq'⟩
        · exact .inr ⟨ph, List.mem_cons_of_mem w hph, heq⟩

theorem elfLoad_of_not_validate (h : ¬ elfValidate image size = true) :
    elfLoad pml4 image size s = (⟨0, 0, false⟩, ⟨s, 0, validateReads image size, []⟩) :=
  if_neg h

theorem validate_of_valid (h : (elfLoad pml4 image size s).1.valid = true) :
    elfValidate image size = true := by
  by_contra hno
  rw [elfLoad_of_not_validate hno] at h
  cases h

theorem elfLoad_targets (pml4 : U64) (image : Image) (size : U64) (s : Phys) :
    (elfLoad pml4 image size s).2.calls.map MapCall.target =
      (reached (elfLoad pml4 image size s).2.calls.length (work image)).reverse.flatMap
        Work.targets := by
  by_cases hvalid : elfValidate image size = true
  · obtain ⟨n, hn, -, htargets, -⟩ := run_record pml4 image (work image) (loadStart image size s)
    obtain ⟨last, -, hstate⟩ := elfLoad_state pml4 s hvalid
    rw [hstate, show (finalState (loadRun pml4 image size s)).calls.length = n from
      hn.trans (Nat.zero_add n)]
    exact htargets.trans (List.append_nil _)
  · rw [elfLoad_of_not_validate hvalid]
    refine (List.flatMap_eq_nil_iff.mpr fun w hw => ?_).symm
    cases w with
    | head ph => rfl
    | page ph k => exact absurd (List.mem_reverse.mp hw) (page_not_mem_reached_zero _)
    | tail ph => rfl

/-- **The addresses mapped** are those of the pages reached. -/
theorem mem_targets (pml4 : U64) (image : Image) (size : U64) (s : Phys) (t : U64 × U64) :
    t ∈ (elfLoad pml4 image size s).2.calls.map MapCall.target ↔
      ∃ ph k, Work.page ph k ∈ reached (elfLoad pml4 image size s).2.calls.length (work image) ∧
        t = (ph.pageVa k, ph.vmmFlags) := by
  rw [elfLoad_targets, List.mem_flatMap]
  constructor
  · rintro ⟨w, hw, ht⟩
    cases w with
    | head ph => exact absurd ht List.not_mem_nil
    | page ph k => exact ⟨ph, k, List.mem_reverse.mp hw, List.mem_singleton.mp ht⟩
    | tail ph => exact absurd ht List.not_mem_nil
  · rintro ⟨ph, k, hw, ht⟩
    exact ⟨_, List.mem_reverse.mpr hw, List.mem_singleton.mpr ht⟩

/-- **A file that is accepted** has been gone through to the end. -/
theorem valid_run (h : (elfLoad pml4 image size s).1.valid = true) :
    reached (elfLoad pml4 image size s).2.calls.length (work image) = work image ∧
      ∀ ph ∈ phdrs image, ¬ ph.Refused ∧
        (ph.Loads → ph.vend ≤ (elfLoad pml4 image size s).1.loadEnd) := by
  have hvalid := validate_of_valid h
  obtain ⟨n, hn, -, -, hall⟩ := run_record pml4 image (work image) (loadStart image size s)
  have hlen : (finalState (loadRun pml4 image size s)).calls.length = n :=
    hn.trans (Nat.zero_add n)
  rw [elfLoad_eq hvalid] at h ⊢
  cases hrun : loadRun pml4 image size s with
  | error st =>
    rw [hrun] at h
    cases h
  | ok st =>
    rw [hrun] at hlen
    obtain ⟨-, hok, -⟩ := ok_run hrun
    have hhead (ph : Phdr) (hph : ph ∈ phdrs image) : .head ph ∈ work image :=
      List.mem_flatMap.mpr ⟨ph, hph, List.mem_cons_self ..⟩
    refine ⟨?_, fun ph hph => ⟨(hok ph).1 (hhead ph hph), fun hloads => (hok ph).2 ?_⟩⟩
    · show reached st.calls.length (work image) = _
      rw [show st.calls.length = n from hlen]
      exact hall ⟨st, hrun⟩
    · refine List.mem_flatMap.mpr ⟨ph, hph, ?_⟩
      rw [Phdr.work, if_pos ⟨hloads, (hok ph).1 (hhead ph hph)⟩]
      simp

theorem elfLoad_loaded {roots : Set Nat} (h : Tables 4 roots s) (hr : pageOf pml4 ∈ roots)
    (hgood : (elfLoad pml4 image size s).2.Good (pageOf pml4)) :
    ∃ T, Loaded roots (pageOf pml4) s T (elfLoad pml4 image size s).2 := by
  by_cases hvalid : elfValidate image size = true
  · obtain ⟨last, -, hstate⟩ := elfLoad_state pml4 s hvalid
    rw [hstate] at hgood ⊢
    obtain ⟨T, hT⟩ := loaded_run h hr (work_inRange image) (Loaded.start h _) hgood
    exact ⟨T, hT.congr rfl rfl⟩
  · rw [elfLoad_of_not_validate hvalid]
    exact ⟨[], Loaded.start h _⟩

end

/-! ## Confinement -/

/-- `p_flags & PF_W`. -/
def Phdr.Writable (ph : Phdr) : Prop := ph.flags.testBit 1 = true

/-- Address `a` is an address of the segment. -/
def Phdr.Covers (ph : Phdr) (a : Nat) : Prop :=
  ph.vaddr.toNat ≤ a ∧ a < ph.vaddr.toNat + ph.memsz.toNat

/-- The segments have bytes in one page. -/
def Phdr.Share (ph ph' : Phdr) : Prop := ∃ a a', ph.Covers a ∧ ph'.Covers a' ∧ a / 4096 = a' / 4096

/-- Address `a` is mapped for user mode, writable or not. -/
structure UserMapped (m : Mem) (root : Nat) (writable : Prop) (a : Nat) : Prop where
  low : a < 2 ^ 47
  present : leafEntry m root (vpageOf (BitVec.ofNat 64 a)) &&& vmmPresent ≠ 0
  user : leafEntry m root (vpageOf (BitVec.ofNat 64 a)) &&& vmmUser ≠ 0
  writable : leafEntry m root (vpageOf (BitVec.ofNat 64 a)) &&& vmmWritable ≠ 0 ↔ writable

/-- **Confined to user space and loaded in full**, from memory `s` to the outcome `r`. -/
structure Confined (image : Image) (root : Nat) (s : Phys) (r : ElfInfo × Load) : Prop where
  /-- Pages are mapped at addresses of user space only. -/
  range : ∀ c ∈ r.2.calls, userLoadBase ≤ c.virt ∧ c.virt.toNat < 2 ^ 47
  /-- What is written is an entry for that address: no call works on the page at address 0. -/
  entries : ∀ c ∈ r.2.calls, ¬ c.Starved root
  /-- The pages below `USER_LOAD_BASE` are mapped as before. -/
  low : ∀ v : VPage, v.num < userLoadBase.toNat / 4096 →
    leafEntry r.2.phys.mem root v = leafEntry s.mem root v
  kernelHalf : ∀ i : Fin 512, ¬ userIdx i → r.2.phys.mem root i = s.mem root i
  /-- An accepted file is mapped as its headers say. -/
  full : r.1.valid = true → ∀ ph ∈ phdrs image, ph.Loads →
    (∀ a, ph.Covers a → UserMapped r.2.phys.mem root ph.Writable a) ∧
      ph.vaddr.toNat + ph.memsz.toNat ≤ r.1.loadEnd.toNat

/-- The file is loaded to its end: it is an ELF file, no segment is below `USER_LOAD_BASE`, and there
is memory for all its pages and their tables. -/
structure Accepted (image : Image) (size : U64) (root : Nat) (s : Phys) : Prop where
  valid : elfValidate image size = true
  base : ∀ ph ∈ phdrs image, ¬ ph.Refused
  room : loadCost s.mem root ((mapped (work image)).map Prod.fst) ≤ s.pmm.clearBits

/-- What the segments must be like. -/
structure SegmentsFit (image : Image) (size : U64) (root : Nat) (s : Phys) : Prop where
  /-- The pages come to lie below 2^47, and memory does not run out before their tables. -/
  lasts : elfValidate image size = true →
    Lasts s.mem root s.pmm.clearBits ((mapped (work image)).map Prod.fst)
  /-- Of an accepted file the segments end below 2^47. -/
  ends : Accepted image size root s → ∀ ph ∈ phdrs image, ph.Loads →
    ph.vaddr.toNat + ph.memsz.toNat ≤ 2 ^ 47
  /-- Those that share a page agree on whether it is writable. -/
  agree : Accepted image size root s → ∀ ph ∈ phdrs image, ∀ ph' ∈ phdrs image, ph.Loads →
    ph'.Loads → ph.Share ph' → (ph.Writable ↔ ph'.Writable)

section

variable {pml4 : U64} {image : Image} {size : U64} {s : Phys} {roots : Set Nat} {ph : Phdr}

theorem head_mem_work : Work.head ph ∈ work image ↔ ph ∈ phdrs image := by
  have hwork (q : Phdr) : Work.head ph ∈ q.work ↔ ph = q := by
    unfold Phdr.work
    split <;> simp
  unfold work
  rw [List.mem_flatMap]
  simp only [hwork, exists_eq_right']

theorem elfLoad_served (h : Tables 4 roots s) (hr : pageOf pml4 ∈ roots) (size : U64) :
    (∀ c ∈ (elfLoad pml4 image size s).2.calls, c.Served (pageOf pml4)) ↔
      (elfValidate image size = true →
        Lasts s.mem (pageOf pml4) s.pmm.clearBits ((mapped (work image)).map Prod.fst)) := by
  by_cases hvalid : elfValidate image size = true
  · obtain ⟨last, -, hstate⟩ := elfLoad_state pml4 s hvalid
    rw [hstate, forall_prop_of_true hvalid]
    exact (run_served image (loadStart image size s) h hr (work_inRange image) nofun).1
  · rw [elfLoad_of_not_validate hvalid]
    exact iff_of_true nofun fun hv => absurd hv hvalid

theorem valid_iff (h : Tables 4 roots s) (hr : pageOf pml4 ∈ roots)
    (hserved : ∀ c ∈ (elfLoad pml4 image size s).2.calls, c.Served (pageOf pml4)) :
    (elfLoad pml4 image size s).1.valid = true ↔ Accepted image size (pageOf pml4) s := by
  by_cases hvalid : elfValidate image size = true
  · have hlasts := (elfLoad_served h hr size).mp hserved hvalid
    have hrun := (run_served image (loadStart image size s) h hr (work_inRange image) nofun).2 hlasts
    have hok : (elfLoad pml4 image size s).1.valid = true ↔
        ∃ st, loadRun pml4 image size s = .ok st := by
      rw [elfLoad_eq hvalid]
      cases loadRun pml4 image size s <;> simp
    rw [hok]
    refine hrun.trans ⟨fun hall => ⟨hvalid, fun ph hph => hall.1 ph (head_mem_work.mpr hph), hall.2⟩,
      fun hacc => ⟨fun ph hph => hacc.base ph (head_mem_work.mp hph), hacc.room⟩⟩
  · rw [elfLoad_of_not_validate hvalid]
    exact iff_of_false nofun fun hacc => hvalid hacc.valid

theorem Phdr.covers_last (h : ph.Loads) :
    ph.Covers (ph.vaddr.toNat + ph.memsz.toNat - 1) := by
  have hpos : ph.memsz.toNat ≠ 0 := fun hz => h.2 (BitVec.eq_of_toNat_eq hz)
  unfold Phdr.Covers
  omega

theorem Phdr.exists_covers (h : ph.Loads) (hend : ph.vaddr.toNat + ph.memsz.toNat + 4095 < 2 ^ 64)
    {k : Nat} (hk : k < ph.pages) : ∃ a, ph.Covers a ∧ a / 4096 = (ph.pageVa k).toNat / 4096 := by
  have hpos : ph.memsz.toNat ≠ 0 := fun hz => h.2 (BitVec.eq_of_toNat_eq hz)
  have hva := ph.pageVa_toNat hk
  have hstart := ph.vstart_toNat
  have hlt := ph.pageVa_lt_vend hk
  rw [ph.vend_toNat hend] at hlt
  refine ⟨max ph.vaddr.toNat (ph.pageVa k).toNat, ⟨Nat.le_max_left .., ?_⟩, ?_⟩ <;> omega

theorem leafOf_vmmFlags (ph : Phdr) (page : U64) :
    leafOf page ph.vmmFlags &&& vmmPresent ≠ 0 ∧ leafOf page ph.vmmFlags &&& vmmUser ≠ 0 ∧
      (leafOf page ph.vmmFlags &&& vmmWritable ≠ 0 ↔ ph.Writable) := by
  have hlow (m : U64) (hm : 0xFFF &&& m = m) : leafOf page ph.vmmFlags &&& m =
      ((ph.vmmFlags &&& 0xFFF) ||| vmmPresent) &&& m := by
    rw [← leafOf_low (vmmFlags_nx ph) page, BitVec.and_assoc, hm]
  rw [hlow _ rfl, hlow _ rfl, hlow _ rfl]
  unfold Phdr.vmmFlags Phdr.Writable
  cases ph.flags.testBit 1 <;> decide

theorem toNat_ofNat_low {a : Nat} (h : a < 2 ^ 47) : (BitVec.ofNat 64 a).toNat = a := by
  rw [BitVec.toNat_ofNat, Nat.mod_eq_of_lt (by omega)]

theorem call_page {c : MapCall} (hc : c ∈ (elfLoad pml4 image size s).2.calls) :
    ∃ ph k, ph ∈ phdrs image ∧ ph.Loads ∧ ¬ ph.Refused ∧ k < ph.pages ∧
      Work.page ph k ∈ reached (elfLoad pml4 image size s).2.calls.length (work image) ∧
      c.virt = ph.pageVa k ∧ c.flags = ph.vmmFlags := by
  obtain ⟨ph, k, hw, ht⟩ := (mem_targets pml4 image size s _).mp (List.mem_map_of_mem hc)
  obtain ⟨hph, hl, href, hk⟩ := page_mem_work.mp (reached_subset _ _ hw)
  exact ⟨ph, k, hph, hl, href, hk, hw, congrArg Prod.fst ht, congrArg Prod.snd ht⟩

theorem good_of_served (h : ∀ c ∈ (elfLoad pml4 image size s).2.calls, c.Served (pageOf pml4)) :
    (elfLoad pml4 image size s).2.Good (pageOf pml4) := fun c hc =>
  ⟨vpageOf_user (h c hc).1, (h c hc).2⟩

theorem leaf_of_served (h : Tables 4 roots s) (hr : pageOf pml4 ∈ roots)
    (hserved : ∀ c ∈ (elfLoad pml4 image size s).2.calls, c.Served (pageOf pml4))
    (hv : (elfLoad pml4 image size s).1.valid = true) (hph : ph ∈ phdrs image) (hl : ph.Loads)
    (hend : ph.vaddr.toNat + ph.memsz.toNat ≤ 2 ^ 47) {a : Nat} (ha : ph.Covers a) :
    ∃ c ∈ (elfLoad pml4 image size s).2.calls, vpageOf c.virt = vpageOf (BitVec.ofNat 64 a) ∧
      leafEntry (elfLoad pml4 image size s).2.phys.mem (pageOf pml4)
        (vpageOf (BitVec.ofNat 64 a)) = leafOf c.phys c.flags := by
  have hgood := good_of_served hserved
  obtain ⟨T, hT⟩ := elfLoad_loaded h hr hgood
  obtain ⟨hall, hheads⟩ := valid_run hv
  obtain ⟨k, hk, hva⟩ := ph.lt_pages_iff (by omega) ha.1 ha.2
  have hlow : a < 2 ^ 47 := Nat.lt_of_lt_of_le ha.2 hend
  obtain ⟨c, hc, ht⟩ := List.mem_map.mp ((mem_targets pml4 image size s _).mpr
    ⟨ph, k, by rw [hall]; exact page_mem_work.mpr ⟨hph, hl, (hheads ph hph).1, hk⟩, rfl⟩)
  have hvirt : c.virt = ph.pageVa k := congrArg Prod.fst ht
  have hsame : vpageOf c.virt = vpageOf (BitVec.ofNat 64 a) := by
    have hnat := toNat_ofNat_low hlow
    rw [hvirt, vpageOf_eq_iff (by omega) (by omega)]
    omega
  obtain ⟨c', hc', hpage, hleaf⟩ := Load.leaf_of_call hc (pageOf pml4) s.mem
  refine ⟨c', hc', hpage.trans hsame, ?_⟩
  rw [← hsame, ← hleaf]
  exact hT.leaf _ hr _ (hgood c hc).1

theorem SegmentsFit.confined (hf : SegmentsFit image size (pageOf pml4) s)
    (h : Tables 4 roots s) (hr : pageOf pml4 ∈ roots) :
    Confined image (pageOf pml4) s (elfLoad pml4 image size s) := by
  have hserved := (elfLoad_served h hr size).mpr hf.lasts
  obtain ⟨T, hT⟩ := elfLoad_loaded h hr (good_of_served hserved)
  have hrange (c : MapCall) (hc : c ∈ (elfLoad pml4 image size s).2.calls) :
      userLoadBase ≤ c.virt ∧ c.virt.toNat < 2 ^ 47 := by
    obtain ⟨ph, k, -, hl, href, hk, -, hvirt, -⟩ := call_page hc
    exact ⟨hvirt ▸ ph.base_le_pageVa hk fun hlow => href ⟨hl, hlow⟩, (hserved c hc).1⟩
  refine ⟨hrange, fun c hc => (hserved c hc).2, fun v hv => ?_, hT.kernelHalf _ hr,
    fun hv ph hph hl => ⟨fun a ha => ?_, ?_⟩⟩
  · have hbase : userLoadBase.toNat / 4096 = 1024 := rfl
    have huser : v.User := by
      unfold VPage.User
      unfold VPage.num at hv
      omega
    rw [hT.leaf _ hr v huser]
    refine Load.leaf_of_no_call (fun c hc hcv => ?_) _ _ _
    have hge := BitVec.le_def.mp (hrange c hc).1
    have hlt := (hrange c hc).2
    rw [← hcv, vpageOf_num] at hv
    omega
  · have hacc := (valid_iff h hr hserved).mp hv
    have hend := hf.ends hacc ph hph hl
    obtain ⟨c, hc, hpage, hleaf⟩ := leaf_of_served h hr hserved hv hph hl hend ha
    obtain ⟨ph', k, hph', hl', -, hk, -, hvirt, hflags⟩ := call_page hc
    have hend' := hf.ends hacc ph' hph' hl'
    have hlow : a < 2 ^ 47 := Nat.lt_of_lt_of_le ha.2 hend
    have hnat := toNat_ofNat_low hlow
    obtain ⟨a', ha', hcov⟩ := ph'.exists_covers hl' (by omega) hk
    have hclow := (hserved c hc).1
    rw [vpageOf_eq_iff hclow (by omega), hvirt, hnat] at hpage
    have hagree := hf.agree hacc ph hph ph' hph' hl hl' ⟨a, a', ha, ha', by omega⟩
    obtain ⟨h1, h2, h3⟩ := leafOf_vmmFlags ph' c.phys
    rw [← hflags, ← hleaf] at h1 h2 h3
    exact ⟨hlow, h1, h2, h3.trans hagree.symm⟩
  · have hle := BitVec.le_def.mp (((valid_run hv).2 ph hph).2 hl)
    have hend := hf.ends ((valid_iff h hr hserved).mp hv) ph hph hl
    rw [ph.vend_toNat (by omega)] at hle
    omega

/-- **Loading is confined to user space and complete** if and only if the segments are like that. -/
theorem elfLoad_confined_iff (h : Tables 4 roots s) (hr : pageOf pml4 ∈ roots) (size : U64) :
    Confined image (pageOf pml4) s (elfLoad pml4 image size s) ↔
      SegmentsFit image size (pageOf pml4) s := by
  constructor
  · intro hc
    have hserved : ∀ c ∈ (elfLoad pml4 image size s).2.calls, c.Served (pageOf pml4) := fun c hmem =>
      ⟨(hc.range c hmem).2, hc.entries c hmem⟩
    have hvalid := valid_iff h hr hserved
    refine ⟨(elfLoad_served h hr size).mp hserved, fun hacc ph hph hl => ?_,
      fun hacc ph hph ph' hph' hl hl' => ?_⟩
    · have hlast := ((hc.full (hvalid.mpr hacc) ph hph hl).1 _ (ph.covers_last hl)).low
      omega
    · rintro ⟨a, a', ha, ha', hpage⟩
      have h1 := (hc.full (hvalid.mpr hacc) ph hph hl).1 a ha
      have h2 := (hc.full (hvalid.mpr hacc) ph' hph' hl').1 a' ha'
      have hsame : vpageOf (BitVec.ofNat 64 a) = vpageOf (BitVec.ofNat 64 a') := by
        have hlow := toNat_ofNat_low h1.low
        have hlow' := toNat_ofNat_low h2.low
        have := h1.low
        have := h2.low
        rw [vpageOf_eq_iff (by omega) (by omega), hlow, hlow', hpage]
      rw [← h1.writable, ← h2.writable, hsame]
  · intro hf
    exact hf.confined h hr

end

/-! ## Two files -/

/-- Sixteen pages with an empty address space in page 2. -/
def emptySpace : Phys :=
  ⟨sixteenPages.pmm.mark 2,
    update sixteenPages.mem 2 (freshPml4 0x1000 sixteenPages.mem 2)⟩

theorem emptySpace_tables : Tables 4 (insert 2 ∅) emptySpace :=
  ((tables_empty sixteenPages_valid).newRoot (by decide) 0x1000).1

theorem elfLoad_confined_lowSegment : Accepted lowSegment 121 2 emptySpace ∧
    Confined lowSegment 2 emptySpace (elfLoad 0x2000 lowSegment 121 emptySpace) := by
  have hroot : pageOf 0x2000 ∈ insert 2 (∅ : Set Nat) := .inl rfl
  refine ⟨⟨by decide +kernel, ?_, by decide +kernel⟩,
    (elfLoad_confined_iff emptySpace_tables hroot 121).mpr
      ⟨fun _ => by decide +kernel, fun _ ph hph _ => ?_, fun _ ph hph ph' hph' _ _ _ => ?_⟩⟩
  · rw [lowSegment_phdrs]
    decide
  · rw [lowSegment_phdrs, List.mem_singleton] at hph
    subst hph
    decide
  · rw [lowSegment_phdrs, List.mem_singleton] at hph hph'
    rw [hph, hph']

/-- A segment of one page at 2^47. -/
def highSegment : Image := imageOf (ehdrBytes 64 1 ++ phdrBytes 7 120 0x800000000000 0 16)

/-- It is accepted and mapped in the kernel half of the PML4. -/
theorem elfLoad_maps_kernel_half :
    (elfLoad 0x2000 highSegment 120 emptySpace).1.valid = true ∧
      (elfLoad 0x2000 highSegment 120 emptySpace).2.calls.map MapCall.virt = [0x800000000000] ∧
      (elfLoad 0x2000 highSegment 120 emptySpace).2.phys.mem 2 256 ≠ emptySpace.mem 2 256 := by
  decide +kernel

end Sinux.Proc

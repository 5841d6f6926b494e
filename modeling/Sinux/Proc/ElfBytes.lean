import Sinux.Proc.ElfMap

/-!
# What user space finds in the segments `elf_load` has loaded

`userByte` is the byte at a user address. Each page gets the bytes of its segment that lie in it and
zeros around them (`byte_fillPage`), so a page that two segments share holds only those of the second:
its page replaces the first one, which is mapped nowhere any more.

- `nodup_calls_iff`: the pages mapped are all different if and only if no two segments share one.
- `elfLoad_intact_iff`: a well-formed file is loaded intact, and every page obtained is mapped, if and
  only if no two of its segments share a page.
-/

namespace Sinux.Proc

open Sinux.Lib Sinux.Lib.Radix Sinux.Mm

/-! ## The bytes of a page -/

/-- If nothing is copied, the page has no byte of the file part of the segment. -/
theorem pageCopy_none {ph : Phdr} {va : U64} (h : pageCopy ph va = none)
    (hva : ph.vaddr.toNat < va.toNat + 4096) {a : Nat} (ha : va.toNat ≤ a) :
    ¬ (ph.vaddr.toNat ≤ a ∧ a < ph.vaddr.toNat + ph.filesz.toNat) := by
  have h4096 : (4096 : U64).toNat = 4096 := rfl
  have h0 : (0 : U64).toNat = 0 := rfl
  unfold pageCopy at h
  dsimp only at h
  by_cases h1 : ph.vaddr ≤ va ∧ 0 < ph.filesz
  · rw [if_pos h1] at h
    have hoff : (va - ph.vaddr).toNat = va.toNat - ph.vaddr.toNat := BitVec.toNat_sub_of_le h1.1
    by_cases h2 : va - ph.vaddr < ph.filesz
    · rw [if_pos h2] at h
      cases h
    · rw [BitVec.lt_def, hoff] at h2
      omega
  · rw [if_neg h1] at h
    rw [BitVec.le_def, BitVec.lt_def, h0] at h1
    by_cases h2 : va < ph.vaddr
    · rw [if_pos h2] at h
      have hlt := BitVec.lt_def.mp h2
      have hoff : (ph.vaddr - va).toNat = ph.vaddr.toNat - va.toNat :=
        BitVec.toNat_sub_of_le (BitVec.le_of_lt h2)
      have hrest : (4096 - (ph.vaddr - va)).toNat = 4096 - (ph.vaddr.toNat - va.toNat) := by
        rw [BitVec.toNat_sub_of_le (by rw [BitVec.le_def]; omega), hoff, h4096]
      generalize hcopy : (if ph.filesz < 4096 - (ph.vaddr - va) then ph.filesz
        else 4096 - (ph.vaddr - va)) = copy at h
      by_cases h3 : 0 < copy
      · rw [if_pos h3] at h
        cases h
      · rw [BitVec.lt_def, h0, ← hcopy] at h3
        split_ifs at h3 <;> omega
    · rw [BitVec.lt_def] at h2
      omega

/-- **The bytes of a page**: those of the file part of the segment, and zeros. -/
theorem byte_fillPage {image : Image} {ph : Phdr} {va : U64} {g j : Nat} {s : Phys}
    (hva : ph.vaddr.toNat < va.toNat + 4096) (hg : g < 2 ^ 52) (hj : j < 4096) :
    (fillPage image ph va (pageAddr g) s).byte (pageAddr g + BitVec.ofNat 64 j) =
      if ph.vaddr.toNat ≤ va.toNat + j ∧ va.toNat + j < ph.vaddr.toNat + ph.filesz.toNat then
        image (ph.offset + BitVec.ofNat 64 (va.toNat + j - ph.vaddr.toNat))
      else 0 := by
  have hjn : (BitVec.ofNat 64 j).toNat = j := by
    rw [BitVec.toNat_ofNat, Nat.mod_eq_of_lt (by omega)]
  obtain ⟨hx, hpage⟩ := pageOf_pageAddr_add hg hj hjn
  have hzero : (s.kmemsetPage (pageAddr g)).byte (pageAddr g + BitVec.ofNat 64 j) = 0 := by
    rw [Phys.byte_kmemsetPage, hpage, pageOf_pageAddr hg, if_pos rfl]
  unfold fillPage
  cases hc : pageCopy ph va with
  | none => rw [hzero, if_neg (pageCopy_none hc hva (Nat.le_add_right _ j))]
  | some c =>
    have hfit := pageCopy_fits hva hc
    have hlt := c.len.isLt
    dsimp only
    rw [Phys.byte_kmemcpyFrom (by omega), hzero]
    have hsub : pageAddr g + BitVec.ofNat 64 j - (pageAddr g + c.dst) =
        BitVec.ofNat 64 j - c.dst := by
      generalize pageAddr g = p
      bv_omega
    rw [hsub]
    by_cases hin : c.dst.toNat ≤ j ∧ j < c.dst.toNat + c.len.toNat
    · have hoff : BitVec.ofNat 64 j - c.dst = BitVec.ofNat 64 (j - c.dst.toNat) := by
        apply BitVec.eq_of_toNat_eq
        rw [BitVec.toNat_sub, hjn, BitVec.toNat_ofNat]
        omega
      have hnat : (BitVec.ofNat 64 (j - c.dst.toNat)).toNat = j - c.dst.toNat := by
        rw [BitVec.toNat_ofNat, Nat.mod_eq_of_lt (by omega)]
      rw [hoff, hnat, if_pos (by omega)]
      rcases pageCopy_cases hc with ⟨hle, hrest, hdst, hsrc, hlen⟩ | ⟨hlt', hdst, hsrc, hlen⟩
      · rw [if_pos (by omega), hsrc, BitVec.add_assoc]
        congr 2
        apply BitVec.eq_of_toNat_eq
        rw [BitVec.toNat_add, BitVec.toNat_sub_of_le (BitVec.le_def.mpr hle), hnat,
          BitVec.toNat_ofNat, hdst]
        congr 1
        omega
      · have hlen := hlen (by omega)
        rw [if_pos (by omega), hsrc]
        congr 3
        omega
    · have hout : ¬ (BitVec.ofNat 64 j - c.dst).toNat < c.len.toNat := by
        rw [BitVec.toNat_sub, hjn]
        omega
      rw [if_neg hout, if_neg]
      rcases pageCopy_cases hc with ⟨hle, hrest, hdst, hsrc, hlen⟩ | ⟨hlt', hdst, hsrc, hlen⟩
      · omega
      · have hlen := hlen (by omega)
        omega

/-! ## The pages mapped -/

/-- The call was made for page `k` of segment `ph`, with the page filled. -/
structure CallFor (image : Image) (ph : Phdr) (k : Nat) (c : MapCall) : Prop where
  virt : c.virt = ph.pageVa k
  flags : c.flags = ph.vmmFlags
  before : ∃ g < 2 ^ 52, ∃ s, c.phys = pageAddr g ∧
    c.before = fillPage image ph (ph.pageVa k) (pageAddr g) s

section

variable {pml4 : U64} {image : Image} {size : U64} {s : Phys} {roots : Set Nat} {st : Load}

theorem Phys.alloc_pageAddr (s : Phys) (h : s.alloc.1 ≠ 0) : ∃ g < 2 ^ 52, s.alloc.1 = pageAddr g := by
  rcases pmmAlloc_cases s.pmm with ⟨-, he⟩ | ⟨i, hi, -, he⟩
  · exact absurd (congrArg Prod.fst he) h
  · exact ⟨i, hi.lt, congrArg Prod.fst he⟩

theorem calls_for (l : List Work) (st : Load) :
    ∀ c ∈ (finalState (l.foldlM (Work.run pml4 image) st)).calls,
      c ∈ st.calls ∨ ∃ ph k, Work.page ph k ∈ l ∧ CallFor image ph k c := by
  induction l generalizing st with
  | nil => exact fun c hc => .inl hc
  | cons w l ih =>
    have hstep (st' : Load) (hst : ∀ c ∈ st'.calls, c ∈ st.calls ∨
        ∃ ph k, Work.page ph k ∈ w :: l ∧ CallFor image ph k c) :
        ∀ c ∈ (finalState (l.foldlM (Work.run pml4 image) st')).calls,
          c ∈ st.calls ∨ ∃ ph k, Work.page ph k ∈ w :: l ∧ CallFor image ph k c := fun c hc => by
      rcases ih st' c hc with hc | ⟨ph, k, hw, hfor⟩
      · exact hst c hc
      · exact .inr ⟨ph, k, List.mem_cons_of_mem w hw, hfor⟩
    cases w with
    | head ph =>
      by_cases href : ph.Refused
      · rw [foldlM_cons_error (if_pos href)]
        exact fun c hc => .inl hc
      · rw [foldlM_cons_ok (if_neg href)]
        exact hstep _ fun c hc => .inl hc
    | page ph k =>
      by_cases hnull : st.phys.alloc.1 = 0
      · rw [foldlM_cons_error (if_pos hnull)]
        exact fun c hc => .inl hc
      · rw [foldlM_cons_ok (if_neg hnull)]
        refine hstep _ fun c hc => ?_
        rcases List.mem_cons.mp hc with rfl | hc
        · obtain ⟨g, hg, he⟩ := Phys.alloc_pageAddr _ hnull
          have hfill := congrArg (fillPage image ph (ph.pageVa k) · st.phys.alloc.2) he
          exact .inr ⟨ph, k, List.mem_cons_self .., rfl, rfl, g, hg, _, he, hfill⟩
        · exact .inl hc
    | tail ph =>
      rw [foldlM_cons_ok rfl]
      exact hstep _ fun c hc => .inl hc

theorem elfLoad_calls_for : ∀ c ∈ (elfLoad pml4 image size s).2.calls,
    ∃ ph k, ph ∈ phdrs image ∧ ph.Loads ∧ k < ph.pages ∧ CallFor image ph k c := by
  intro c hc
  by_cases hvalid : elfValidate image size = true
  · obtain ⟨last, -, hstate⟩ := elfLoad_state pml4 s hvalid
    rw [hstate] at hc
    rcases calls_for (work image) (loadStart image size s) c hc with hc | ⟨ph, k, hw, hfor⟩
    · exact absurd hc List.not_mem_nil
    · obtain ⟨hph, hl, -, hk⟩ := page_mem_work.mp hw
      exact ⟨ph, k, hph, hl, hk, hfor⟩
  · rw [elfLoad_of_not_validate hvalid] at hc
    exact absurd hc List.not_mem_nil

end

/-! ## Segments that share no page -/

/-- What the linker sees to: segments in user space, no larger in the file than in memory, with
pairwise disjoint ranges. -/
structure WellFormed (image : Image) : Prop where
  low : ∀ ph ∈ phdrs image, ph.Loads → userLoadBase ≤ ph.vaddr
  ends : ∀ ph ∈ phdrs image, ph.Loads → ph.vaddr.toNat + ph.memsz.toNat ≤ 2 ^ 47
  sizes : ∀ ph ∈ phdrs image, ph.Loads → ph.filesz.toNat ≤ ph.memsz.toNat
  disjoint : (phdrs image).Pairwise fun ph ph' =>
    ph.Loads → ph'.Loads → ∀ a, ph.Covers a → ¬ ph'.Covers a

/-- No two segments have bytes in one page. -/
def NoSharedPage (image : Image) : Prop :=
  (phdrs image).Pairwise fun ph ph' => ph.Loads → ph'.Loads → ¬ ph.Share ph'

theorem Phdr.Share.symm {ph ph' : Phdr} (h : ph.Share ph') : ph'.Share ph := by
  obtain ⟨a, a', ha, ha', he⟩ := h
  exact ⟨a', a, ha', ha, he.symm⟩

section

variable {image : Image} {ph ph' : Phdr}

theorem NoSharedPage.eq (h : NoSharedPage image) (hph : ph ∈ phdrs image)
    (hph' : ph' ∈ phdrs image) (hl : ph.Loads) (hl' : ph'.Loads) (hs : ph.Share ph') : ph = ph' := by
  by_contra hne
  have : Std.Symm fun ph ph' : Phdr => ph.Loads → ph'.Loads → ¬ ph.Share ph' :=
    ⟨fun _ _ h hl hl' hs => h hl' hl hs.symm⟩
  exact List.Pairwise.forall h hph hph' hne hl hl' hs

/-- The page numbers of a segment. -/
def Phdr.vpages (ph : Phdr) : List VPage :=
  if ph.Loads ∧ ¬ ph.Refused then (List.range ph.pages).map fun k => vpageOf (ph.pageVa k) else []

theorem flatMap_targets (ph : Phdr) :
    ph.work.flatMap (fun w => w.targets.map fun t => vpageOf t.1) = ph.vpages := by
  unfold Phdr.work Phdr.vpages
  rw [List.flatMap_cons]
  split
  · rw [List.flatMap_append, List.flatMap_map]
    simp [Work.targets, ← List.map_eq_flatMap]
  · rfl

theorem WellFormed.loads (hw : WellFormed image) (hph : ph ∈ phdrs image) (hl : ph.Loads) :
    ¬ ph.Refused := fun href =>
  BitVec.not_lt.mpr (hw.low ph hph hl) href.2

theorem WellFormed.page_low (hw : WellFormed image) (hph : ph ∈ phdrs image) (hl : ph.Loads)
    {k : Nat} (hk : k < ph.pages) : (ph.pageVa k).toNat < 2 ^ 47 := by
  have hend := hw.ends ph hph hl
  have hlt := ph.pageVa_lt_vend hk
  rw [ph.vend_toNat (by omega)] at hlt
  omega

theorem WellFormed.mem_vpages (hw : WellFormed image) (hph : ph ∈ phdrs image) (hl : ph.Loads)
    {v : VPage} : v ∈ ph.vpages ↔ ∃ a, ph.Covers a ∧ vpageOf (BitVec.ofNat 64 a) = v := by
  have hend := hw.ends ph hph hl
  unfold Phdr.vpages
  rw [if_pos ⟨hl, hw.loads hph hl⟩, List.mem_map]
  constructor
  · rintro ⟨k, hk, rfl⟩
    rw [List.mem_range] at hk
    obtain ⟨a, ha, hpage⟩ := ph.exists_covers hl (by omega) hk
    have hlow : a < 2 ^ 47 := Nat.lt_of_lt_of_le ha.2 hend
    have hnat := toNat_ofNat_low hlow
    exact ⟨a, ha, (vpageOf_eq_iff (by omega) (hw.page_low hph hl hk)).mpr (by omega)⟩
  · rintro ⟨a, ha, rfl⟩
    obtain ⟨k, hk, hva⟩ := ph.lt_pages_iff (by omega) ha.1 ha.2
    have hlow : a < 2 ^ 47 := Nat.lt_of_lt_of_le ha.2 hend
    have hnat := toNat_ofNat_low hlow
    exact ⟨k, List.mem_range.mpr hk,
      (vpageOf_eq_iff (hw.page_low hph hl hk) (by omega)).mpr (by omega)⟩

theorem WellFormed.nodup_vpages (hw : WellFormed image) (hph : ph ∈ phdrs image) :
    ph.vpages.Nodup := by
  unfold Phdr.vpages
  split
  · rename_i hl
    refine List.nodup_range.map_on fun k hk j hj he => ?_
    rw [List.mem_range] at hk hj
    rw [vpageOf_eq_iff (hw.page_low hph hl.1 hk) (hw.page_low hph hl.1 hj), ph.pageVa_toNat hk,
      ph.pageVa_toNat hj] at he
    omega
  · exact List.nodup_nil

theorem WellFormed.share_iff (hw : WellFormed image) (hph : ph ∈ phdrs image)
    (hph' : ph' ∈ phdrs image) (hl : ph.Loads) (hl' : ph'.Loads) :
    ph.Share ph' ↔ ¬ List.Disjoint ph.vpages ph'.vpages := by
  have hend := hw.ends ph hph hl
  have hend' := hw.ends ph' hph' hl'
  have hpage (a a' : Nat) (ha : ph.Covers a) (ha' : ph'.Covers a') :
      vpageOf (BitVec.ofNat 64 a) = vpageOf (BitVec.ofNat 64 a') ↔ a / 4096 = a' / 4096 := by
    have hlow : a < 2 ^ 47 := Nat.lt_of_lt_of_le ha.2 hend
    have hlow' : a' < 2 ^ 47 := Nat.lt_of_lt_of_le ha'.2 hend'
    have hnat := toNat_ofNat_low hlow
    have hnat' := toNat_ofNat_low hlow'
    rw [vpageOf_eq_iff (by omega) (by omega), hnat, hnat']
  unfold Phdr.Share List.Disjoint
  simp only [hw.mem_vpages hph hl, hw.mem_vpages hph' hl', not_forall]
  constructor
  · rintro ⟨a, a', ha, ha', he⟩
    exact ⟨_, ⟨a, ha, rfl⟩, ⟨a', ha', ((hpage a a' ha ha').mpr he).symm⟩, id⟩
  · rintro ⟨v, ⟨a, ha, rfl⟩, ⟨a', ha', he⟩, -⟩
    exact ⟨a, a', ha, ha', (hpage a a' ha ha').mp he.symm⟩

/-- **The pages mapped are all different** if and only if no two segments share one. -/
theorem nodup_calls_iff {pml4 size : U64} {s : Phys} (hw : WellFormed image)
    (hv : (elfLoad pml4 image size s).1.valid = true) :
    ((elfLoad pml4 image size s).2.calls.map fun c => vpageOf c.virt).Nodup ↔
      NoSharedPage image := by
  have hmap : ((elfLoad pml4 image size s).2.calls.map fun c => vpageOf c.virt) =
      (work image).reverse.flatMap fun w => w.targets.map fun t => vpageOf t.1 := by
    have h := congrArg (List.map fun t : U64 × U64 => vpageOf t.1)
      (elfLoad_targets pml4 image size s)
    rw [(valid_run hv).1, List.map_map, List.map_flatMap] at h
    exact h
  rw [hmap, ((List.reverse_perm (work image)).flatMap_right _).nodup_iff, work, List.flatMap_assoc,
    List.nodup_flatMap]
  simp only [flatMap_targets]
  rw [and_iff_right fun ph hph => hw.nodup_vpages hph, NoSharedPage]
  refine List.Pairwise.iff_of_mem fun {ph ph'} hph hph' => ?_
  by_cases hl : ph.Loads ∧ ph'.Loads
  · simp only [hl.1, hl.2, true_imp_iff, hw.share_iff hph hph' hl.1 hl.2, not_not]
  · have hnil : ph.vpages = [] ∨ ph'.vpages = [] := by
      rw [not_and_or] at hl
      exact hl.imp (fun h => if_neg fun hx => h hx.1) fun h => if_neg fun hx => h hx.1
    refine iff_of_true ?_ fun h h' => absurd ⟨h, h'⟩ hl
    show List.Disjoint ph.vpages ph'.vpages
    rcases hnil with hnil | hnil <;> simp [hnil]

end

/-! ## The segments -/

/-- The byte user space finds at `a`. -/
def userByte (s : Phys) (root a : Nat) : Option (BitVec 8) :=
  (childOf (leafEntry s.mem root (vpageOf (BitVec.ofNat 64 a)))).map fun f =>
    s.byte (pageAddr f + BitVec.ofNat 64 (a % 4096))

/-- **Loaded intact**: every byte of every segment is there, and every page that was obtained belongs
to the address space. -/
structure Intact (image : Image) (root : Nat) (s s' : Phys) : Prop where
  bytes : ∀ ph ∈ phdrs image, ph.Loads → ∀ k < ph.memsz.toNat,
    userByte s' root (ph.vaddr.toNat + k) =
      some (if k < ph.filesz.toNat then image (ph.offset + BitVec.ofNat 64 k) else 0)
  mapped : ∀ f, s.pmm.Free f → ¬ s'.pmm.Free f → Node childOf userIdx 4 s'.mem {root} f

section

variable {pml4 : U64} {image : Image} {size : U64} {s : Phys} {roots : Set Nat}

variable {root : Nat} {T : List Nat} {st : Load}

/-- **The pages obtained are mapped** if and only if all calls were for different pages. -/
theorem Loaded.mapped_iff (h₀ : Tables 4 {root} s) (h : Loaded {root} root s T st)
    (huser : ∀ c ∈ st.calls, (vpageOf c.virt).User) (hnx : ∀ c ∈ st.calls, c.flags &&& vmmNx = 0) :
    (∀ f, s.pmm.Free f → ¬ st.phys.pmm.Free f → Node childOf userIdx 4 st.phys.mem {root} f) ↔
      (st.calls.map fun c => vpageOf c.virt).Nodup := by
  have hroot : root ∈ ({root} : Set Nat) := rfl
  obtain ⟨L, htakes, hL⟩ := h.takes
  have hcalls : st.calls.Nodup := h.distinct.of_map
  have hpage (c : MapCall) (hc : c ∈ st.calls) : pageOf c.phys ∈ L :=
    (hL _).mpr (.inr (List.mem_map_of_mem hc))
  have hfree (c : MapCall) (hc : c ∈ st.calls) : s.pmm.Free (pageOf c.phys) :=
    htakes.free_of_mem _ (hpage c hc)
  have hchild (c : MapCall) (hc : c ∈ st.calls) :
      childOf (leafOf c.phys c.flags) = some (pageOf c.phys) := childOf_leafOf (hnx c hc) _
  constructor
  · intro hall
    refine hcalls.map_on fun c hc c' hc' hsame => ?_
    -- the entry for the page is that of the last call, and both calls have their page there
    have hlast (d : MapCall) (hd : d ∈ st.calls) :
        childOf (leafEntry st.phys.mem root (vpageOf d.virt)) = some (pageOf d.phys) := by
      have hnode := hall _ (hfree d hd) fun hf =>
        Pmm.not_free_of_used (htakes.used_of_mem _ (hpage d hd)) hf
      rcases node_four.mp hnode with hn | ⟨r, rfl, v, hv, hx⟩
      · rcases (h.node _).mp hn with hn | hT
        · exact absurd (hn.mono (Nat.le_succ 3) subset_rfl) (h₀.not_node_of_free (hfree d hd))
        · exact absurd hT (h.apart d hd)
      · by_cases hcall : ∃ e ∈ st.calls, vpageOf e.virt = v
        · obtain ⟨e, he, rfl⟩ := hcall
          obtain ⟨e', he', hev, hleaf⟩ := Load.leaf_of_call he r s.mem
          rw [h.leaf r rfl _ (huser e he), hleaf, hchild e' he'] at hx
          obtain rfl : e' = d := List.inj_on_of_nodup_map h.distinct he' hd (Option.some.inj hx)
          rw [hev, h.leaf r rfl _ (huser e he), hleaf, hchild e' he']
        · rw [h.leaf r rfl v hv, Load.leaf_of_no_call fun e he hev => hcall ⟨e, he, hev⟩] at hx
          have hnode : Node childOf userIdx 4 s.mem {r} (pageOf d.phys) :=
            node_four.mpr (.inr ⟨r, rfl, v, hv, hx⟩)
          exact absurd hnode (h₀.not_node_of_free (hfree d hd))
    have h1 := hlast c hc
    rw [hsame, hlast c' hc'] at h1
    exact List.inj_on_of_nodup_map h.distinct hc hc' (Option.some.inj h1).symm
  · intro hnd f hf hused
    by_cases hfL : f ∈ L
    · rcases (hL f).mp hfL with hT | hmem
      · exact ((h.node f).mpr (.inr hT)).mono (Nat.le_succ 3) subset_rfl
      · obtain ⟨c, hc, rfl⟩ := List.mem_map.mp hmem
        obtain ⟨c', hc', hsame, hleaf⟩ := Load.leaf_of_call hc root s.mem
        obtain rfl : c' = c := List.inj_on_of_nodup_map hnd hc' hc hsame
        refine node_four.mpr (.inr ⟨root, rfl, _, huser c' hc', ?_⟩)
        rw [h.leaf root rfl _ (huser c' hc'), hleaf, hchild c' hc']
    · exact absurd ((htakes.free_iff f).mpr ⟨hf, hfL⟩) hused

theorem WellFormed.good (hw : WellFormed image)
    (hroom : ∀ c ∈ (elfLoad pml4 image size s).2.calls, ¬ c.Starved (pageOf pml4)) :
    (elfLoad pml4 image size s).2.Good (pageOf pml4) := fun c hc => by
  obtain ⟨ph, k, hph, hl, hk, hfor⟩ := elfLoad_calls_for c hc
  exact ⟨hfor.virt ▸ vpageOf_user (hw.page_low hph hl hk), hroom c hc⟩

theorem userByte_of_leaf {a g : Nat} {flags : U64} (hg : g < 2 ^ 52) (hnx : flags &&& vmmNx = 0)
    (hleaf : leafEntry s.mem root (vpageOf (BitVec.ofNat 64 a)) = leafOf (pageAddr g) flags) {t : Phys}
    (hmem : s.mem g = t.mem g) :
    userByte s root a = some (t.byte (pageAddr g + BitVec.ofNat 64 (a % 4096))) := by
  have hoff : (BitVec.ofNat 64 (a % 4096)).toNat = a % 4096 := by
    rw [BitVec.toNat_ofNat, Nat.mod_eq_of_lt (by omega)]
  have hpage := (pageOf_pageAddr_add hg (Nat.mod_lt a (by decide)) hoff).2
  rw [userByte, hleaf, childOf_leafOf hnx, pageOf_pageAddr hg, Option.map_some]
  congr 1
  exact Phys.byte_congr (by rw [hpage, hmem])

theorem userByte_segment (h : Tables 4 {pageOf pml4} s) (hw : WellFormed image)
    (hv : (elfLoad pml4 image size s).1.valid = true)
    (hroom : ∀ c ∈ (elfLoad pml4 image size s).2.calls, ¬ c.Starved (pageOf pml4))
    (hno : NoSharedPage image) {ph : Phdr} (hph : ph ∈ phdrs image) (hl : ph.Loads) {k : Nat}
    (hk : k < ph.memsz.toNat) :
    userByte (elfLoad pml4 image size s).2.phys (pageOf pml4) (ph.vaddr.toNat + k) =
      some (if k < ph.filesz.toNat then image (ph.offset + BitVec.ofNat 64 k) else 0) := by
  have hgood := hw.good hroom
  obtain ⟨T, hT⟩ := elfLoad_loaded h rfl hgood
  have hend := hw.ends ph hph hl
  have hcov : ph.Covers (ph.vaddr.toNat + k) := ⟨Nat.le_add_right _ k, by omega⟩
  obtain ⟨j, hj, hva⟩ := ph.lt_pages_iff (by omega) hcov.1 hcov.2
  have hnat := toNat_ofNat_low (a := ph.vaddr.toNat + k) (by omega)
  obtain ⟨c, hc, ht⟩ := List.mem_map.mp ((mem_targets pml4 image size s _).mpr
    ⟨ph, j, by
      rw [(valid_run hv).1]
      exact page_mem_work.mpr ⟨hph, hl, hw.loads hph hl, hj⟩, rfl⟩)
  have hvirt : c.virt = ph.pageVa j := congrArg Prod.fst ht
  have hvpage : vpageOf c.virt = vpageOf (BitVec.ofNat 64 (ph.vaddr.toNat + k)) := by
    rw [hvirt, vpageOf_eq_iff (by omega) (by omega)]
    omega
  -- the call was made for this page of this segment
  obtain ⟨ph', j', hph', hl', hj', hfor⟩ := elfLoad_calls_for c hc
  have hend' := hw.ends ph' hph' hl'
  obtain ⟨a', ha', hpage'⟩ := ph'.exists_covers hl' (by omega) hj'
  obtain rfl : ph = ph' := hno.eq hph hph' hl hl' ⟨_, a', hcov, ha', by
    rw [hpage', ← hfor.virt, hvirt]
    omega⟩
  obtain rfl : j = j' := by
    have he : (ph.pageVa j).toNat = (ph.pageVa j').toNat := by rw [← hvirt, hfor.virt]
    rw [ph.pageVa_toNat hj, ph.pageVa_toNat hj'] at he
    omega
  obtain ⟨g, hg, t, hphys, hbefore⟩ := hfor.before
  -- and it is the last one for the page
  obtain ⟨c', hc', hsame, hleaf⟩ := Load.leaf_of_call hc (pageOf pml4) s.mem
  obtain rfl : c' = c :=
    List.inj_on_of_nodup_map ((nodup_calls_iff hw hv).mpr hno) hc' hc hsame
  have hentry := hT.leaf _ rfl _ (hgood c' hc).1
  rw [hleaf, hphys, hvpage, hfor.flags] at hentry
  have hcontents := hT.contents c' hc
  rw [hphys, pageOf_pageAddr hg, hbefore] at hcontents
  have hbase : ph.vaddr.toNat < (ph.pageVa j).toNat + 4096 := by omega
  rw [userByte_of_leaf hg (vmmFlags_nx ph) hentry hcontents,
    byte_fillPage hbase hg (Nat.mod_lt _ (by decide))]
  have hsum : (ph.pageVa j).toNat + (ph.vaddr.toNat + k) % 4096 = ph.vaddr.toNat + k := by omega
  rw [hsum, Nat.add_sub_cancel_left]
  congr 1
  exact if_congr (by omega) rfl rfl

/-- **A well-formed file is loaded intact** if and only if no two of its segments share a page. -/
theorem elfLoad_intact_iff (h : Tables 4 roots s) (hr : pageOf pml4 ∈ roots)
    (hw : WellFormed image) (hv : (elfLoad pml4 image size s).1.valid = true)
    (hroom : ∀ c ∈ (elfLoad pml4 image size s).2.calls, ¬ c.Starved (pageOf pml4)) :
    Intact image (pageOf pml4) s (elfLoad pml4 image size s).2.phys ↔ NoSharedPage image := by
  have hroot := h.root hr
  have hgood := hw.good hroom
  obtain ⟨T, hT⟩ := elfLoad_loaded hroot rfl hgood
  have hmapped := hT.mapped_iff hroot (fun c hc => (hgood c hc).1) fun c hc => by
    obtain ⟨ph, k, -, -, -, hfor⟩ := elfLoad_calls_for c hc
    rw [hfor.flags]
    exact vmmFlags_nx ph
  rw [nodup_calls_iff hw hv] at hmapped
  constructor
  · intro hi
    exact hmapped.mp hi.mapped
  · intro hno
    exact ⟨fun ph hph hl k hk => userByte_segment hroot hw hv hroom hno hph hl hk, hmapped.mpr hno⟩

end

/-- Two segments of one byte each, at `USER_LOAD_BASE` and at `vaddr`. -/
def twoSegments (vaddr : U64) : Image :=
  imageOf (ehdrBytes 64 2 ++ phdrBytes 5 176 0x400000 1 1 ++ phdrBytes 6 177 vaddr 1 1 ++ [5, 6])

theorem phdrs_twoPages : phdrs (twoSegments 0x401000) =
    [⟨64, 1, 5, 176, 0x400000, 1, 1⟩, ⟨120, 1, 6, 177, 0x401000, 1, 1⟩] := by decide +kernel

theorem phdrs_onePage : phdrs (twoSegments 0x400800) =
    [⟨64, 1, 5, 176, 0x400000, 1, 1⟩, ⟨120, 1, 6, 177, 0x400800, 1, 1⟩] := by decide +kernel

/-- Two segments in two pages. -/
theorem elfLoad_intact_twoPages : NoSharedPage (twoSegments 0x401000) ∧
    Intact (twoSegments 0x401000) 2 emptySpace
      (elfLoad 0x2000 (twoSegments 0x401000) 178 emptySpace).2.phys := by
  have hroot : pageOf 0x2000 ∈ insert 2 (∅ : Set Nat) := .inl rfl
  have hroom : ∀ c ∈ (elfLoad 0x2000 (twoSegments 0x401000) 178 emptySpace).2.calls,
      ¬ c.Starved (pageOf 0x2000) := by decide +kernel
  have hwell : WellFormed (twoSegments 0x401000) := by
    constructor
    all_goals rw [phdrs_twoPages]
    · simp [Phdr.Loads, userLoadBase]
    · simp [Phdr.Loads]
    · simp [Phdr.Loads]
    · simp [Phdr.Loads, Phdr.Covers]
      omega
  have hno : NoSharedPage (twoSegments 0x401000) := by
    rw [NoSharedPage, phdrs_twoPages]
    simp [Phdr.Loads, Phdr.Share, Phdr.Covers]
    omega
  exact ⟨hno, (elfLoad_intact_iff emptySpace_tables hroot hwell (by decide +kernel) hroom).mpr hno⟩

/-- Of two segments in one page, the byte of the first is gone, and so is the page it was in. -/
theorem elfLoad_loses_shared_page :
    let s := elfLoad 0x2000 (twoSegments 0x400800) 178 emptySpace
    WellFormed (twoSegments 0x400800) ∧ s.1.valid = true ∧ twoSegments 0x400800 176 = 5 ∧
      userByte s.2.phys 2 0x400000 = some 0 ∧ userByte s.2.phys 2 0x400800 = some 6 := by
  refine ⟨?_, by decide +kernel⟩
  constructor
  all_goals rw [phdrs_onePage]
  · simp [Phdr.Loads, userLoadBase]
  · simp [Phdr.Loads]
  · simp [Phdr.Loads]
  · simp [Phdr.Loads, Phdr.Covers]
    omega

end Sinux.Proc

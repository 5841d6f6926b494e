import Mathlib.Algebra.Order.Interval.Finset.SuccPred
import Mathlib.Data.Nat.SuccPred
import Mathlib.Order.Interval.Finset.Nat
import Sinux.Mm.Clone
import Sinux.Proc.ElfBytes

/-!
# The pages of one segment

The page loop of `elf_load` for one `PT_LOAD` header, on any address space whose tables are in
order. The first, the middle and the last page take different branches of `pageCopy`.

- `mapCost` counts the pages that are needed to map new frames at a set of virtual pages: the frames
  and the tables above them that are missing.
- `PagesFilled` is what holds after `k` rounds; `pagesFilled_page` is one round.
- `loadSegment_exact`: with enough free pages the loop maps exactly the pages from `p_vaddr` rounded
  down to `p_vaddr + p_memsz` rounded up, and user space finds the bytes of the file there from
  `p_vaddr` to `p_vaddr + p_filesz` and zeros around them.
-/

namespace Sinux.Proc

open Sinux.Lib Sinux.Lib.Radix Sinux.Mm

/-! ## What mapping costs -/

/-- The pages needed to map a new frame at each page of `D`. -/
def mapCost (m : Mem) (r : Nat) (D : Finset VPage) : Nat := D.card + (tablesMissing m r D).card

theorem mapCost_insert {m m' : Mem} {r : Nat} {D : Finset VPage} {v : VPage} (hv : v ∉ D)
    (huser : ∀ w ∈ D, w.User)
    (hpath : ∀ ρ, Path userIdx 3 ρ →
      (walk childOf m' r ρ = none ↔ walk childOf m r ρ = none ∧ ρ ∉ v.tablePaths)) :
    mapCost m r (insert v D) = 1 + missing m r v + mapCost m' r D := by
  unfold mapCost
  rw [Finset.card_insert_of_notMem hv, card_tablesMissing_insert huser hpath]
  omega

theorem missing_lt_mapCost (m : Mem) (r : Nat) {D : Finset VPage} {v : VPage} (hv : v ∉ D) :
    missing m r v < mapCost m r (insert v D) := by
  have hsub : (v.tablePaths.toFinset.filter fun ρ => walk childOf m r ρ = none) ⊆
      tablesMissing m r (insert v D) := fun ρ hρ => by
    obtain ⟨hρ, hnone⟩ := Finset.mem_filter.mp hρ
    rw [tablesMissing, tablesOver_insert]
    exact Finset.mem_filter.mpr ⟨Finset.mem_union_left _ hρ, hnone⟩
  have hcard := Finset.card_le_card hsub
  rw [← missing_eq_card] at hcard
  unfold mapCost
  rw [Finset.card_insert_of_notMem hv]
  omega

namespace Phdr

variable {ph : Phdr} {k : Nat}

/-- The virtual pages of the rounds from `k` on. -/
def pagesFrom (ph : Phdr) (k : Nat) : Finset VPage :=
  (Finset.Ico k ph.pages).image fun j => vpageOf (ph.pageVa j)

/-- The segment ends in user space, with the page it ends in. -/
def EndsLow (ph : Phdr) : Prop := ph.vaddr.toNat + ph.memsz.toNat + 4095 < 2 ^ 47

theorem EndsLow.pageVa_lt (h : ph.EndsLow) (hk : k < ph.pages) : (ph.pageVa k).toNat < 2 ^ 47 := by
  unfold EndsLow at h
  have hlt := ph.pageVa_lt_vend hk
  rw [ph.vend_toNat (by omega)] at hlt
  omega

theorem EndsLow.vpageOf_inj (h : ph.EndsLow) {j : Nat} (hj : j < ph.pages) (hk : k < ph.pages)
    (he : vpageOf (ph.pageVa j) = vpageOf (ph.pageVa k)) : j = k := by
  rw [vpageOf_eq_iff (h.pageVa_lt hj) (h.pageVa_lt hk), ph.pageVa_toNat hj, ph.pageVa_toNat hk,
    ph.vstart_toNat] at he
  omega

theorem mem_pagesFrom {v : VPage} :
    v ∈ ph.pagesFrom k ↔ ∃ j, k ≤ j ∧ j < ph.pages ∧ vpageOf (ph.pageVa j) = v := by
  simp [pagesFrom, and_assoc]

theorem pagesFrom_insert (hk : k < ph.pages) :
    ph.pagesFrom k = insert (vpageOf (ph.pageVa k)) (ph.pagesFrom (k + 1)) := by
  unfold pagesFrom
  rw [← Finset.insert_Ico_add_one_left_eq_Ico hk, Finset.image_insert]

theorem EndsLow.mem_pages (h : ph.EndsLow) {v : VPage} : v ∈ ph.pagesFrom 0 ↔
    ph.vaddr.toNat / 4096 ≤ v.num ∧ v.num < (ph.vaddr.toNat + ph.memsz.toNat + 4095) / 4096 := by
  have hend : ph.vaddr.toNat + ph.memsz.toNat + 4095 < 2 ^ 47 := h
  have hvend := ph.vend_toNat (by omega)
  have hstart := ph.vstart_toNat
  have hpages : ph.pages =
      (ph.vaddr.toNat + ph.memsz.toNat + 4095) / 4096 - ph.vaddr.toNat / 4096 := by
    unfold pages
    omega
  rw [mem_pagesFrom]
  constructor
  · rintro ⟨j, -, hj, rfl⟩
    have hlow := h.pageVa_lt hj
    have hva := ph.pageVa_toNat hj
    rw [vpageOf_num]
    omega
  · rintro ⟨hlo, hhi⟩
    have hj : v.num - ph.vaddr.toNat / 4096 < ph.pages := by omega
    refine ⟨_, Nat.zero_le _, hj, VPage.num_inj ?_⟩
    have hlow := h.pageVa_lt hj
    have hva := ph.pageVa_toNat hj
    rw [vpageOf_num]
    omega

end Phdr

/-! ## The page loop -/

/-- **After `k` rounds** of the page loop, from memory `s`. -/
structure PagesFilled (image : Image) (ph : Phdr) (root : Nat) (s : Phys) (k : Nat) (t : Phys) :
    Prop where
  tables : Tables 4 {root} t
  free : ∀ g, t.pmm.Free g → s.pmm.Free g
  /-- Each round has mapped a page that was free, and it holds what was put into it. -/
  filled : ∀ j < k, ∃ g, s.pmm.Free g ∧
    leafEntry t.mem root (vpageOf (ph.pageVa j)) = leafOf (pageAddr g) ph.vmmFlags ∧
    ∃ t₀, t.mem g = (fillPage image ph (ph.pageVa j) (pageAddr g) t₀).mem g
  others : ∀ v : VPage, v.User → (∀ j < k, vpageOf (ph.pageVa j) ≠ v) →
    leafEntry t.mem root v = leafEntry s.mem root v
  kernelHalf : ∀ i : Fin 512, ¬ userIdx i → t.mem root i = s.mem root i
  /-- There is room for the rest. -/
  room : mapCost t.mem root (ph.pagesFrom k) ≤ t.pmm.clearBits

section

variable {pml4 : U64} {image : Image} {ph : Phdr} {s : Phys} {st : Load} {k : Nat}

/-- **One round**: it obtains a page, fills it and maps it. -/
theorem pagesFilled_page (hlow : ph.EndsLow) (hk : k < ph.pages)
    (h : PagesFilled image ph (pageOf pml4) s k st.phys) :
    ∃ st', loadPage pml4 image ph k st = .ok st' ∧
      PagesFilled image ph (pageOf pml4) s (k + 1) st'.phys := by
  have hroot : pageOf pml4 ∈ ({pageOf pml4} : Set Nat) := rfl
  have huser (j : Nat) (hj : j < ph.pages) : (vpageOf (ph.pageVa j)).User :=
    vpageOf_user (hlow.pageVa_lt hj)
  have hva : ph.vaddr.toNat < (ph.pageVa k).toNat + 4096 := by
    rw [ph.pageVa_toNat hk, ph.vstart_toNat]
    omega
  have hnew : vpageOf (ph.pageVa k) ∉ ph.pagesFrom (k + 1) := fun hmem => by
    obtain ⟨j, hle, hj, he⟩ := Phdr.mem_pagesFrom.mp hmem
    have := hlow.vpageOf_inj hj hk he
    omega
  have hlater (w : VPage) (hw : w ∈ ph.pagesFrom (k + 1)) : w.User := by
    obtain ⟨j, -, hj, rfl⟩ := Phdr.mem_pagesFrom.mp hw
    exact huser j hj
  have hroom := h.room
  rw [Phdr.pagesFrom_insert hk] at hroom
  have hmiss := missing_lt_mapCost st.phys.mem (pageOf pml4) hnew
  unfold loadPage
  rcases Phys.alloc_cases h.tables.valid with ⟨hnone, -⟩ | ⟨g, hg, -, hne, he⟩
  · obtain ⟨i, hi⟩ := exists_free_of_clearBits_pos (s := st.phys.pmm) (by omega)
    exact absurd hi (hnone i)
  simp only [he, if_neg hne]
  obtain ⟨c, hc⟩ : ∃ c, (fillPage image ph (ph.pageVa k) (pageAddr g)
    ⟨st.phys.pmm.mark g, st.phys.mem⟩).mem g = c := ⟨_, rfl⟩
  have hfill : fillPage image ph (ph.pageVa k) (pageAddr g) ⟨st.phys.pmm.mark g, st.phys.mem⟩ =
      ⟨st.phys.pmm.mark g, Function.update st.phys.mem g c⟩ := by
    rw [fillPage_eq hva hg.lt, hc]
  obtain ⟨M, hm⟩ := vmmMap_frame h.tables hroot (huser k hk) (vmmFlags_nx ph) hg c (by omega)
  refine ⟨_, rfl, ?_⟩
  dsimp only
  rw [hfill]
  generalize vmmMap pml4 (ph.pageVa k) (pageAddr g) ph.vmmFlags _ = t at hm
  have hbits := hm.takes.clearBits
  have hcount := hm.count
  rw [List.length_cons] at hbits
  refine ⟨hm.tables, fun x hx => h.free x ((hm.takes.free_iff x).mp hx).1, fun j hj => ?_,
    fun v hv hne => ?_, fun i hi => ?_, ?_⟩
  · by_cases hjk : j = k
    · subst hjk
      exact ⟨g, h.free g hg, by rw [hm.leaf _ hroot _ (huser j hk), if_pos ⟨rfl, rfl⟩], _,
        hm.frame.trans hc.symm⟩
    · have hjp : j < ph.pages := by omega
      obtain ⟨x, hx, hleaf, t₀, hcont⟩ := h.filled j (by omega)
      have hvne : vpageOf (ph.pageVa j) ≠ vpageOf (ph.pageVa k) := fun he =>
        hjk (hlow.vpageOf_inj hjp hk he)
      -- a page filled before is no table and not free, so it keeps its contents
      have hchild : childOf (leafEntry st.phys.mem (pageOf pml4) (vpageOf (ph.pageVa j))) =
          some x := by
        rw [hleaf, childOf_leafOf (vmmFlags_nx ph), pageOf_pageAddr hx.lt]
      obtain ⟨-, hfr⟩ := tables_four.mp h.tables
      have hxM : x ∉ g :: M := fun hxM => Pmm.not_free_of_used
        (hfr.used _ hroot _ (huser j hjp) x hchild).1 (hm.takes.free_of_mem x hxM)
      refine ⟨x, hx, ?_, t₀, ?_⟩
      · rw [hm.leaf _ hroot _ (huser j hjp), if_neg fun hx => hvne hx.2, hleaf]
      · rw [hm.mem x (hfr.notTable _ hroot _ (huser j hjp) x hchild) hxM, hcont]
  · rw [hm.leaf _ hroot v hv, if_neg fun hx => hne k (Nat.lt_succ_self k) hx.2.symm,
      h.others v hv fun j hj => hne j (by omega)]
  · rw [hm.kernelHalf _ hroot i hi, h.kernelHalf i hi]
  · have hpath (ρ : List (Fin 512)) (hρ : Path userIdx 3 ρ) :
        walk childOf t.mem (pageOf pml4) ρ = none ↔
          walk childOf st.phys.mem (pageOf pml4) ρ = none ∧
            ρ ∉ (vpageOf (ph.pageVa k)).tablePaths := by
      rw [hm.path _ hroot ρ hρ, eq_self, true_and]
    have hcost := mapCost_insert hnew hlater hpath
    omega

theorem pagesFilled_zero (h : Tables 4 {pageOf pml4} s)
    (hroom : mapCost s.mem (pageOf pml4) (ph.pagesFrom 0) ≤ s.pmm.clearBits) :
    PagesFilled image ph (pageOf pml4) s 0 s :=
  ⟨h, fun _ => id, nofun, fun _ _ _ => rfl, fun _ _ => rfl, hroom⟩

theorem pagesFilled_loop (image : Image) (st : Load) (hlow : ph.EndsLow)
    (h : Tables 4 {pageOf pml4} st.phys)
    (hroom : mapCost st.phys.mem (pageOf pml4) (ph.pagesFrom 0) ≤ st.phys.pmm.clearBits) :
    ∃ st', forUpToM ph.pages (fun k => loadPage pml4 image ph k) st = .ok st' ∧
      PagesFilled image ph (pageOf pml4) st.phys ph.pages st'.phys := by
  have hloop := forUpToM_steps (E := False)
    (fun k (t : Load) => PagesFilled image ph (pageOf pml4) st.phys k t.phys)
    (fun k : Fin ph.pages => loadPage pml4 image ph k) (pagesFilled_zero h hroom) fun k t ht => by
      obtain ⟨st', he, h'⟩ := pagesFilled_page hlow k.isLt ht
      rw [he]
      exact .ok h'
  generalize forUpToM ph.pages _ st = r at hloop
  cases hloop with
  | ok h' => exact ⟨_, rfl, h'⟩
  | error h' => exact h'.elim

end

/-! ## Segments -/

/-- **The segment is mapped and filled exactly**, from memory `s` to `s'`. -/
structure SegmentExact (image : Image) (ph : Phdr) (root : Nat) (s s' : Phys) : Prop where
  /-- The pages of the segment are mapped, each to a page that was free. -/
  mapped : ∀ v : VPage, ph.vaddr.toNat / 4096 ≤ v.num →
    v.num < (ph.vaddr.toNat + ph.memsz.toNat + 4095) / 4096 →
    ∃ g, s.pmm.Free g ∧ leafEntry s'.mem root v = leafOf (pageAddr g) ph.vmmFlags
  /-- No other page of user space is mapped otherwise than before. -/
  others : ∀ v : VPage, v.User → ¬ (ph.vaddr.toNat / 4096 ≤ v.num ∧
    v.num < (ph.vaddr.toNat + ph.memsz.toNat + 4095) / 4096) →
    leafEntry s'.mem root v = leafEntry s.mem root v
  kernelHalf : ∀ i : Fin 512, ¬ userIdx i → s'.mem root i = s.mem root i
  /-- The bytes of the file, and zeros before and behind them. -/
  bytes : ∀ a, ph.vaddr.toNat / 4096 * 4096 ≤ a →
    a < (ph.vaddr.toNat + ph.memsz.toNat + 4095) / 4096 * 4096 → userByte s' root a =
      some (if ph.vaddr.toNat ≤ a ∧ a < ph.vaddr.toNat + ph.filesz.toNat then
        image (ph.offset + BitVec.ofNat 64 (a - ph.vaddr.toNat)) else 0)

section

variable {pml4 : U64} {image : Image} {ph : Phdr} {s t : Phys} {st : Load} {root : Nat}

theorem PagesFilled.exact (h : PagesFilled image ph root s ph.pages t) (hlow : ph.EndsLow) :
    SegmentExact image ph root s t := by
  refine ⟨fun v hlo hhi => ?_, fun v hv hout => h.others v hv fun j hj he => hout ?_,
    h.kernelHalf, fun a hlo hhi => ?_⟩
  · obtain ⟨j, -, hj, rfl⟩ := Phdr.mem_pagesFrom.mp (hlow.mem_pages.mpr ⟨hlo, hhi⟩)
    obtain ⟨g, hg, hleaf, -⟩ := h.filled j hj
    exact ⟨g, hg, hleaf⟩
  · exact hlow.mem_pages.mp (Phdr.mem_pagesFrom.mpr ⟨j, Nat.zero_le j, hj, he⟩)
  · have hend : ph.vaddr.toNat + ph.memsz.toNat + 4095 < 2 ^ 47 := hlow
    have hnat := toNat_ofNat_low (a := a) (by omega)
    have hnum : (vpageOf (BitVec.ofNat 64 a)).num = a / 4096 := by
      rw [vpageOf_num, hnat]
      omega
    have hin : vpageOf (BitVec.ofNat 64 a) ∈ ph.pagesFrom 0 := by
      rw [hlow.mem_pages, hnum]
      omega
    obtain ⟨j, -, hj, he⟩ := Phdr.mem_pagesFrom.mp hin
    have hva := ph.pageVa_toNat hj
    have hstart := ph.vstart_toNat
    rw [vpageOf_eq_iff (hlow.pageVa_lt hj) (by omega), hnat] at he
    obtain ⟨g, hg, hleaf, t₀, hmem⟩ := h.filled j hj
    have hpage : vpageOf (BitVec.ofNat 64 a) = vpageOf (ph.pageVa j) := by
      rw [vpageOf_eq_iff (by omega) (hlow.pageVa_lt hj), hnat, he]
    rw [← hpage] at hleaf
    rw [userByte_of_leaf hg.lt (vmmFlags_nx ph) hleaf hmem,
      byte_fillPage (by omega) hg.lt (Nat.mod_lt a (by decide))]
    have hsum : (ph.pageVa j).toNat + a % 4096 = a := by omega
    rw [hsum]

/-- **Segment pages are filled exactly.** For every `PT_LOAD` header in user space and every address
space, if there are pages for the frames and the missing tables. -/
theorem loadSegment_exact (image : Image) (ph : Phdr) (st : Load)
    (h : Tables 4 {pageOf pml4} st.phys) (htype : ph.type = 1) (hbase : userLoadBase ≤ ph.vaddr)
    (hmem : 0 < ph.memsz) (hend : ph.vaddr.toNat + ph.memsz.toNat + 4095 < 2 ^ 47)
    (hroom : mapCost st.phys.mem (pageOf pml4) (ph.pagesFrom 0) ≤ st.phys.pmm.freePages.toNat) :
    ∃ st', loadSegment pml4 image ph st = .ok st' ∧
      SegmentExact image ph (pageOf pml4) st.phys st'.phys := by
  have hmem₀ : ph.memsz ≠ 0 := fun h0 => by
    rw [h0] at hmem
    exact absurd hmem (by decide)
  rw [h.valid.counter] at hroom
  unfold loadSegment
  simp only [htype, ne_eq, not_true_eq_false, if_false, hmem₀, BitVec.not_lt.mpr hbase]
  obtain ⟨st', he, hfilled⟩ := pagesFilled_loop image
    ((((st.read ph.pos 4).read (ph.pos + 40) 8).read (ph.pos + 16) 8).read (ph.pos + 4) 4) hend
    h hroom
  rw [he]
  exact ⟨_, rfl, hfilled.exact hend⟩

/-- The segment of `lowSegment`: a byte of the file, and zeros up to the end of the page. -/
theorem loadSegment_exact_lowSegment :
    ∃ st', loadSegment 0x2000 lowSegment ⟨64, 1, 7, 120, 0x400000, 1, 16⟩
        ⟨emptySpace, 0, [], []⟩ = .ok st' ∧
      userByte st'.phys 2 0x400000 = some 5 ∧ userByte st'.phys 2 0x400FFF = some 0 := by
  have htables : Tables 4 {pageOf 0x2000} emptySpace := by
    have h := emptySpace_tables
    rwa [insert_empty_eq] at h
  obtain ⟨st', he, h⟩ := loadSegment_exact lowSegment ⟨64, 1, 7, 120, 0x400000, 1, 16⟩
    ⟨emptySpace, 0, [], []⟩ htables rfl (by decide) (by decide) (by decide) (by decide +kernel)
  refine ⟨st', he, (h.bytes 0x400000 (by decide) (by decide)).trans ?_,
    (h.bytes 0x400FFF (by decide) (by decide)).trans ?_⟩ <;> decide +kernel

end

end Sinux.Proc

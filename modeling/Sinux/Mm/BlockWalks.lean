import Sinux.Mm.MemoryMap
import Mathlib.Logic.Relation

/-!
# When the walks over the block end

The loops of `pmm_init`, `mb2_parse` and `cmd_mem` take the sizes from the block as they are: a tag
whose step `(size + 7) & ~7` is 0 in 32 bits holds them for ever, so does an `entry_size` of 0, and
only `entry_size` bytes of an entry, not 24, are compared with the end of the tag, which itself is
not compared with the end of the block.

* `TagAt`: the tags the walk comes to, for any contents of the block.
* `walk_passed`, `body_sound`: what a walk that returns inside the block has met.
* `walks_end_iff`: for every contents of the block, which condition on its tags makes each of the
  three functions end without a read outside.
-/

namespace Sinux.Mm

open Sinux.Lib Sinux.Lib.ByteMem Sinux.Core.Multiboot

/-! ## The tags of any block -/

/-- The walk from `first` comes to `ptr`. -/
def TagAt (m : Memory) (endPtr first ptr : U64) : Prop :=
  Relation.ReflTransGen (fun p q => p + 8 ≤ endPtr ∧ tagType m p ≠ tagEnd ∧ q = tagNext m p)
    first ptr

/-- The tags at which the body of the loop runs. -/
def Passed (m : Memory) (endPtr first ptr : U64) : Prop :=
  TagAt m endPtr first ptr ∧ ptr + 8 ≤ endPtr ∧ tagType m ptr ≠ tagEnd

/-- The step to the next tag is not 0. -/
def Progress (m : Memory) (ptr : U64) : Prop :=
  tagSize m ptr ≠ 0 ∧ (tagSize m ptr).toNat < 0xFFFFFFF9

/-- The loop over the entries of the tag ends, and what it reads lies in the block. -/
structure EntriesInside (m : Memory) (endPtr ptr : U64) : Prop where
  header : tagType m ptr = tagMmap → ptr.toNat + 12 ≤ endPtr.toNat
  entries : tagType m ptr = tagMmap → 16 + (entrySize m ptr).toNat ≤ (tagSize m ptr).toNat →
    entrySize m ptr ≠ 0 ∧ ∀ k, 16 + (k + 1) * (entrySize m ptr).toNat ≤ (tagSize m ptr).toNat →
      ptr.toNat + 36 + k * (entrySize m ptr).toNat ≤ endPtr.toNat

theorem progress_iff {m : Memory} {ptr : U64} :
    Progress m ptr ↔ tagStep (tagSize m ptr) ≠ 0 := by
  have hlt := (tagSize m ptr).isLt
  have hstep := tagStep_toNat (tagSize m ptr)
  have h0 : tagStep (tagSize m ptr) = 0 ↔ (tagStep (tagSize m ptr)).toNat = 0 := by
    rw [← BitVec.toNat_inj]
    rfl
  have hz : tagSize m ptr = 0 ↔ (tagSize m ptr).toNat = 0 := by
    rw [← BitVec.toNat_inj]
    rfl
  unfold Progress
  rw [Ne, Ne, h0, hz]
  omega

section

variable {m : Memory} {endPtr first ptr : U64}

theorem tagAt_bounds (hend : endPtr.toNat < 2 ^ 33) (hhi : first.toNat < 2 ^ 34)
    (h : TagAt m endPtr first ptr) : first.toNat ≤ ptr.toNat ∧ ptr.toNat < 2 ^ 34 := by
  induction h with
  | refl => exact ⟨Nat.le_refl _, hhi⟩
  | tail _ hstep ih =>
    obtain ⟨hin, -, rfl⟩ := hstep
    obtain ⟨-, hnext, hlt⟩ := tag_bounds (m := m) hend ih.2 hin
    omega

theorem exists_tagList (hend : endPtr.toNat < 2 ^ 33) (hhi : first.toNat < 2 ^ 34)
    (h : ∀ p, Passed m endPtr first p → Progress m p) : ∃ l, TagList m endPtr first l := by
  generalize hd : endPtr.toNat - first.toNat = d
  induction d using Nat.strongRecOn generalizing first with
  | ind d ih =>
    by_cases hin : first + 8 ≤ endPtr
    · by_cases ht : tagType m first = tagEnd
      · exact ⟨[], .last hin ht⟩
      · obtain ⟨hle, hnext, hlt⟩ := tag_bounds (m := m) hend hhi hin
        have hstep : (tagStep (tagSize m first)).toNat ≠ 0 := fun h0 =>
          progress_iff.mp (h first ⟨.refl, hin, ht⟩) (BitVec.eq_of_toNat_eq h0)
        obtain ⟨l, hl⟩ := ih _ (by omega) hlt
          (fun p hp => h p ⟨.head ⟨hin, ht, rfl⟩ hp.1, hp.2⟩) rfl
        exact ⟨first :: l, .tag hin ht hl⟩
    · exact ⟨[], .past hin⟩

theorem passed_of_mem {l : List U64} (h : TagList m endPtr first l) :
    ∀ p ∈ l, Passed m endPtr first p := by
  induction h with
  | past h => exact nofun
  | last h ht => exact nofun
  | tag h ht _ ih =>
    intro p hp
    rcases List.mem_cons.mp hp with rfl | hp
    · exact ⟨.refl, h, ht⟩
    · exact ⟨.head ⟨h, ht, rfl⟩ (ih p hp).1, (ih p hp).2⟩

end

/-! ## What a walk that returns has met -/

section

variable {σ : Type} {ok : U64 → Bool} {m : Memory} {endPtr first ptr : U64} {s b : σ}
  {body : Nat → BitVec 32 → U64 → σ → Option σ}

theorem tagRound_passed {n : Nat} {r : (U64 × σ) ⊕ σ}
    (h : tagRound ok (fun _ => m) (fun _ => false) body endPtr n (ptr, s) = some r)
    (hin : ptr + 8 ≤ endPtr) (ht : tagType m ptr ≠ tagEnd) :
    ∃ s', body n (tagType m ptr) ptr s = some s' ∧ r = .inl (tagNext m ptr, s') := by
  rcases tagRound_cases h with ⟨-, hc | ⟨-, hend⟩⟩ | ⟨type, s', size, -, htype, -, hb, hsize, rfl⟩
  · exact absurd ⟨hin, rfl⟩ hc
  · exact absurd (read32_some hend).2.symm ht
  · obtain ⟨-, rfl⟩ := read32_some htype
    obtain ⟨-, rfl⟩ := read32_some hsize
    exact ⟨s', hb, rfl⟩

theorem returns_at (hat : TagAt m endPtr first ptr)
    (h : Returns (whileFuel (tagRound ok (fun _ => m) (fun _ => false) body endPtr)) (first, s) b) :
    ∃ s', Returns (whileFuel (tagRound ok (fun _ => m) (fun _ => false) body endPtr))
      (ptr, s') b := by
  induction hat using Relation.ReflTransGen.head_induction_on generalizing s with
  | refl => exact ⟨s, h⟩
  | head hstep _ ih =>
    obtain ⟨hin, ht, rfl⟩ := hstep
    rcases returns_cases h with ⟨n, hn⟩ | ⟨t, ⟨n, hn⟩, h'⟩
    · obtain ⟨s', -, hr⟩ := tagRound_passed hn hin ht
      cases hr
    · obtain ⟨s', -, hr⟩ := tagRound_passed hn hin ht
      cases hr
      exact ih h'

/-- Every tag of a walk that returns makes progress, and the body has run at it. -/
theorem walk_passed
    (h : Returns (whileFuel (tagRound ok (fun _ => m) (fun _ => false) body endPtr)) (first, s) b)
    (hp : Passed m endPtr first ptr) :
    Progress m ptr ∧ ∃ n s s', body n (tagType m ptr) ptr s = some s' := by
  obtain ⟨hat, hin, ht⟩ := hp
  obtain ⟨t, hreturns⟩ := returns_at hat h
  constructor
  · rw [progress_iff]
    intro h0
    refine not_returns_of_trapped (fun p => p.1 = ptr) ?_ rfl hreturns
    rintro ⟨_, u⟩ r rfl ⟨n, hn⟩
    obtain ⟨u', -, rfl⟩ := tagRound_passed hn hin ht
    refine ⟨_, rfl, ?_⟩
    show _ + tagStep _ = _
    rw [h0]
    exact BitVec.add_zero _
  · obtain ⟨r, n, hn⟩ := hreturns.first_round
    obtain ⟨s', hb, -⟩ := tagRound_passed hn hin ht
    exact ⟨n, t, s', hb⟩

end

/-! ## What the entry loop has read -/

section

variable {σ : Type} {m : Memory} {info endPtr ptr : U64} {s b : σ} {enter : σ → σ}
  {visit : σ → Entry → σ}

theorem readable_inBlock {a : U64} {n : Nat} (h : readable (inBlock info endPtr) a (n + 1) = true)
    (ha : a.toNat + n < 2 ^ 64) : a.toNat + n < endPtr.toNat := by
  have hlast := readable_iff.mp h n (Nat.lt_succ_self n)
  have hlt := (of_decide_eq_true hlast).2
  rwa [BitVec.lt_def, add_ofNat_toNat ha] at hlt

theorem entryRound_fits {ok : U64 → Bool} {ee ep : U64} {n : Nat} {r : (U64 × σ) ⊕ σ}
    (h : entryRound ok (fun _ => m) (fun _ => false) visit ptr ee n (ep, s) = some r)
    (hin : ep + (entrySize m ptr).setWidth 64 ≤ ee) :
    readable ok ep 20 = true ∧ ∃ s', r = .inl (ep + (entrySize m ptr).setWidth 64, s') := by
  obtain ⟨x, hx, ⟨hout, -⟩ | ⟨e, y, -, he, hy, rfl⟩⟩ := entryRound_cases h
  · obtain ⟨-, rfl⟩ := read32_some hx
    exact absurd ⟨hin, rfl⟩ hout
  · obtain ⟨-, rfl⟩ := read32_some hy
    exact ⟨(Option.ite_none_right_eq_some.mp he).1, _, rfl⟩

theorem fits_toNat (hhi : ptr.toNat < 2 ^ 34) {k : Nat}
    (hk : 16 + (k + 1) * (entrySize m ptr).toNat ≤ (tagSize m ptr).toNat) :
    (ptr + 16 + BitVec.ofNat 64 (k * (entrySize m ptr).toNat)).toNat =
        ptr.toNat + 16 + k * (entrySize m ptr).toNat ∧
      ptr + 16 + BitVec.ofNat 64 (k * (entrySize m ptr).toNat) + (entrySize m ptr).setWidth 64 ≤
        ptr + (tagSize m ptr).setWidth 64 ∧
      ptr + 16 + BitVec.ofNat 64 (k * (entrySize m ptr).toNat) + (entrySize m ptr).setWidth 64 =
        ptr + 16 + BitVec.ofNat 64 ((k + 1) * (entrySize m ptr).toNat) := by
  have hlt := (tagSize m ptr).isLt
  have hsucc : (k + 1) * (entrySize m ptr).toNat =
      k * (entrySize m ptr).toNat + (entrySize m ptr).toNat := Nat.succ_mul ..
  have hk₀ := entry_toNat hhi (k := k * (entrySize m ptr).toNat) (by omega)
  have hk₁ := entry_toNat hhi (k := (k + 1) * (entrySize m ptr).toNat) (by omega)
  have hsum := add_setWidth_toNat (a := ptr + 16 + BitVec.ofNat 64 (k * (entrySize m ptr).toNat))
    (by omega) (entrySize m ptr)
  refine ⟨hk₀, ?_, BitVec.eq_of_toNat_eq (by omega)⟩
  rw [BitVec.le_def, hsum, add_setWidth_toNat (by omega)]
  omega

/-- The entry loop of a walk that returns comes to every entry that fits the tag. -/
theorem entries_reached {ok : U64 → Bool} (hhi : ptr.toNat < 2 ^ 34)
    (h : Returns (whileFuel (entryRound ok (fun _ => m) (fun _ => false) visit ptr
      (ptr + (tagSize m ptr).setWidth 64))) (ptr + 16, s) b) (k : Nat)
    (hk : 16 + (k + 1) * (entrySize m ptr).toNat ≤ (tagSize m ptr).toNat) :
    ∃ t, Returns (whileFuel (entryRound ok (fun _ => m) (fun _ => false) visit ptr
      (ptr + (tagSize m ptr).setWidth 64)))
      (ptr + 16 + BitVec.ofNat 64 (k * (entrySize m ptr).toNat), t) b := by
  induction k with
  | zero =>
    rw [Nat.zero_mul, show BitVec.ofNat 64 0 = 0#64 from rfl, BitVec.add_zero]
    exact ⟨s, h⟩
  | succ k ih =>
    have hk' : 16 + (k + 1) * (entrySize m ptr).toNat ≤ (tagSize m ptr).toNat := by
      rw [Nat.succ_mul] at hk
      omega
    obtain ⟨t, ht⟩ := ih hk'
    obtain ⟨-, hin, hnext⟩ := fits_toNat hhi hk'
    rcases returns_cases ht with ⟨n, hn⟩ | ⟨_, ⟨n, hn⟩, ht'⟩
    · obtain ⟨-, s', hr⟩ := entryRound_fits hn hin
      cases hr
    · obtain ⟨-, s', hr⟩ := entryRound_fits hn hin
      cases hr
      rw [hnext] at ht'
      exact ⟨s', ht'⟩

theorem body_sound (hhi : ptr.toNat < 2 ^ 34) {n : Nat} {s' : σ}
    (h : mmapBody (inBlock info endPtr) (fun _ => m) (fun _ => false) enter visit n (tagType m ptr)
      ptr s = some s') : EntriesInside m endPtr ptr := by
  by_cases ht : tagType m ptr = tagMmap
  · rw [mmapBody, if_pos ht] at h
    obtain ⟨size, hsize, hn⟩ := Option.bind_eq_some_iff.mp h
    obtain ⟨-, rfl⟩ := read32_some hsize
    have hreturns : Returns _ (ptr + 16, enter s) s' := ⟨n, hn⟩
    refine ⟨fun _ => ?_, fun _ hle => ⟨fun h0 => ?_, fun k hk => ?_⟩⟩
    · have hread : readable (inBlock info endPtr) (ptr + 8) 4 = true := by
        obtain ⟨r, k, hk⟩ := hreturns.first_round
        obtain ⟨x, hx, -⟩ := entryRound_cases hk
        exact (read32_some hx).1
      have h8 : (ptr + 8).toNat = ptr.toNat + 8 := add_ofNat_toNat (i := 8) (by omega)
      have := readable_inBlock hread (by omega)
      omega
    · -- an `entry_size` of 0: the loop stays at the first entry
      refine not_returns_of_trapped (fun p => p.1 = ptr + 16) ?_ rfl hreturns
      rintro ⟨_, t⟩ r rfl ⟨k, hk⟩
      have hzero : ptr + 16 + (entrySize m ptr).setWidth 64 = ptr + 16 := by
        rw [h0]
        exact BitVec.add_zero _
      have hin : ptr + 16 + (entrySize m ptr).setWidth 64 ≤ ptr + (tagSize m ptr).setWidth 64 := by
        have h16 : (ptr + 16).toNat = ptr.toNat + 16 := add_ofNat_toNat (i := 16) (by omega)
        rw [BitVec.le_def, add_setWidth_toNat (by omega), add_setWidth_toNat (by omega), h16]
        omega
      obtain ⟨-, t', rfl⟩ := entryRound_fits hk hin
      exact ⟨_, rfl, hzero⟩
    · obtain ⟨t, hk'⟩ := entries_reached hhi hreturns k hk
      obtain ⟨hat, hin, -⟩ := fits_toNat hhi hk
      have hread : readable (inBlock info endPtr)
          (ptr + 16 + BitVec.ofNat 64 (k * (entrySize m ptr).toNat)) 20 = true := by
        obtain ⟨r, j, hj⟩ := hk'.first_round
        exact (entryRound_fits hj hin).1
      have hlt := (tagSize m ptr).isLt
      rw [Nat.succ_mul] at hk
      have := readable_inBlock hread (by omega)
      omega
  · exact ⟨fun h => absurd h ht, fun h => absurd h ht⟩

end

/-! ## The three functions -/

/-- The bytes of the block. -/
def blockOk (m : Memory) (ebx : BitVec 32) : U64 → Bool :=
  inBlock (infoAddr ebx) (blockEnd m (infoAddr ebx))

/-- A tag of the block at which the loops run their body. -/
def BlockTag (m : Memory) (ebx : BitVec 32) (ptr : U64) : Prop :=
  Passed m (blockEnd m (infoAddr ebx)) (infoAddr ebx + 8) ptr

/-- All tags make progress and have their entries in the block. -/
def TagsSound (m : Memory) (ebx : BitVec 32) : Prop :=
  ∀ ptr, BlockTag m ebx ptr → Progress m ptr ∧ EntriesInside m (blockEnd m (infoAddr ebx)) ptr

section

variable {m : Memory} {ebx : BitVec 32} {l : List U64} {K : Image}

theorem blockOk_of_inside {a : U64} (hlo : (infoAddr ebx).toNat ≤ a.toNat)
    (hhi : a.toNat < (blockEnd m (infoAddr ebx)).toNat) : blockOk m ebx a = true :=
  decide_eq_true ⟨BitVec.le_def.mpr hlo, BitVec.lt_def.mpr hhi⟩

theorem blockTag_bounds {ptr : U64} (h : BlockTag m ebx ptr) :
    (infoAddr ebx).toNat + 8 ≤ ptr.toNat ∧ ptr.toNat < 2 ^ 34 := by
  have hebx := ebx.isLt
  have h8 := firstTag_toNat ebx
  have h0 := infoAddr_toNat ebx
  have := tagAt_bounds (blockEnd_lt m ebx) (by omega) h.1
  omega

theorem TagsSound.exists_tagList (h : TagsSound m ebx) :
    ∃ l, TagList m (blockEnd m (infoAddr ebx)) (infoAddr ebx + 8) l := by
  have hebx := ebx.isLt
  have h8 := firstTag_toNat ebx
  exact Mm.exists_tagList (blockEnd_lt m ebx) (by omega) fun p hp => (h p hp).1

theorem TagsSound.goodBlock (h : TagsSound m ebx)
    (hl : TagList m (blockEnd m (infoAddr ebx)) (infoAddr ebx + 8) l) :
    GoodBlock (blockOk m ebx) m ebx l where
  tags := hl
  readable := fun _ hlo hhi => blockOk_of_inside hlo hhi
  good := fun p hp => by
    have hpassed := passed_of_mem hl p hp
    obtain ⟨hlo, hhi⟩ := blockTag_bounds hpassed
    obtain ⟨-, hheader, hentries⟩ := h p hpassed
    refine ⟨fun ht => ?_, fun ht _ => hheader ht, hentries⟩
    have h8 : (p + 8).toNat = p.toNat + 8 := add_ofNat_toNat (i := 8) (by omega)
    have hend := hheader ht
    exact readable_inside (fun _ => blockOk_of_inside) ⟨by omega, by omega⟩

theorem tagsSound_of_walk {σ : Type} {enter : σ → σ} {visit : σ → Entry → σ} {s b : σ}
    (h : Returns (mmapWalk (blockOk m ebx) (fun _ => m) (fun _ => false) enter visit
      (blockEnd m (infoAddr ebx))) (infoAddr ebx + 8, s) b) : TagsSound m ebx := by
  intro ptr hp
  obtain ⟨hprogress, n, t, t', hbody⟩ := walk_passed h hp
  exact ⟨hprogress, body_sound (blockTag_bounds hp).2 hbody⟩

theorem fbBody_grows (type : BitVec 32) (ptr : U64) : Grows fun n fb => fbBody m n type ptr fb :=
  fun _ _ _ _ _ h => h

theorem parse_returns {ptr : U64} (fb : Option FbInfo)
    (h : TagList m (blockEnd m (infoAddr ebx)) ptr l) (hlo : (infoAddr ebx).toNat ≤ ptr.toNat)
    (hhi : ptr.toNat < 2 ^ 34) :
    ∃ r, Returns (whileFuel (tagRound (blockOk m ebx) (fun _ => m) (fun _ => false) (fbBody m)
      (blockEnd m (infoAddr ebx)))) (ptr, fb) r := by
  have hok : ∀ a, (infoAddr ebx).toNat ≤ a.toNat → a.toNat < (blockEnd m (infoAddr ebx)).toNat →
      blockOk m ebx a = true := fun _ => blockOk_of_inside
  have hagrees : Agrees (infoAddr ebx) (blockEnd m (infoAddr ebx)) m m := fun _ _ _ => rfl
  induction h generalizing fb with
  | past h => exact ⟨fb, returns_done ⟨0, tagRound_done (fun hc => h hc.1) 0⟩⟩
  | @last ptr h ht =>
    obtain ⟨hin, -⟩ := tag_bounds (m := m) (blockEnd_lt m ebx) hhi h
    have hread := read32_inside hok hagrees (a := ptr) ⟨hlo, by omega⟩
    rw [show word32 m ptr = tagEnd from ht] at hread
    exact ⟨fb, returns_done ⟨0, tagRound_end ⟨h, rfl⟩ hread 0⟩⟩
  | @tag ptr l h ht _ ih =>
    obtain ⟨hin, hnext, hlt⟩ := tag_bounds (m := m) (blockEnd_lt m ebx) hhi h
    have hread := read32_inside hok hagrees (a := ptr) ⟨hlo, by omega⟩
    have h4 : (ptr + 4).toNat = ptr.toNat + 4 := add_ofNat_toNat (i := 4) (by omega)
    have hsize := read32_inside hok hagrees (a := ptr + 4) ⟨by omega, by omega⟩
    obtain ⟨fb', hfb⟩ : ∃ fb', fbBody m 0 (tagType m ptr) ptr fb = some fb' := by
      unfold fbBody
      split
      · exact ⟨_, rfl⟩
      · exact ⟨_, rfl⟩
    obtain ⟨r, hr⟩ := ih fb' (by omega) hlt
    exact ⟨r, returns_round (tagRound_grows fbBody_grows)
      ⟨0, tagRound_next ⟨h, rfl⟩ hread ht hfb hsize⟩ hr⟩

theorem mb2Parse_ends_iff (fb : Option FbInfo) :
    (∃ r, Returns (mb2Parse (blockOk m ebx) m mb2MagicVal (infoAddr ebx)) fb r) ↔
      ∀ ptr, BlockTag m ebx ptr → Progress m ptr := by
  have hebx := ebx.isLt
  have h8 := firstTag_toNat ebx
  have h0 := infoAddr_toNat ebx
  have hunfold (n : Nat) : mb2Parse (blockOk m ebx) m mb2MagicVal (infoAddr ebx) n fb =
      whileFuel (tagRound (blockOk m ebx) (fun _ => m) (fun _ => false) (fbBody m)
        (blockEnd m (infoAddr ebx))) n (infoAddr ebx + 8, fb) := if_neg (by simp)
  constructor
  · rintro ⟨r, n, hn⟩ ptr hp
    rw [hunfold] at hn
    exact (walk_passed ⟨n, hn⟩ hp).1
  · intro h
    obtain ⟨l, hl⟩ := exists_tagList (blockEnd_lt m ebx) (by omega) h
    obtain ⟨r, n, hn⟩ := parse_returns fb hl (by omega) (by omega)
    exact ⟨r, n, (hunfold n).trans hn⟩

theorem cmdMem_ends_iff :
    (∃ out, Returns (cmdMem (blockOk m ebx) mb2MagicVal (infoAddr ebx)) m out) ↔
      TagsSound m ebx := by
  have hebx := ebx.isLt
  have h8 := firstTag_toNat ebx
  have h0 := infoAddr_toNat ebx
  have hunfold (n : Nat) : cmdMem (blockOk m ebx) mb2MagicVal (infoAddr ebx) n m =
      (mmapWalk (blockOk m ebx) (fun _ => m) (fun _ => false) MemReport.enter MemReport.visit
        (blockEnd m (infoAddr ebx)) n (infoAddr ebx + 8, ⟨0, false, []⟩)).map MemReport.finish :=
    if_neg (by simp)
  constructor
  · rintro ⟨out, n, hn⟩
    rw [hunfold] at hn
    obtain ⟨r, hr, -⟩ := Option.map_eq_some_iff.mp hn
    exact tagsSound_of_walk ⟨n, hr⟩
  · intro h
    obtain ⟨l, hl⟩ := h.exists_tagList
    have hb := h.goodBlock hl
    have w : WalkKeeps (blockOk m ebx) (fun _ => m) (fun _ => false) MemReport.enter MemReport.visit
        (infoAddr ebx) (blockEnd m (infoAddr ebx)) m (fun _ => True) :=
      ⟨hb.readable, fun _ _ _ _ _ => rfl, fun _ h => h, fun _ _ h => h, nofun⟩
    obtain ⟨n, hn⟩ := w.walk_returns hl hb.good (blockEnd_lt m ebx) (by omega) (by omega)
      (s := ⟨0, false, []⟩) trivial
    exact ⟨_, n, (hunfold n).trans (congrArg (Option.map MemReport.finish) hn)⟩

/-- A run that stays in the block is the run of the kernel, which may read everywhere. -/
theorem kernel_run_of_block {magic : BitVec 32} {info : U64} {ok : U64 → Bool} :
    (∀ fb r, Returns (mb2Parse ok m magic info) fb r →
      Returns (mb2Parse everywhere m magic info) fb r) ∧
    (∀ out, Returns (cmdMem ok magic info) m out → Returns (cmdMem everywhere magic info) m out) ∧
    ∀ b, Returns (pmmInit ok K mb2MagicVal info) m b →
      Returns (pmmInit everywhere K mb2MagicVal info) m b := by
  have hle : ∀ a, ok a = true → everywhere a = true := fun _ _ => rfl
  refine ⟨fun fb r => ?_, fun out => ?_, fun b h => ?_⟩
  · rintro ⟨n, hn⟩
    refine ⟨n, ?_⟩
    unfold mb2Parse at hn ⊢
    split at hn
    · next hmagic =>
      rw [if_pos hmagic]
      exact hn
    · next hmagic =>
      rw [if_neg hmagic]
      exact whileFuel_le (fun _ _ _ => tagRound_le hle fun _ _ _ _ _ hb => hb) hn
  · rintro ⟨n, hn⟩
    refine ⟨n, ?_⟩
    unfold cmdMem at hn ⊢
    split at hn
    · next hmagic =>
      rw [if_pos hmagic]
      exact hn
    · next hmagic =>
      obtain ⟨t, ht, rfl⟩ := Option.map_eq_some_iff.mp hn
      rw [if_neg hmagic, mmapWalk_le hle ht]
      rfl
  · obtain ⟨maxAddr, p, ⟨n, hmax⟩, ⟨k, hp⟩, h⟩ := pmmInit_returns_iff.mp h
    refine pmmInit_returns_iff.mpr ⟨maxAddr, p, ⟨n, mmapWalk_le hle hmax⟩,
      ⟨k, mmapWalk_le hle hp⟩, ?_⟩
    rcases h with h | ⟨hne, s, ⟨i, hs⟩, hb⟩
    · exact .inl h
    · exact .inr ⟨hne, s, ⟨i, mmapWalk_le hle hs⟩, hb⟩

/-- If `pmm_init` places the bitmap, then so that `P` holds of its address and of `total_pages`. -/
def BitmapAt (K : Image) (m : Memory) (ebx : BitVec 32) (P : U64 → Nat → Prop) : Prop :=
  ∀ l place, TagList m (blockEnd m (infoAddr ebx)) (infoAddr ebx + 8) l →
    firstFit K (mapEntries m l) = some place → place ≠ 0 → P place (mapTotal (mapEntries m l))

theorem pmmInit_ends_iff
    (hcase : BitmapAt K m ebx fun place total =>
      Missed m ebx place total ∨ FirstCovered ebx place total) :
    (∃ b, Returns (pmmInit (blockOk m ebx) K mb2MagicVal (infoAddr ebx)) m b) ↔
      TagsSound m ebx ∧ BitmapAt K m ebx (Missed m ebx) := by
  constructor
  · rintro ⟨b, hb⟩
    obtain ⟨maxAddr, p, ⟨n, hmax⟩, hp, hthird⟩ := pmmInit_returns_iff.mp hb
    have hsound : TagsSound m ebx := tagsSound_of_walk ⟨n, hmax⟩
    refine ⟨hsound, fun l place hl hf hne => (hcase l place hl hf hne).resolve_right fun hcov => ?_⟩
    have hgood := hsound.goodBlock hl
    have hplace := hgood.findPlace_returns K
    obtain rfl := Returns.unique findMax_grows hgood.findMax_returns ⟨n, hmax⟩
    rw [hf] at hplace
    obtain rfl := Returns.unique (findPlace_grows _ _) hplace hp
    rcases hthird with ⟨h0, -⟩ | ⟨-, s, hs, -⟩
    · exact hne h0
    · refine hgood.third_stuck ?_ hcov s hs
      rintro rfl
      cases hf
  · rintro ⟨hsound, hmissed⟩
    obtain ⟨l, hl⟩ := hsound.exists_tagList
    have hgood := hsound.goodBlock hl
    have hmax := hgood.findMax_returns
    have hplace := hgood.findPlace_returns K
    by_cases h0 : (firstFit K (mapEntries m l)).getD 0 = 0
    · exact ⟨_, pmmInit_returns_iff.mpr ⟨_, _, hmax, hplace, .inl ⟨h0, rfl⟩⟩⟩
    · cases hf : firstFit K (mapEntries m l) with
      | none =>
        rw [hf] at h0
        exact absurd rfl h0
      | some place =>
        rw [hf] at h0 hplace
        have hs := returns_iff_sees.mpr ⟨_, hgood.third_sees (hmissed l place hl hf h0)⟩
        exact ⟨_, pmmInit_returns_iff.mpr ⟨_, _, hmax, hplace, .inr ⟨h0, _, hs, rfl⟩⟩⟩

/-- A block of one tag of type 1 and size 0. -/
def emptyTagMem : Memory :=
  write (fun _ => 0) (infoAddr 0x9000) (wordBytes 24 ++ wordBytes 1 ++ wordBytes 0)

end

end Sinux.Mm

import Sinux.Fs.Ramfs

/-!
# Opening with `O_TRUNC` (`vfs_open` in `kernel/fs/vfs.c` over `kernel/fs/ramfs.c`)

`vfs_open` truncates by setting the size in the inode. The ramfs reads and writes by the size in its
node and copies that one to the inode only when it grows, so the old bytes stay in the file.

* `trunc_open_exact`: what is read back after a truncating open, some writes and a close. The law that
  it is what was written holds exactly for files that were empty.
* `append_exact`: when writes with `O_APPEND` go behind the old contents.
* `trunc_open_keeps_tail`: a file `abc`, truncated and written with `x`, reads `xbc`.
-/

namespace Sinux.Fs

open Sinux.Lib Sinux.Lib.Buffer

variable {ι : Type} [DecidableEq ι]

/-- The writes of `bufs` through the handle `i`, one after the other, none of them failing. -/
inductive Writes (i : ι) : RamFile ι → List (List Byte) → RamFile ι → Prop
  | nil (s : RamFile ι) : Writes i s [] s
  | cons {s s' t : RamFile ι} {buf : List Byte} {bufs : List (List Byte)}
    {fresh : Option (List Byte)} (hv : s.Valid (.vfsWrite i buf fresh))
    (hw : s.call (.vfsWrite i buf fresh) = some (⟨BitVec.ofNat 64 buf.length, []⟩, s'))
    (rest : Writes i s' bufs t) : Writes i s (buf :: bufs) t

namespace RamFile

/-- Calls one after the other. -/
def run (s : RamFile ι) : List (FileCall ι) → Option (List Reply × RamFile ι)
  | [] => some ([], s)
  | c :: cs => do
    let (r, s) ← s.call c
    let (rs, s) ← s.run cs
    return (r :: rs, s)

/-- What an open with `O_RDONLY` and a read of `n` bytes get. -/
def readBack (t : RamFile ι) (j : ι) (n : Nat) : Option (List Byte) := do
  let (_, t) ← t.call (.vfsOpen j 0 true)
  let (r, _) ← t.call (.vfsRead j n)
  return r.out

/-- A later reader gets `bytes` and then the end of the file. -/
def ReadsBack (t : RamFile ι) (bytes : List Byte) : Prop :=
  ∀ j n, t.handles j = none → t.readBack j n = some (bytes.take n)

/-- A later `O_APPEND` open starts at `p`. -/
def AppendsAt (t : RamFile ι) (p : Nat) : Prop :=
  ∀ j flags r t', t.handles j = none → flags &&& oAppend ≠ 0 → flags &&& oTrunc = 0 →
    t.call (.vfsOpen j flags true) = some (r, t') → (t'.handles j).map File.pos = some p

end RamFile

/-- What a truncating open promises: `s` is the state after it, `s'` the one after the writes and `t`
the one after the close. -/
structure TruncLaw (i : ι) (s : RamFile ι) (bufs : List (List Byte)) (s' t : RamFile ι) : Prop where
  readsBack : t.ReadsBack bufs.flatten
  appendsAt : t.AppendsAt bufs.flatten.length
  /-- The size in the inode is the number of readable bytes, after the open and after each write. -/
  sizes : ∀ before after u, bufs = before ++ after → Writes i s before u → Writes i u after s' →
    u.node.inode.size = u.node.content.length

/-! ## What the calls do -/

theorem FileInv.readBack {t : RamFile ι} (h : FileInv t) (j : ι) (n : Nat) :
    t.readBack j n = some (t.node.content.take n) := by
  have hopen : t.call (.vfsOpen j 0 true) = some (⟨0, []⟩, t.opened j 0) := rfl
  have hf : (t.opened j 0).handles j = some (openFile () t.node.inode 0).1 :=
    RamFile.setHandle_self ..
  have hread := (h.opened j 0).read hf n
  simp only [RamFile.readBack, hopen, hread, Option.bind_eq_bind, Option.bind_some]
  rfl

theorem FileInv.readsBack_iff {t : RamFile ι} (h : FileInv t) {i : ι} (hi : t.handles i = none)
    {bytes : List Byte} : t.ReadsBack bytes ↔ t.node.content = bytes := by
  constructor
  · intro hall
    have hcut := hall i (t.node.content.length + bytes.length) hi
    rw [h.readBack, Option.some_inj, List.take_of_length_le (Nat.le_add_right _ _),
      List.take_of_length_le (Nat.le_add_left _ _)] at hcut
    exact hcut
  · rintro rfl j n -
    exact h.readBack j n

omit [DecidableEq ι] in
theorem appended_pos (i : Inode) {flags : BitVec 32} (ha : flags &&& oAppend ≠ 0)
    (ht : flags &&& oTrunc = 0) : (openFile () i flags).1.pos = i.size := by
  rw [openFile_pos, if_pos ha, openFile_of_not_trunc _ _ ht]

theorem RamFile.appendsAt_iff {t : RamFile ι} {i : ι} (hi : t.handles i = none) {p : Nat} :
    t.AppendsAt p ↔ t.node.inode.size = p := by
  have hpos : ∀ j flags, ((t.opened j flags).handles j).map File.pos =
      some (openFile () t.node.inode flags).1.pos := by
    intro j flags
    rw [RamFile.opened, RamFile.setHandle_self]
    rfl
  constructor
  · intro hall
    have hp := hall i oAppend _ _ hi (by decide) (by decide) rfl
    rw [if_pos rfl, hpos, Option.some_inj, appended_pos _ (by decide) (by decide)] at hp
    exact hp
  · rintro rfl j flags r t' - ha ht hopen
    cases hopen
    rw [if_pos rfl, hpos, appended_pos _ ha ht]

/-- **The writes through one handle are one write of their bytes**, whatever the sizes were. -/
theorem Writes.spec {i : ι} {s t : RamFile ι} {bufs : List (List Byte)} (hw : Writes i s bufs t)
    (h : FileInv s) {f : File Unit} (hf : s.handles i = some f) :
    FileInv t ∧ (∃ f', t.handles i = some f') ∧
      t.node.content = overwrite s.node.content f.pos bufs.flatten ∧
      t.node.size = max s.node.size (f.pos + bufs.flatten.length) ∧
      t.node.inode.size =
        if s.node.size < f.pos + bufs.flatten.length then t.node.size else s.node.inode.size := by
  induction hw generalizing f with
  | nil s =>
    have := h.pos_le i f hf
    refine ⟨h, ⟨f, hf⟩, overwrite_nil.symm, (Nat.max_eq_left this).symm, ?_⟩
    exact (if_neg (Nat.not_lt.mpr this)).symm
  | @cons s s' t buf bufs fresh hv hcall rest ih =>
    have hv' := hv
    obtain ⟨g, hg, hlt, hfresh⟩ := hv'
    obtain rfl : f = g := Option.some_inj.mp (hf.symm.trans hg)
    rcases h.write hf buf fresh hlt hfresh with ⟨rfl, hfull⟩ | ⟨x, hok, hst⟩
    · -- a write that returns its length did not run out of memory
      have hret : BitVec.ofNat 64 buf.length = enospc := by
        have := hcall.symm.trans hfull
        simp only [Option.some_inj, Prod.mk.injEq, Reply.mk.injEq] at this
        exact this.1.1
      exact absurd hret (ofNat_ne_enospc (by omega))
    · obtain rfl : s' = (s.setNode x).setHandle i (some { f with pos := f.pos + buf.length }) := by
        simpa using hcall.symm.trans hok
      have hpos := h.pos_le i f hf
      have hinv := h.preserved hv hok
      obtain ⟨ht, hopen, hcontent, hsize, hinode⟩ := ih hinv (RamFile.setHandle_self ..)
      have hxsize := hst.size
      have hxinode := hst.inodeSize
      simp only [RamFile.setHandle, RamFile.setNode] at hcontent hsize hinode
      rw [List.flatten_cons, List.length_append]
      refine ⟨ht, hopen, ?_, by omega, ?_⟩
      · rw [hcontent, hst.content]
        exact overwrite_append (by rw [h.ok.length_content]; exact hpos)
      · -- the size reaches the inode with the last write that moves the end
        grind

/-- The state after a truncating open: the node is as it was, the size in the inode is 0. -/
theorem FileInv.truncated {s s₁ : RamFile ι} {i : ι} {flags : BitVec 32} {r : Reply}
    (ht : flags &&& oTrunc ≠ 0) (hopen : s.call (.vfsOpen i flags true) = some (r, s₁)) :
    s₁.node = { s.node with inode := { s.node.inode with size := 0 } } ∧
      ∃ f, s₁.handles i = some f ∧ f.pos = 0 := by
  cases hopen
  rw [if_pos rfl]
  refine ⟨?_, (openFile () s.node.inode flags).1, RamFile.setHandle_self .., ?_⟩
  · show { s.node with inode := (openFile () s.node.inode flags).2 } = _
    rw [openFile_of_trunc _ _ ht]
  · rw [openFile_pos, openFile_of_trunc _ _ ht]
    exact ite_self 0

/-- **A truncating open truncates exactly the files that are empty already.** In every state a file can
be in: open it with `O_TRUNC`, write, close. A later reader gets what was written exactly if that is at
least as long as the old contents, a later `O_APPEND` open starts behind it exactly if it is longer or
empty, and all that the law asks for holds exactly if the file had no contents. -/
theorem trunc_open_exact (name : Str) {s s₁ s₂ t : RamFile ι} {i : ι} {flags : BitVec 32}
    {bufs : List (List Byte)} {r r' : Reply}
    (hr : RamFile.Reach (fun _ => True) (RamFile.created name) s)
    (hfree : s.handles i = none) (ht : flags &&& oTrunc ≠ 0)
    (hopen : s.call (.vfsOpen i flags true) = some (r, s₁)) (hw : Writes i s₁ bufs s₂)
    (hclose : s₂.call (.vfsClose i) = some (r', t)) :
    (TruncLaw i s₁ bufs s₂ t ↔ s.node.size = 0) ∧
    (t.ReadsBack bufs.flatten ↔ s.node.size ≤ bufs.flatten.length) ∧
    (t.AppendsAt bufs.flatten.length ↔
      s.node.size < bufs.flatten.length ∨ bufs.flatten = []) := by
  have hs := (FileInv.created name).reach hr
  have hs₁ := hs.preserved (c := .vfsOpen i flags true) hfree hopen
  obtain ⟨hnode, f, hf, hpos⟩ := FileInv.truncated ht hopen
  have hsize₁ : s₁.node.size = s.node.size := by rw [hnode]
  have hinode₁ : s₁.node.inode.size = 0 := by rw [hnode]
  obtain ⟨hs₂, ⟨f', hf'⟩, hcontent, hsize₂, hinode⟩ := hw.spec hs₁ hf
  obtain ⟨-, rfl⟩ := Prod.mk.inj (Option.some_inj.mp (hclose.symm.trans (hs₂.close hf')))
  have hinv := hs₂.preserved (c := .vfsClose i) ⟨f', hf'⟩ hclose
  have hfree' : (s₂.setHandle i none).handles i = none := RamFile.setHandle_self ..
  have hnode₂ : (s₂.setHandle i none).node = s₂.node := rfl
  have hread : (s₂.setHandle i none).ReadsBack bufs.flatten ↔
      s.node.size ≤ bufs.flatten.length := by
    have hlen := hs₁.ok.length_content
    rw [hinv.readsBack_iff hfree', hnode₂, hcontent, hpos, overwrite_zero,
      List.append_right_eq_self, List.drop_eq_nil_iff, hlen, hsize₁]
  have happend : (s₂.setHandle i none).AppendsAt bufs.flatten.length ↔
      s.node.size < bufs.flatten.length ∨ bufs.flatten = [] := by
    rw [RamFile.appendsAt_iff hfree', hnode₂, ← List.length_eq_zero_iff, hinode, hsize₂, hsize₁,
      hinode₁, hpos]
    split <;> omega
  refine ⟨⟨fun hlaw => ?_, fun hzero => ?_⟩, hread, happend⟩
  · -- right after the open the inode says 0
    have := hlaw.sizes [] bufs s₁ rfl (.nil s₁) hw
    rw [hinode₁, hs₁.ok.length_content, hsize₁] at this
    exact this.symm
  · refine ⟨hread.mpr (by omega), happend.mpr ?_, ?_⟩
    · rw [hzero, Nat.pos_iff_ne_zero, Ne, List.length_eq_zero_iff]
      exact (em _).symm
    · intro before after u _ hbefore _
      obtain ⟨hu, -, -, husize, huinode⟩ := hbefore.spec hs₁ hf
      rw [hu.ok.length_content, huinode, husize]
      split <;> omega

/-- One byte is stored when `kmalloc` has memory. -/
theorem FileInv.write_one {s : RamFile ι} (h : FileInv s) {i : ι} {f : File Unit}
    (hf : s.handles i = some f) (hpos : f.pos < 2 ^ 62) (b : Byte) :
    ∃ fresh x, s.Valid (.vfsWrite i [b] fresh) ∧ s.call (.vfsWrite i [b] fresh) =
      some (⟨1, []⟩, (s.setNode x).setHandle i (some { f with pos := f.pos + 1 })) ∧
      Stored s.node f.pos [b] x := by
  have hlt : f.pos + [b].length < 2 ^ 63 := by rw [List.length_singleton]; omega
  have hlen : ∀ block ∈ some (List.replicate (f.pos + 1 + 4096) (0 : Byte)),
      f.pos + [b].length + 4096 ≤ block.length := by
    rintro _ ⟨⟩
    exact List.length_replicate.ge
  obtain ⟨⟨⟩, -⟩ | ⟨x, hok, hx⟩ := h.write hf [b] _ hlt hlen
  exact ⟨_, x, ⟨f, hf, hlt, hlen⟩, hok, hx⟩

/-- A new file opened with `O_TRUNC` and written with `x` keeps the law. -/
theorem trunc_open_exact_new :
    let s₁ : RamFile Unit := (RamFile.created (str ['f'])).opened () (oWronly ||| oTrunc)
    ∃ s₂ t, Writes () s₁ [[120]] s₂ ∧ TruncLaw () s₁ [[120]] s₂ t := by
  intro s₁
  obtain ⟨fresh, x, hv, hok, -⟩ :=
    ((FileInv.created (str ['f'])).opened () (oWronly ||| oTrunc)).write_one (i := ()) rfl (by decide) 120
  have hw : Writes () s₁ [[120]] _ := .cons hv hok (.nil _)
  have h := trunc_open_exact (str ['f']) .refl rfl (by decide) rfl hw rfl
  exact ⟨_, _, hw, h.1.mpr rfl⟩

/-- **The old tail survives**: `abc` is written to a new file, which is then opened with `O_TRUNC`,
written with `x` and closed. It reads `xbc`, and the size in its inode is 0. -/
theorem trunc_open_keeps_tail :
    ((RamFile.created (str ['f']) : RamFile Unit).run
      [.vfsOpen () oWronly true, .vfsWrite () [97, 98, 99] (some (List.replicate 4099 0)),
        .vfsClose (), .vfsOpen () (oWronly ||| oTrunc) true, .vfsWrite () [120] none, .vfsClose (),
        .vfsOpen () 0 true, .vfsRead () 10]).map (fun s => (s.1.map Reply.out, s.2.node.inode.size)) =
      some ([[], [], [], [], [], [], [], [120, 98, 99]], 0) := by
  decide +kernel

/-- **Appending appends exactly while the two sizes agree.** In every state a file can be in: open it
with `O_APPEND`, write, close. A later reader gets the old contents followed by what was written exactly
if nothing was written or the inode knows the size of the node, which a truncating open makes it forget
until the file grows. -/
theorem append_exact (name : Str) {s s₁ s₂ t : RamFile ι} {i : ι} {flags : BitVec 32}
    {bufs : List (List Byte)} {r r' : Reply}
    (hr : RamFile.Reach (fun _ => True) (RamFile.created name) s)
    (hfree : s.handles i = none) (ha : flags &&& oAppend ≠ 0) (ht : flags &&& oTrunc = 0)
    (hopen : s.call (.vfsOpen i flags true) = some (r, s₁)) (hw : Writes i s₁ bufs s₂)
    (hclose : s₂.call (.vfsClose i) = some (r', t)) :
    t.ReadsBack (s.node.content ++ bufs.flatten) ↔
      bufs.flatten = [] ∨ s.node.inode.size = s.node.size := by
  have hs := (FileInv.created name).reach hr
  have hs₁ := hs.preserved (c := .vfsOpen i flags true) hfree hopen
  cases hopen
  rw [if_pos rfl] at hs₁ hw
  have hf : (s.opened i flags).handles i = some (openFile () s.node.inode flags).1 :=
    RamFile.setHandle_self ..
  have hnode : (s.opened i flags).node = s.node := by
    show { s.node with inode := (openFile () s.node.inode flags).2 } = _
    rw [openFile_of_not_trunc _ _ ht]
  obtain ⟨hs₂, ⟨f', hf'⟩, hcontent, -, -⟩ := hw.spec hs₁ hf
  obtain ⟨-, rfl⟩ := Prod.mk.inj (Option.some_inj.mp (hclose.symm.trans (hs₂.close hf')))
  have hinv := hs₂.preserved (c := .vfsClose i) ⟨f', hf'⟩ hclose
  have hle := hs₁.pos_le i _ hf
  have hlen := hs.ok.length_content
  rw [hnode, appended_pos _ ha ht] at hle hcontent
  rw [hinv.readsBack_iff (RamFile.setHandle_self ..),
    show (s₂.setHandle i none).node = s₂.node from rfl, hcontent]
  constructor
  · intro heq
    have hsize := congrArg List.length heq
    rw [length_overwrite (hlen.symm ▸ hle), List.length_append, hlen] at hsize
    rw [← List.length_eq_zero_iff]
    omega
  · rintro (hnil | hsize)
    · rw [hnil, overwrite_nil, List.append_nil]
    · rw [hsize, ← hlen]
      simp [overwrite]

/-- A run after which the file holds `a`. -/
theorem holds_a : ∃ s : RamFile Unit, RamFile.Reach (fun _ => True) (RamFile.created (str ['f'])) s ∧
    s.handles () = none ∧ s.node.content = [97] ∧ s.node.inode.size = s.node.size ∧
    s.node.size = 1 := by
  have hopen : RamFile.Reach (fun _ => True) (RamFile.created (str ['f']))
      ((RamFile.created (str ['f'])).opened () oWronly) :=
    .single ⟨.vfsOpen () oWronly true, _, trivial, rfl, rfl⟩
  obtain ⟨_, x, hv, hok, hx⟩ := ((FileInv.created (str ['f'])).opened () oWronly).write_one
    (i := ()) rfl (by decide) 97
  have hr := (hopen.tail ⟨_, _, trivial, hv, hok⟩).tail ⟨.vfsClose (), _, trivial, ⟨_, rfl⟩, rfl⟩
  exact ⟨_, hr, rfl, hx.content, hx.inodeSize, hx.size⟩

/-- `x` appended to a file that holds `a`. -/
theorem append_exact_new : ∃ s s₂ t : RamFile Unit, s.node.content = [97] ∧
    Writes () (s.opened () oAppend) [[120]] s₂ ∧ t.ReadsBack [97, 120] := by
  obtain ⟨s, hr, hfree, hcontent, hsize, hone⟩ := holds_a
  have hinv := (FileInv.created _).reach hr
  obtain ⟨_, x, hv, hok, -⟩ := (hinv.opened () oAppend).write_one (i := ()) rfl
    (show s.node.inode.size < 2 ^ 62 by omega) 120
  have hw : Writes () (s.opened () oAppend) [[120]] _ := .cons hv hok (.nil _)
  have h := append_exact (str ['f']) hr hfree (by decide) (by decide) rfl hw rfl
  rw [hcontent] at h
  exact ⟨s, _, _, hcontent, hw, h.mpr (.inr hsize)⟩

end Sinux.Fs

import Sinux.Fs.RamDir
import Sinux.Fs.Vfs
import Sinux.Fs.Ext2
import Sinux.Core.PathBytes

/-!
# Snapshots of the ramfs (`kernel/core/persist.c`, `drivers/ata.c`)

`persist_sync` walks the tree with a stack of 32 paths, writes down up to 256 of them, and fills
`disk_buf` with a header, one record for each path and the bytes of the files; `persist_load` makes
the directories and files of the records again. The buffer goes to the disk and comes from it
through `ata_write` and `ata_read`, whose number of sectors has eight bits.

The ramfs is mounted at `/` and nothing else is; there is memory for every `file_t`. The drive is an
array of sectors that does every command. `persist_load` has one caller, `persist_init`, and that has
none: it is taken to be the first thing that happens to `disk_buf` after a start.

* `ataSectors_image`: no sector of the image is transferred.
* `kstrncat_refines`: the strings of the walk are those in the array `full`.
* `persist_round_trip_iff`: **snapshots do not come back**, so a tree survives a restart exactly if it
  is empty.

**Out of scope**: other mounts, and a `vfs_open` for which there is no memory.
-/

namespace Sinux.Core.Persist

open Sinux.Fs Sinux.Lib Sinux.Lib.ByteMem

/-! ## The drive -/

/-- The bytes from `a` on replaced by those of the list. -/
def put (m : Buf) (a : Nat) (l : List Byte) : Buf := fun i =>
  if a ≤ i then (l[i - a]?).getD (m i) else m i

/-- The `n` bytes from `a` on. -/
def get (m : Buf) (a n : Nat) : List Byte := (List.range n).map fun i => m (a + i)

/-- `ata_drive_t`, the fields that are read. -/
structure AtaDrive where
  present : Bool
  sectors : BitVec 32

/-- The sectors that the loop of `ata_read` and of `ata_write` goes through, counted from `lba`;
`none` if the request is refused. -/
def ataSectors (drv : AtaDrive) (lba : BitVec 32) (count : BitVec 8) : Option (List Nat) :=
  if !drv.present then none
  else if drv.sectors < lba + count.zeroExtend 32 then none
  else some (List.range count.toNat)

/-- `ata_read`: the value returned, and the buffer. -/
def ataRead (drv : AtaDrive) (disk : Disk) (lba : BitVec 32) (count : BitVec 8) (buf : Buf) :
    Bool × Buf :=
  match ataSectors drv lba count with
  | none => (false, buf)
  | some l => (true, l.foldl (fun buf s =>
      put buf (s * 512) (get disk ((lba.toNat + s) * 512) 512)) buf)

/-- `ata_write`: the value returned, and the disk. -/
def ataWrite (drv : AtaDrive) (disk : Disk) (lba : BitVec 32) (count : BitVec 8) (buf : Buf) :
    Bool × Disk :=
  match ataSectors drv lba count with
  | none => (false, disk)
  | some l => (true, l.foldl (fun disk s =>
      put disk ((lba.toNat + s) * 512) (get buf (s * 512) 512)) disk)

/-! ## The ramfs at `/` -/

/-- `cur->ops->lookup(cur, name)` for a node of the ramfs; the terminal has no `lookup`. -/
def ramStep (fs : RamFs) (d : Nat) (name : Str) : Option Nat :=
  if (fs.nodes d).inode.ops = some .ramfs then ramfsLookup fs d name else none

/-- The lookups in the ramfs one after the other. -/
def ramWalk (fs : RamFs) (d : Nat) (cs : List Str) : Option Nat := cs.foldlM (ramStep fs) d

theorem ramWalk_cons (fs : RamFs) (d : Nat) (c : Str) (cs : List Str) :
    ramWalk fs d (c :: cs) = (ramStep fs d c).bind fun e => ramWalk fs e cs :=
  rfl

def rootSlot : Slot := ⟨[slash], true, true⟩

def rootView (fs : RamFs) : FsView Nat := ⟨fun _ => some 0, fun d => some (ramStep fs d)⟩

/-- `vfs_lookup`. -/
def lookup (fs : RamFs) (path : Str) : Option Nat := vfsLookup [rootSlot] (rootView fs) path

/-- `vfs_create`. -/
def create (fs : RamFs) (path : Str) (type : FileType) : Option (U64 × RamFs) := do
  let (dir, name) ← splitPath path
  if name = [] then return (einval, fs)
  match lookup fs dir with
  | none => return (enoent, fs)
  | some d =>
    if (fs.nodes d).inode.type ≠ .dir then return (enoent, fs)
    else if (fs.nodes d).inode.ops ≠ some .ramfs then return (eacces, fs)
    else ramfsCreate fs d name type

/-- `vfs_open(path, O_RDONLY)`, which changes nothing: the node and the file. -/
def openRead (fs : RamFs) (path : Str) : Option (Nat × File Unit) :=
  (lookup fs path).map fun i => (i, (openFile () (fs.nodes i).inode 0).1)

/-- The part of `vfs_open` before the `kmalloc`, with `O_CREAT`. -/
def openInode (fs : RamFs) (path : Str) : Option (Option Nat × RamFs) :=
  match lookup fs path with
  | some i => some (some i, fs)
  | none => (create fs path .reg).map fun r => (lookup r.2 path, r.2)

/-- `vfs_open(path, O_WRONLY | O_CREAT | O_TRUNC)`. -/
def openWrite (fs : RamFs) (path : Str) : Option (Option (Nat × File Unit) × RamFs) := do
  match ← openInode fs path with
  | (none, fs) => return (none, fs)
  | (some i, fs) =>
    let x := fs.nodes i
    let (f, ino) := openFile () x.inode (oWronly ||| oCreat ||| oTrunc)
    return (some (i, f), fs.setNode i { x with inode := ino })

/-! ## The image -/

/-- `SINUXFS_MAGIC`. -/
def sinuxfsMagic : Nat := 0x534E5846

def maxNodes : Nat := 256
def diskLba : BitVec 32 := 64

/-- `DISK_SECTORS`, as `disk_read` and `disk_write` pass it: the parameter is a `uint8_t`. -/
def diskSectors : Nat := 256
def sectorCount : BitVec 8 := BitVec.ofNat 8 diskSectors

/-- `sizeof(disk_buf)`. -/
def bufSize : Nat := diskSectors * 512

/-- `sizeof(sinuxfs_header_t) + i * sizeof(sinuxfs_node_t)`. -/
def nodeAt (i : Nat) : Nat := 16 + 272 * i

/-- `data_area - disk_buf`. -/
def dataArea : Nat := nodeAt maxNodes

/-- The bytes of a `uint32_t`. -/
def le32 (n : Nat) : List Byte :=
  [BitVec.ofNat 8 n, BitVec.ofNat 8 (n / 2 ^ 8), BitVec.ofNat 8 (n / 2 ^ 16),
    BitVec.ofNat 8 (n / 2 ^ 24)]

/-- What `kstrncpy` writes to an array of `n` bytes: the string and zeros. -/
def padded (n : Nat) (s : Str) : List Byte := bytes s ++ List.replicate (n - s.length) 0

/-! ## `persist_sync` -/

/-- `kstrncat` to an array of 256 bytes. A string shorter than `n` is ended twice. -/
def kstrncat (dst src : Str) (n : Nat) : Option Str :=
  if src.length < n then if dst.length + src.length + 2 ≤ 256 then some (dst ++ src) else none
  else if dst.length + n + 1 ≤ 256 then some (dst ++ src.take n) else none

theorem kstrncat_refines {m : Memory} {a b n : U64} {u t out : Str}
    (h : kstrncat u t n.toNat = some out) (hu : PathBytes.Holds m a u) (ht : PathBytes.Holds m b t)
    (hap : Apart a 256 b (t.length + 1)) :
    PathBytes.Holds (PathBytes.kstrncat m a b n) a out ∧
      ∀ x, 256 ≤ (x - a).toNat → PathBytes.kstrncat m a b n x = m x := by
  have hroom : u.length + min (t.length + 1) n.toNat + 1 ≤ 256 ∧ u ++ t.take n.toNat = out := by
    unfold kstrncat at h
    split_ifs at h with hlt hfit hfit
    · rw [List.take_of_length_le hlt.le]
      exact ⟨by omega, Option.some_inj.mp h⟩
    · exact ⟨by omega, Option.some_inj.mp h⟩
  obtain ⟨hfit, rfl⟩ := hroom
  obtain ⟨hholds, hothers⟩ := PathBytes.kstrncat_holds (n := n) hu ht (by omega) (hap.mono hfit le_rfl)
  exact ⟨hholds, fun x hx => hothers x (by omega)⟩

/-- `full`: the directory and the name, with one `/` between. -/
def joinPath (cur name : Str) : Option Str :=
  if cur.length = 1 then if name.length + 2 ≤ 256 then some (slash :: name) else none
  else do
    let full ← kstrncpy cur 200
    let full ← kstrncat full [slash] 255
    kstrncat full name 255

def isDir (fs : RamFs) (path : Str) : Bool :=
  (lookup fs path).any fun i => (fs.nodes i).inode.type = .dir

/-- `stack` and `paths`, and how far they are filled. -/
structure WalkState where
  stack : List Str
  seen : List Str

/-- The inner loop of the walk over the entries `cs` that `vfs_readdir` has not returned; `stack`
and `paths`. -/
def listDir (fs : RamFs) (cur : Str) : List Nat → WalkState →
    Option (WalkState)
  | [], s => some s
  | c :: cs, s => do
    let name ← kstrncpy (fs.name c) 255
    if maxNodes ≤ s.seen.length then return s
    if name = [] then listDir fs cur cs s
    else
      let full ← joinPath cur name
      let stack := if isDir fs full && s.stack.length < 32 then full :: s.stack else s.stack
      listDir fs cur cs ⟨stack, s.seen ++ [full]⟩

/-- What `vfs_readdir` returns of a node. -/
def entries (fs : RamFs) (d : Nat) : List Nat :=
  if (fs.nodes d).inode.ops = some .ramfs then fs.children d else []

/-- The walk. -/
def walkTree (fs : RamFs) : Nat → WalkState → Option (WalkState)
  | 0, _ => none
  | fuel + 1, s =>
    match s.stack with
    | [] => some s
    | cur :: rest =>
      if maxNodes ≤ s.seen.length then some s
      else
        match openRead fs cur with
        | none => walkTree fs fuel ⟨rest, s.seen⟩
        | some (d, _) => do
          let s ← listDir fs cur (entries fs d) ⟨rest, s.seen⟩
          walkTree fs fuel s

/-- `paths`. A round takes a path from the stack, and no more than 257 get there. -/
def syncPaths (fs : RamFs) : Option (List Str) :=
  (walkTree fs 258 ⟨[[slash]], []⟩).map WalkState.seen

/-- `disk_buf`, `node_count` and `data_used`. -/
structure Enc where
  buf : Buf
  count : Nat
  used : Nat

/-- The header before `node_count` is known. -/
def syncStart : Enc :=
  ⟨put (put (fun _ => 0) 0 (le32 sinuxfsMagic)) 4 (le32 1), 0, 0⟩

/-- The bytes of a file: `vfs_open` and `vfs_read` of `n` bytes. -/
def readFile (fs : RamFs) (path : Str) (n : Nat) : Option (Option (List Byte)) :=
  match openRead fs path with
  | none => some none
  | some (i, f) =>
    (vfsRead (ramReads (fs.nodes i)) (some (ebadf, [], f)) f n).map fun r => some r.2.1

/-- The second loop: the record of one path, and its bytes. -/
def encodeNode (fs : RamFs) (e : Enc) (path : Str) : Option Enc :=
  if maxNodes ≤ e.count then some e
  else
    match lookup fs path with
    | none => some e
    | some i => do
      let ino := (fs.nodes i).inode
      let at_ := nodeAt e.count
      let path ← kstrncpy path 256
      let buf := put e.buf at_ (padded 256 path)
      let buf := put buf (at_ + 256) (le32 (if ino.type = .dir then 2 else 1))
      let buf := put buf (at_ + 260) (le32 ino.size)
      let buf := put buf (at_ + 264) (le32 e.used)
      if ino.type = .reg ∧ 0 < ino.size then
        let avail := bufSize - dataArea - e.used
        let n := if ino.size < avail then ino.size else avail
        match ← readFile fs path n with
        | none => return ⟨buf, e.count + 1, e.used⟩
        | some out => return ⟨put buf (dataArea + e.used) out, e.count + 1, e.used + n⟩
      else return ⟨buf, e.count + 1, e.used⟩

/-- The contents of `disk_buf` when it is written. -/
def syncImage (fs : RamFs) : Option Buf := do
  let paths ← syncPaths fs
  let e ← paths.foldlM (encodeNode fs) syncStart
  return put e.buf 8 (le32 e.count)

/-- The drive with what it holds, `disk_buf`, and the ramfs. -/
structure Sys where
  drive : Option AtaDrive
  disk : Disk
  buf : Buf
  fs : RamFs

/-- `persist_sync`. Without a result a path or name has run over its array. -/
def persistSync (s : Sys) : Option Sys :=
  match s.drive with
  | none => some s
  | some drv => do
    let buf ← syncImage s.fs
    return { s with buf, disk := (ataWrite drv s.disk diskLba sectorCount buf).2 }

/-! ## `persist_load` -/

/-- `n->path`: the string that starts there, which may run on into what follows. -/
def nodePath (buf : Buf) (i : Nat) : Str := cString (get buf (nodeAt i) (bufSize - nodeAt i))

/-- `vfs_write(f, data_area + n->data_offset, n->size)`. Without a result the source leaves
`disk_buf`. `fresh` is what `kmalloc` returns. -/
def writeBack (fs : RamFs) (buf : Buf) (fresh : Option (List Byte)) (i : Nat) (f : File Unit)
    (off n : Nat) : Option RamFs :=
  if dataArea + off + n ≤ bufSize then
    (vfsWrite (ramWrites (fs.nodes i) fresh) (some (ebadf, fs.nodes i, f)) f
      (get buf (dataArea + off) n)).map fun r => fs.setNode i r.2.1
  else none

/-- One round of the loop. -/
def loadNode (buf : Buf) (fresh : Nat → Option (List Byte)) (fs : RamFs) (k : Nat) :
    Option RamFs := do
  let path := nodePath buf k
  if path = [] then return fs
  if u32 buf (nodeAt k + 256) = 2 then
    let (_, fs) ← create fs path .dir
    return fs
  else
    match ← openWrite fs path with
    | (none, fs) => return fs
    | (some (i, f), fs) =>
      if 0 < u32 buf (nodeAt k + 260) then
        writeBack fs buf (fresh k) i f (u32 buf (nodeAt k + 264)) (u32 buf (nodeAt k + 260))
      else return fs

/-- The part of `persist_load` behind the `disk_read`. -/
def loadImage (buf : Buf) (fresh : Nat → Option (List Byte)) (fs : RamFs) : Option RamFs :=
  if u32 buf 0 ≠ sinuxfsMagic then some fs
  else (List.range (min (u32 buf 8) maxNodes)).foldlM (loadNode buf fresh) fs

/-- `persist_load`. `fresh k` is what `kmalloc` returns for the bytes of record `k`. -/
def persistLoad (fresh : Nat → Option (List Byte)) (s : Sys) : Option Sys :=
  match s.drive with
  | none => some s
  | some drv =>
    let (ok, buf) := ataRead drv s.disk diskLba sectorCount s.buf
    if !ok then some { s with buf }
    else (loadImage buf fresh s.fs).map fun fs => { s with buf, fs }

/-! ## The round trip -/

/-- What stands at a path: its type, and the bytes of a file. -/
def entry (fs : RamFs) (cs : List Str) : Option (FileType × List Byte) :=
  (ramWalk fs 0 cs).map fun i => ((fs.nodes i).inode.type,
    if (fs.nodes i).inode.type = .reg then (fs.nodes i).content else [])

/-- The same paths, types and file contents. -/
def RoundTrip (fs fs' : RamFs) : Prop := ∀ cs, entry fs' cs = entry fs cs

/-- A file system with nothing but a root. -/
def emptyRoot : RamFs :=
  ⟨fun i => if i = 0 then ramfsNode [slash] .dir else newNode [] .unknown, 1⟩

/-- The machine is started again: `disk_buf` is in the `.bss`, and the root is empty. -/
def Sys.restart (s : Sys) : Sys := { s with buf := fun _ => 0, fs := emptyRoot }

theorem ramWalk_emptyRoot {cs : List Str} (hne : cs ≠ []) : ramWalk emptyRoot 0 cs = none := by
  obtain ⟨c, cs, rfl⟩ := List.exists_cons_of_ne_nil hne
  have hchildren : emptyRoot.children 0 = [] := rfl
  have hstep : ramStep emptyRoot 0 c = none := by
    rw [ramStep, ramfsLookup, hchildren]
    split <;> rfl
  rw [ramWalk_cons, hstep]
  rfl

theorem roundTrip_emptyRoot_iff {fs : RamFs} (hroot : (fs.nodes 0).inode.type = .dir) :
    RoundTrip fs emptyRoot ↔ ∀ cs ≠ [], ramWalk fs 0 cs = none := by
  constructor
  · intro h cs hne
    have hcs := h cs
    rw [entry, ramWalk_emptyRoot hne] at hcs
    exact Option.map_eq_none_iff.mp hcs.symm
  · intro h cs
    rcases eq_or_ne cs [] with rfl | hne
    · have hdir : entry fs [] = some (.dir, []) := by
        simp [entry, ramWalk, hroot]
      rw [hdir]
      rfl
    · rw [entry, entry, ramWalk_emptyRoot hne, h cs hne]
      rfl

section

variable {drv : AtaDrive}

theorem ataSectors_image (hp : drv.present = true) (hs : diskLba ≤ drv.sectors) :
    ataSectors drv diskLba sectorCount = some [] := by
  have hnot : ¬drv.sectors < diskLba + sectorCount.zeroExtend 32 := by
    have h0 : diskLba + sectorCount.zeroExtend 32 = diskLba := by decide
    rw [h0]
    exact BitVec.not_lt.mpr hs
  rw [ataSectors, hp, if_neg hnot]
  rfl

theorem persistSync_some {s s₁ : Sys} (hdrive : s.drive = some drv)
    (hsec : ataSectors drv diskLba sectorCount = some []) (h : persistSync s = some s₁) :
    ∃ buf, syncImage s.fs = some buf ∧ s₁ = { s with buf } := by
  obtain ⟨drive, disk, buf₀, fs⟩ := s
  obtain rfl : drive = some drv := hdrive
  simp only [persistSync, ataWrite, hsec] at h
  obtain ⟨buf, hbuf, he⟩ := Option.bind_eq_some_iff.mp h
  exact ⟨buf, hbuf, (Option.some_inj.mp he).symm⟩

theorem persistLoad_zero {s : Sys} (hdrive : s.drive = some drv) (hbuf : s.buf = fun _ => 0)
    (hsec : ataSectors drv diskLba sectorCount = some []) (fresh : Nat → Option (List Byte)) :
    persistLoad fresh s = some s := by
  obtain ⟨drive, disk, buf, fs⟩ := s
  obtain rfl : drive = some drv := hdrive
  obtain rfl : buf = fun _ => 0 := hbuf
  have hzero : loadImage (fun _ => 0) fresh fs = some fs := if_pos (by decide)
  simp only [persistLoad, ataRead, hsec, List.foldl_nil, hzero]
  rfl

end

theorem entries_eq_nil {fs : RamFs} (h : ∀ cs ≠ [], ramWalk fs 0 cs = none) : entries fs 0 = [] := by
  unfold entries
  split
  · rename_i hops
    refine List.eq_nil_iff_forall_not_mem.mpr fun c hc => ?_
    have hnone := h [fs.name c] (List.cons_ne_nil _ _)
    rw [ramWalk_cons, ramStep, if_pos hops] at hnone
    cases hl : ramfsLookup fs 0 (fs.name c) with
    | none => exact ramfsLookup_none.mp hl c hc rfl
    | some e => rw [hl] at hnone; cases hnone
  · rfl

/-- The walk of an empty tree takes the root from its stack, and ends. -/
theorem persistSync_emptyTree (s : Sys) (h : ∀ cs ≠ [], ramWalk s.fs 0 cs = none) :
    (persistSync s).isSome := by
  have hopen : openRead s.fs [slash] = some (0, (openFile () (s.fs.nodes 0).inode 0).1) := rfl
  have hwalk : walkTree s.fs 258 ⟨[[slash]], []⟩ = some ⟨[], []⟩ := by
    rw [walkTree]
    dsimp only
    rw [if_neg (by decide), hopen]
    dsimp only
    rw [entries_eq_nil h]
    rfl
  have himage : syncImage s.fs = some (put syncStart.buf 8 (le32 0)) := by
    unfold syncImage syncPaths
    rw [hwalk]
    rfl
  unfold persistSync
  rw [himage]
  split <;> rfl

/-- **Snapshots do not come back.** Take any tree, any drive with room for the image and any disk.
`persist_sync` and `persist_load` transfer no sector, and after a restart nothing is made. So the
tree is the same exactly if it was empty. -/
theorem persist_round_trip_iff {s : Sys} {drv : AtaDrive} (hdrive : s.drive = some drv)
    (hpresent : drv.present = true) (hsectors : diskLba.toNat + diskSectors ≤ drv.sectors.toNat)
    (hroot : (s.fs.nodes 0).inode.type = .dir) (fresh : Nat → Option (List Byte)) :
    ataSectors drv diskLba sectorCount = some [] ∧
    (∀ s₁, persistSync s = some s₁ → s₁.disk = s.disk) ∧
    ((∃ s₁ s₂, persistSync s = some s₁ ∧ persistLoad fresh s₁.restart = some s₂ ∧
        RoundTrip s.fs s₂.fs) ↔ ∀ cs ≠ [], ramWalk s.fs 0 cs = none) := by
  have hsec := ataSectors_image hpresent (show diskLba.toNat ≤ drv.sectors.toNat by omega)
  have hload (buf : Buf) : persistLoad fresh (Sys.restart { s with buf }) =
      some (Sys.restart { s with buf }) :=
    persistLoad_zero (s := Sys.restart { s with buf }) hdrive rfl hsec fresh
  refine ⟨hsec, fun s₁ hsync => ?_, ?_, fun hempty => ?_⟩
  · obtain ⟨buf, -, rfl⟩ := persistSync_some hdrive hsec hsync
    rfl
  · rintro ⟨s₁, s₂, hsync, hs₂, htrip⟩
    obtain ⟨buf, -, rfl⟩ := persistSync_some hdrive hsec hsync
    obtain rfl := Option.some_inj.mp ((hload buf).symm.trans hs₂)
    exact (roundTrip_emptyRoot_iff hroot).mp htrip
  · obtain ⟨s₁, hsync⟩ := Option.isSome_iff_exists.mp (persistSync_emptyTree s hempty)
    obtain ⟨buf, -, rfl⟩ := persistSync_some hdrive hsec hsync
    exact ⟨_, _, hsync, hload buf, (roundTrip_emptyRoot_iff hroot).mpr hempty⟩

/-- A drive with room for the image, and a ramfs with the empty file `/a`. -/
def smallSys : Sys :=
  ⟨some ⟨true, 320⟩, fun _ => 0, fun _ => 0, emptyRoot.added 0 (str ['a']) .reg⟩

theorem exists_persistSync_smallSys : ∃ s₁, persistSync smallSys = some s₁ :=
  Option.isSome_iff_exists.mp (by decide +kernel)

/-- The empty tree comes back, and the one with `/a` does not. -/
theorem persist_round_trip_smallSys :
    (∃ s₁ s₂, persistSync { smallSys with fs := emptyRoot } = some s₁ ∧
      persistLoad (fun _ => none) s₁.restart = some s₂ ∧ RoundTrip emptyRoot s₂.fs) ∧
    ¬ ∃ s₁ s₂, persistSync smallSys = some s₁ ∧ persistLoad (fun _ => none) s₁.restart = some s₂ ∧
      RoundTrip smallSys.fs s₂.fs := by
  refine ⟨((persist_round_trip_iff (s := { smallSys with fs := emptyRoot }) rfl rfl (by decide) rfl
    fun _ => none).2.2).mpr fun _ => ramWalk_emptyRoot, fun h => ?_⟩
  have hempty := (persist_round_trip_iff rfl rfl (by decide) (by decide +kernel) fun _ => none).2.2.mp h
  exact absurd (hempty [str ['a']] (List.cons_ne_nil _ _)) (by decide +kernel)

/-- The file `/a` is saved and the machine started again: nothing has reached the disk, and there is
no `/a`. -/
theorem persist_loses_file : ∃ s₁ s₂, persistSync smallSys = some s₁ ∧ s₁.disk = smallSys.disk ∧
    persistLoad (fun _ => none) s₁.restart = some s₂ ∧
    lookup smallSys.fs (str ['/', 'a']) = some 1 ∧ lookup s₂.fs (str ['/', 'a']) = none := by
  obtain ⟨s₁, hsync⟩ := exists_persistSync_smallSys
  have hsec : ataSectors ⟨true, 320⟩ diskLba sectorCount = some [] :=
    ataSectors_image rfl (by decide)
  have hgone : lookup emptyRoot (str ['/', 'a']) = none := by decide +kernel
  obtain ⟨buf, -, rfl⟩ := persistSync_some rfl hsec hsync
  exact ⟨_, _, hsync, rfl, persistLoad_zero (s := Sys.restart { smallSys with buf }) rfl rfl hsec _,
    by decide +kernel, hgone⟩

end Sinux.Core.Persist

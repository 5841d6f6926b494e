import Sinux.Fs.Vfs
import Sinux.Core.StringCopy

/-!
# Paths in memory (`split_path` in `kernel/fs/vfs.c`, `path_join` in `kernel/core/main.c`)

Both functions build strings in buffers of their caller, with the loops of `lib/string.c` and single
stores. Here they run on byte memory; `Fs.splitPath` and `Core.pathJoin` say which strings are to
come out.

* `kstrcpy`, `kstrlen`, `kstrncat`, `splitPath`, `pathJoin`: the code. A loop without a counter is
  given `2 ^ 64` turns, with which it can read all of memory.
* `split_path_splits`: `dir` and `name` of a path shorter than 255 bytes.
* `path_join_bounded`: the joined path, and that nothing outside `out[0..max)` is written.
* `split_path_join`: splitting undoes joining.
-/

namespace Sinux.Core

open Sinux.Fs in
/-- `path_join` on strings; `max` is 256. -/
def pathJoin (base rel : Str) (max : Nat) : Option Str :=
  if rel = [] then kstrncpy base max
  else if rel.head? = some slash then kstrncpy rel max
  else do
    let out ← kstrncpy base max
    let out := if 0 < out.length ∧ out.getLast? ≠ some slash ∧ out.length + 1 < max then out ++ [slash]
      else out
    return out ++ rel.take (max - out.length - 1)

namespace PathBytes

open Sinux.Lib Sinux.Lib.ByteMem Sinux.Fs
open StringCopy (Copy Puts RunsOver StringAt copyLoop copyLoop_puts loaded)

/-! ## The code -/

/-- `while ((*dst++ = *src++));` -/
def kstrcpy (m : Memory) (dst src : U64) : Memory :=
  (copyLoop (2 ^ 64) ⟨m, dst, src, [], []⟩).2.mem

/-- `while (*p) p++;` -/
def strEnd (m : Memory) : Nat → U64 → U64
  | 0, p => p
  | k + 1, p => if m p = 0 then p else strEnd m k (p + 1)

def kstrlen (m : Memory) (s : U64) : U64 := strEnd m (2 ^ 64) s - s

def kstrncat (m : Memory) (dst src n : U64) : Memory :=
  let s := (copyLoop n.toNat ⟨m, strEnd m (2 ^ 64) dst, src, [], []⟩).2
  write s.mem s.dst [0]

/-- `for (p = dir; *p; p++) if (*p == '/') last = p;` -/
def lastSlash (m : Memory) : Nat → U64 → U64 → U64
  | 0, _, last => last
  | k + 1, p, last =>
    if m p = 0 then last else lastSlash m k (p + 1) (if m p = 47 then p else last)

/-- `split_path`. -/
def splitPath (m : Memory) (path dir name : U64) : Memory :=
  let m := (StringCopy.kstrncpy m dir path 255).2.mem
  let last := lastSlash m (2 ^ 64) dir dir
  if last = dir then write (kstrcpy m name (dir + 1)) dir [47, 0]
  else write (kstrcpy m name (last + 1)) last [0]

/-- `path_join`. -/
def pathJoin (m : Memory) (base rel out max : U64) : Memory :=
  if rel = 0 ∨ m rel = 0 then (StringCopy.kstrncpy m out base max).2.mem
  else if m rel = 47 then (StringCopy.kstrncpy m out rel max).2.mem
  else
    let m := (StringCopy.kstrncpy m out base max).2.mem
    let len := kstrlen m out
    if 0 < len ∧ m (out + len - 1) ≠ 47 ∧ len + 1 < max then
      kstrncat (write m (out + len) [47, 0]) out rel (max - (len + 1) - 1)
    else kstrncat m out rel (max - len - 1)

/-! ## Strings in memory -/

section

variable {m : Memory} {a dst src : U64} {t u : Str} {k : Nat} {n : U64}

/-- The string `t` lies at `a`. -/
def Holds (m : Memory) (a : U64) (t : Str) : Prop := HasBytes m a (bytes t ++ [0])

theorem holds_append : Holds m a (t ++ u) ↔
    HasBytes m a (bytes t) ∧ Holds m (a + BitVec.ofNat 64 t.length) u := by
  unfold Holds bytes
  rw [List.map_append, List.append_assoc, hasBytes_append, List.length_map]

theorem holds_cons {c : CChar} : Holds m a (c :: t) ↔ m a = c ∧ Holds m (a + 1) t := hasBytes_cons

theorem holds_nil : Holds m a [] ↔ m a = 0 :=
  hasBytes_cons.trans (and_iff_left fun _ hi => absurd hi (Nat.not_lt_zero _))

theorem length_string (t : Str) : (bytes t ++ [0]).length = t.length + 1 := by simp [bytes]

theorem Holds.loaded (h : Holds m src t) (hk : k ≤ t.length + 1) :
    loaded ⟨m, dst, src, [], []⟩ k = (bytes t ++ [0]).take k := by
  have hlen := length_string t
  refine List.ext_getElem? fun i => ?_
  rw [StringCopy.loaded, List.getElem?_map, List.getElem?_take]
  by_cases hi : i < k
  · rw [List.getElem?_range hi, if_pos hi]
    exact h i (by omega)
  · rw [List.getElem?_eq_none (by rw [List.length_range]; omega), if_neg hi]
    rfl

theorem not_runsOver {n : Nat} (h : Apart dst 1 src (n + 1)) : ¬ RunsOver dst src n := by
  rintro ⟨-, hle⟩
  refine h 0 (dst - src).toNat Nat.one_pos (by omega) ?_
  rw [BitVec.ofNat_toNat, BitVec.setWidth_eq, BitVec.add_comm src, BitVec.sub_add_cancel]
  exact BitVec.add_zero dst

theorem strEnd_eq : ∀ {t : Str} {k : Nat} {p : U64}, Holds m p t → t.length < k →
    strEnd m k p = p + BitVec.ofNat 64 t.length
  | [], k + 1, p, h, _ => by
    rw [strEnd, if_pos (holds_nil.mp h)]
    exact (BitVec.add_zero p).symm
  | c :: t, k + 1, p, h, hk => by
    obtain ⟨hc, ht⟩ := holds_cons.mp h
    rw [strEnd, if_neg (hc ▸ c.2), strEnd_eq ht (Nat.lt_of_succ_lt_succ hk),
      StringCopy.add_ofNat_succ]
    rfl

theorem copyLoop_string (h : Holds m src t) (hap : Apart dst 1 src (t.length + 1)) (k : Nat) :
    Puts ⟨m, dst, src, [], []⟩ ((bytes t ++ [0]).take k) (copyLoop k ⟨m, dst, src, [], []⟩).2 := by
  have hp := (copyLoop_puts (s := ⟨m, dst, src, [], []⟩) (StringCopy.stringAt_of_hasBytes h)
    (not_runsOver hap) (k := k)).1
  rwa [h.loaded (Nat.min_le_right ..), ← List.take_take,
    List.take_of_length_le (length_string t).le] at hp

theorem kstrcpy_eq (h : Holds m src t) (hap : Apart dst 1 src (t.length + 1))
    (hlen : t.length < 2 ^ 64) : kstrcpy m dst src = write m dst (bytes t ++ [0]) := by
  have hp := (copyLoop_string h hap (2 ^ 64)).mem
  rwa [List.take_of_length_le (by rw [length_string]; omega)] at hp

theorem kstrncpy_holds (h : Holds m src t) (hlen : t.length < n.toNat)
    (hap : Apart dst n.toNat src (t.length + 1)) :
    Holds (StringCopy.kstrncpy m dst src n).2.mem dst t ∧
      ∀ x, n.toNat ≤ (x - dst).toNat → (StringCopy.kstrncpy m dst src n).2.mem x = m x := by
  have hover : ¬ RunsOver dst src t.length :=
    not_runsOver fun i j hi => hap i j (by omega)
  have hr := StringCopy.kstrncpy_refines (n := n) h hover
  rw [kstrncpy_of_lt hlen] at hr
  exact ⟨hr, (StringCopy.kstrncpy_fits (StringCopy.stringAt_of_hasBytes h) hlen hover).others⟩

theorem kstrncat_holds (hu : Holds m dst u) (ht : Holds m src t)
    (hlen : u.length + min (t.length + 1) n.toNat + 1 < 2 ^ 64)
    (hap : Apart dst (u.length + min (t.length + 1) n.toNat + 1) src (t.length + 1)) :
    Holds (kstrncat m dst src n) dst (u ++ t.take n.toNat) ∧
      ∀ x, u.length + min (t.length + 1) n.toNat + 1 ≤ (x - dst).toNat →
        kstrncat m dst src n x = m x := by
  have hstart : Apart (dst + BitVec.ofNat 64 u.length) 1 src (t.length + 1) :=
    hap.part (by omega) le_rfl
  have hp := copyLoop_string ht hstart n.toNat
  have hall : ((bytes t ++ [0]).take n.toNat ++ [0]).length ≤ min (t.length + 1) n.toNat + 1 := by
    rw [List.length_append, List.length_take, length_string, Nat.min_comm]
    exact le_rfl
  have hmem : kstrncat m dst src n =
      write m (dst + BitVec.ofNat 64 u.length) ((bytes t ++ [0]).take n.toNat ++ [0]) := by
    rw [List.length_append] at hall
    unfold kstrncat
    dsimp only
    rw [strEnd_eq hu (by omega), hp.mem, hp.dst, write_write (by omega)]
  -- a string that ends before `n` bytes is ended twice
  obtain ⟨bs, hbs⟩ : ∃ bs, (bytes t ++ [0]).take n.toNat ++ [0] =
      bytes (t.take n.toNat) ++ [0] ++ bs := by
    by_cases hn : n.toNat ≤ t.length
    · refine ⟨[], ?_⟩
      rw [List.take_append_of_le_length (by rwa [length_bytes]), List.append_nil, bytes, bytes,
        List.map_take]
    · refine ⟨[0], ?_⟩
      rw [List.take_of_length_le (by rw [length_string]; omega), List.take_of_length_le (by omega)]
  rw [hmem]
  refine ⟨holds_append.mpr ⟨?_, ?_⟩, fun x hx => write_outside (outside_part hx (by omega))⟩
  · exact (hasBytes_append.mp hu).1.write (apart_behind (length_bytes u).le (by omega)) hall le_rfl
  · rw [hbs] at hall ⊢
    exact (hasBytes_append.mp (write_holds (by omega))).1

end

/-! ## `split_path` -/

section

variable {m : Memory} {path dir name last : U64} {a b t : Str}

theorem val_ne_slash {c : CChar} (h : c ≠ slash) : c.val ≠ 47 := fun he => h (Subtype.ext he)

theorem lastSlash_none : ∀ {b : Str} {k : Nat} {p : U64}, Holds m p b → slash ∉ b →
    lastSlash m k p last = last
  | _, 0, _, _, _ => rfl
  | [], k + 1, p, h, _ => by rw [lastSlash, if_pos (holds_nil.mp h)]
  | c :: b, k + 1, p, h, hb => by
    obtain ⟨hc, ht⟩ := holds_cons.mp h
    rw [List.mem_cons, not_or] at hb
    rw [lastSlash, hc, if_neg c.2, if_neg (val_ne_slash (Ne.symm hb.1))]
    exact lastSlash_none ht hb.2

theorem lastSlash_eq : ∀ {a : Str} {k : Nat} {p last : U64}, Holds m p (a ++ slash :: b) →
    slash ∉ b → a.length < k → lastSlash m k p last = p + BitVec.ofNat 64 a.length
  | [], k + 1, p, last, h, hb, _ => by
    obtain ⟨hc, ht⟩ := holds_cons.mp h
    rw [lastSlash, hc, if_neg slash.2, if_pos (show slash.val = 47 from rfl), lastSlash_none ht hb]
    exact (BitVec.add_zero p).symm
  | c :: a, k + 1, p, last, h, hb, hk => by
    obtain ⟨hc, ht⟩ := holds_cons.mp h
    rw [lastSlash, hc, if_neg c.2, lastSlash_eq ht hb (Nat.lt_of_succ_lt_succ hk),
      StringCopy.add_ofNat_succ]
    rfl

theorem splitPath_holds (h : Holds m path (a ++ slash :: b)) (hb : slash ∉ b)
    (hlen : (a ++ slash :: b).length ≤ 254)
    (hpath : Apart dir 256 path ((a ++ slash :: b).length + 1)) (hname : Apart dir 256 name 256) :
    Holds (splitPath m path dir name) dir (if a = [] then [slash] else a) ∧
    Holds (splitPath m path dir name) name b ∧
    ∀ x, 256 ≤ (x - dir).toNat → 256 ≤ (x - name).toNat → splitPath m path dir name x = m x := by
  have h255 : (255 : U64).toNat = 255 := rfl
  -- the copy of the path
  obtain ⟨h1, hframe1⟩ := kstrncpy_holds (n := 255) h (by omega) fun i j hi => hpath i j (by omega)
  rw [List.length_append, List.length_cons] at hlen
  unfold splitPath
  generalize (StringCopy.kstrncpy m dir path 255).2.mem = m1 at h1 hframe1
  obtain ⟨hdir, hrest⟩ := holds_append.mp h1
  obtain ⟨-, hb1⟩ := holds_cons.mp hrest
  -- the copy of the name
  have hsrc : Apart name 1 (dir + BitVec.ofNat 64 a.length + BitVec.ofNat 64 1) (b.length + 1) := by
    rw [add_ofNat_add]
    exact (hname.part (by omega) (by decide)).symm
  have hm2 := kstrcpy_eq hb1 hsrc (by omega)
  have hcopied : Holds (write m1 name (bytes b ++ [0])) name b :=
    write_holds (by rw [length_string]; omega)
  have hblen : (bytes b ++ [0]).length ≤ 256 := by
    rw [length_string]
    omega
  have hframe2 (x : U64) (hd : 256 ≤ (x - dir).toNat) (hn : 256 ≤ (x - name).toNat) :
      write m1 name (bytes b ++ [0]) x = m x := by
    rw [write_outside (hblen.trans hn), hframe1 x (by omega)]
  dsimp only
  rw [lastSlash_eq h1 hb (by omega)]
  cases a with
  | nil =>
    rw [show dir + BitVec.ofNat 64 ([] : Str).length = dir from BitVec.add_zero dir] at hm2 ⊢
    rw [if_pos rfl, if_pos rfl, hm2]
    refine ⟨write_holds (by decide), hcopied.write hname (by decide) hblen, fun x hd hn => ?_⟩
    exact (write_outside (Nat.le_trans (by decide) hd)).trans (hframe2 x hd hn)
  | cons c a =>
    have hbehind : Apart (dir + BitVec.ofNat 64 (c :: a).length) 1 dir (c :: a).length :=
      apart_behind le_rfl (by omega)
    have hlast : dir + BitVec.ofNat 64 (c :: a).length ≠ dir := fun he =>
      hbehind 0 0 Nat.one_pos (Nat.succ_pos _) (by rw [he])
    rw [if_neg hlast, if_neg (List.cons_ne_nil c a), hm2]
    refine ⟨hasBytes_append.mpr ⟨?_, ?_⟩, hcopied.write (hname.part (show _ + 1 ≤ 256 by omega) le_rfl)
      le_rfl hblen, fun x hd hn => ?_⟩
    · refine (hdir.write hname.symm hblen ?_).write hbehind le_rfl (length_bytes _).le
      rw [length_bytes]
      omega
    · rw [length_bytes]
      exact write_holds (by decide)
    · refine (write_outside ?_).trans (hframe2 x hd hn)
      exact outside_part hd (show (c :: a).length + 1 ≤ 256 by omega)

/-- **`split_path`** of a path of 1 to 254 bytes that begins with a slash: the name has no slash, the
two give the path back, and each ends within its 256 bytes. -/
theorem split_path_splits (h : Holds m path t) (hslash : t.head? = some slash) (hlen : t.length ≤ 254)
    (hpath : Apart dir 256 path (t.length + 1)) (hname : Apart dir 256 name 256) :
    ∃ d n, Fs.splitPath t = some (d, n) ∧
      Holds (splitPath m path dir name) dir d ∧ Holds (splitPath m path dir name) name n ∧
      d.length < 256 ∧ n.length < 256 ∧ slash ∉ n ∧
      (if t.count slash = 1 then d = [slash] ∧ t = slash :: n else t = d ++ slash :: n) ∧
      (n = [] ↔ t.getLast? = some slash) ∧
      ∀ x, 256 ≤ (x - dir).toNat → 256 ≤ (x - name).toNat → splitPath m path dir name x = m x := by
  obtain ⟨a, b, rfl, hb⟩ := exists_last_slash (List.mem_of_mem_head? hslash)
  obtain ⟨hd, hn, hframe⟩ := splitPath_holds h hb hlen hpath hname
  have hsplit := splitPath_append (Nat.lt_succ_of_le hlen) hb
  have hcount : (a ++ slash :: b).count slash = a.count slash + 1 := by
    rw [List.count_append, List.count_cons_self, List.count_eq_zero.mpr hb]
  have hempty : b = [] ↔ (a ++ slash :: b).getLast? = some slash := by
    cases b with
    | nil => simp
    | cons c b =>
      refine iff_of_false (List.cons_ne_nil c b) fun hl => hb ?_
      rw [List.getLast?_append_of_ne_nil _ (List.cons_ne_nil _ _), List.getLast?_cons_cons] at hl
      exact List.mem_of_getLast? hl
  rw [List.length_append, List.length_cons] at hlen
  refine ⟨_, b, hsplit, hd, hn, ?_, by omega, hb, ?_, hempty, hframe⟩
  · split
    next => decide
    next => omega
  · cases a with
    | nil => exact if_pos hcount ▸ ⟨rfl, rfl⟩
    | cons c a =>
      have hc : c = slash := Option.some.inj hslash
      rw [hcount, hc, List.count_cons_self, if_neg (by omega), if_neg (List.cons_ne_nil _ _)]

end

/-- `"/a/b"` at 0x1000. -/
def pathMemory : Memory := write (fun _ => 0) 0x1000 (bytes (str ['/', 'a', '/', 'b']) ++ [0])

theorem pathMemory_holds : Holds pathMemory 0x1000 (str ['/', 'a', '/', 'b']) :=
  write_holds (by decide)

theorem split_path_splits_ab :
    Holds (splitPath pathMemory 0x1000 0x2000 0x3000) 0x2000 (str ['/', 'a']) ∧
      Holds (splitPath pathMemory 0x1000 0x2000 0x3000) 0x3000 (str ['b']) := by
  have hpath : Apart 0x2000 256 0x1000 5 := (apart_of_le (by decide) (by decide)).symm
  have hname : Apart 0x2000 256 0x3000 256 := apart_of_le (by decide) (by decide)
  obtain ⟨d, n, hsplit, hd, hn, -⟩ :=
    split_path_splits pathMemory_holds (by decide) (by decide) hpath hname
  rw [show Fs.splitPath (str ['/', 'a', '/', 'b']) = some (str ['/', 'a'], str ['b']) by decide,
    Option.some_inj, Prod.mk.injEq] at hsplit
  rw [hsplit.1, hsplit.2]
  exact ⟨hd, hn⟩

/-! ## `path_join` -/

section

variable {m : Memory} {base rel out max : U64} {b r t : Str} {k : Nat}

/-- The string that `path_join` is to build. -/
def joined (b r : Str) (max : Nat) : Str :=
  if r = [] then b
  else if r.head? = some slash then r
  else (if b = [] ∨ b.getLast? = some slash then b ++ r else b ++ slash :: r).take (max - 1)

/-- The condition for a slash in between. -/
abbrev NeedsSlash (b : Str) (k : Nat) : Prop :=
  0 < b.length ∧ b.getLast? ≠ some slash ∧ b.length + 1 < k

theorem joined_eq (hb : b.length < k) (hne : r ≠ []) (hhead : r.head? ≠ some slash) :
    joined b r k = (if NeedsSlash b k then b ++ [slash] else b) ++
      r.take (k - (if NeedsSlash b k then b ++ [slash] else b).length - 1) := by
  have htake (u t : Str) (hu : u.length < k) :
      (u ++ t).take (k - 1) = u ++ t.take (k - u.length - 1) := by
    rw [List.take_append, List.take_of_length_le (by omega),
      show k - 1 - u.length = k - u.length - 1 by omega]
  unfold joined
  rw [if_neg hne, if_neg hhead]
  by_cases hroot : b = [] ∨ b.getLast? = some slash
  · have hnot : ¬ NeedsSlash b k := by
      rintro ⟨hpos, hlast, -⟩
      exact hroot.elim (List.ne_nil_of_length_pos hpos) hlast
    rw [if_neg hnot, if_pos hroot, htake b r hb]
  rw [if_neg hroot]
  rw [not_or] at hroot
  by_cases hfit : b.length + 1 < k
  · rw [if_pos ⟨List.length_pos_iff.mpr hroot.1, hroot.2, hfit⟩, List.append_cons,
      htake _ r (by simpa using hfit)]
  · -- there is no room for the slash
    rw [if_neg (fun h => hfit h.2.2), htake b _ hb, show k - b.length - 1 = 0 by omega, List.take_zero,
      List.take_zero]

theorem pathJoin_eq (hb : b.length < k) (hr : r.length < k) :
    Core.pathJoin b r k = some (joined b r k) := by
  unfold Core.pathJoin
  rw [kstrncpy_of_lt hb, kstrncpy_of_lt hr]
  by_cases hne : r = []
  · rw [if_pos hne, joined, if_pos hne]
  by_cases hhead : r.head? = some slash
  · rw [if_neg hne, if_pos hhead, joined, if_neg hne, if_pos hhead]
  · rw [if_neg hne, if_neg hhead, joined_eq hb hne hhead]
    rfl

theorem ofNat_toNat (h : k < max.toNat) : (BitVec.ofNat 64 k).toNat = k :=
  (BitVec.toNat_ofNat ..).trans (Nat.mod_eq_of_lt (h.trans max.isLt))

theorem needsSlash_iff (h : Holds m out b) (hlen : b.length < max.toNat) :
    (0 < BitVec.ofNat 64 b.length ∧ m (out + BitVec.ofNat 64 b.length - 1) ≠ 47 ∧
      BitVec.ofNat 64 b.length + 1 < max) ↔ NeedsSlash b max.toNat := by
  have hmax := max.isLt
  have hpos : 0 < BitVec.ofNat 64 b.length ↔ 0 < b.length := by
    rw [BitVec.lt_def, ofNat_toNat hlen]
    rfl
  have hfit : BitVec.ofNat 64 b.length + 1 < max ↔ b.length + 1 < max.toNat := by
    rw [BitVec.lt_def, BitVec.toNat_add, ofNat_toNat hlen, show (1 : U64).toNat = 1 from rfl,
      Nat.mod_eq_of_lt (by omega)]
  refine (and_congr_left' hpos).trans (and_congr_right fun hb => and_congr ?_ hfit)
  obtain ⟨b', d, rfl⟩ := (List.eq_nil_or_concat' b).resolve_left (List.ne_nil_of_length_pos hb)
  have hd := (holds_cons.mp (holds_append.mp h).2).1
  have hlast : out + BitVec.ofNat 64 (b' ++ [d]).length - 1 = out + BitVec.ofNat 64 b'.length := by
    rw [List.length_append, List.length_singleton, ← add_ofNat_add]
    exact BitVec.add_sub_cancel ..
  rw [hlast, hd, List.getLast?_concat, ne_eq, ne_eq, Option.some_inj]
  exact not_congr (@Subtype.ext_iff _ _ d slash).symm

theorem kstrncat_fills (ht : Holds m out t) (hr : Holds m rel r) (hlen : t.length < max.toNat)
    (hap : Apart out max.toNat rel (r.length + 1)) :
    (∀ x, max.toNat ≤ (x - out).toNat →
      kstrncat m out rel (max - BitVec.ofNat 64 t.length - 1) x = m x) ∧
    Holds (kstrncat m out rel (max - BitVec.ofNat 64 t.length - 1)) out
      (t ++ r.take (max.toNat - t.length - 1)) := by
  have hmax := max.isLt
  have hn : (max - BitVec.ofNat 64 t.length - 1).toNat = max.toNat - t.length - 1 := by
    have ht := ofNat_toNat hlen
    bv_omega
  have hall : t.length + (max - BitVec.ofNat 64 t.length - 1).toNat + 1 = max.toNat := by omega
  obtain ⟨hholds, hothers⟩ := kstrncat_holds (n := max - BitVec.ofNat 64 t.length - 1) ht hr
    (by omega) (hap.mono (by omega) le_rfl)
  rw [hn] at hholds
  exact ⟨fun x hx => hothers x (by omega), hholds⟩

/-- **`path_join` is exact and bounded**: it writes nothing outside `out[0..max)`, and leaves there
the string it should. -/
theorem path_join_bounded (hb : Holds m base b) (hr : Holds m rel r) (hrel : rel ≠ 0)
    (hblen : b.length < max.toNat) (hrlen : r.length < max.toNat)
    (hbase : Apart out max.toNat base (b.length + 1))
    (hrelap : Apart out max.toNat rel (r.length + 1)) :
    (∀ x, max.toNat ≤ (x - out).toNat → pathJoin m base rel out max x = m x) ∧
      Holds (pathJoin m base rel out max) out (joined b r max.toNat) ∧
      Core.pathJoin b r max.toNat = some (joined b r max.toNat) := by
  obtain ⟨h1, hf1⟩ := kstrncpy_holds hb hblen hbase
  rw [← and_assoc]
  refine ⟨?_, pathJoin_eq hblen hrlen⟩
  unfold pathJoin
  by_cases hempty : r = []
  · subst hempty
    rw [if_pos (.inr (holds_nil.mp hr)), joined, if_pos rfl]
    exact ⟨hf1, h1⟩
  obtain ⟨c, r', rfl⟩ := List.exists_cons_of_ne_nil hempty
  have hc := (holds_cons.mp hr).1
  rw [if_neg (not_or.mpr ⟨hrel, hc ▸ c.2⟩), hc]
  by_cases hslash : c = slash
  · obtain ⟨h2, hf2⟩ := kstrncpy_holds hr hrlen hrelap
    rw [if_pos (show c.val = 47 from congrArg Subtype.val hslash), joined, if_neg hempty,
      if_pos (show (c :: r').head? = some slash from congrArg some hslash)]
    exact ⟨hf2, h2⟩
  rw [if_neg (val_ne_slash hslash), joined_eq hblen hempty fun he => hslash (Option.some.inj he)]
  dsimp only
  have hr1 : Holds (StringCopy.kstrncpy m out base max).2.mem rel (c :: r') :=
    hr.congr fun j hj => hf1 _ (hrelap.outside (by rwa [length_string] at hj))
  generalize (StringCopy.kstrncpy m out base max).2.mem = m1 at h1 hf1 hr1
  have hmax := max.isLt
  have hklen : kstrlen m1 out = BitVec.ofNat 64 b.length := by
    rw [kstrlen, strEnd_eq h1 (by omega), BitVec.add_comm, BitVec.add_sub_cancel]
  rw [hklen]
  by_cases hneeds : NeedsSlash b max.toNat
  · have hpart : b.length + 2 ≤ max.toNat := hneeds.2.2
    have hlen : BitVec.ofNat 64 b.length + 1 = BitVec.ofNat 64 (b ++ [slash]).length := by
      rw [List.length_append, BitVec.ofNat_add]
      rfl
    have h2 : Holds (write m1 (out + BitVec.ofNat 64 b.length) [47, 0]) out (b ++ [slash]) := by
      refine holds_append.mpr ⟨?_, write_holds (by decide)⟩
      have hbehind := apart_behind (a := out) (n := 2) (length_bytes b).le (by omega)
      exact (hasBytes_append.mp h1).1.write hbehind le_rfl le_rfl
    have hr2 := hr1.write (hrelap.part hpart le_rfl) (show [47, 0].length ≤ 2 from le_rfl)
      (length_string _).le
    obtain ⟨hf3, h3⟩ := kstrncat_fills h2 hr2 (by simpa using hneeds.2.2) hrelap
    rw [if_pos ((needsSlash_iff h1 hblen).mpr hneeds), if_pos hneeds, hlen]
    refine ⟨fun x hx => (hf3 x hx).trans ?_, h3⟩
    exact (write_outside (outside_part hx hpart)).trans (hf1 x hx)
  · obtain ⟨hf3, h3⟩ := kstrncat_fills h1 hr1 hblen hrelap
    rw [if_neg (mt (needsSlash_iff h1 hblen).mp hneeds), if_neg hneeds]
    exact ⟨fun x hx => (hf3 x hx).trans (hf1 x hx), h3⟩

end

/-- `"/a/b"` and its last character. -/
theorem path_join_bounded_abb : Holds (pathJoin pathMemory 0x1000 0x1003 0x2000 256) 0x2000
    (str ['/', 'a', '/', 'b', '/', 'b']) := by
  have hr : Holds pathMemory 0x1003 (str ['b']) :=
    (holds_append (t := str ['/', 'a', '/'])).mp pathMemory_holds |>.2
  have hbase : Apart 0x2000 256 0x1000 5 := (apart_of_le (by decide) (by decide)).symm
  have hrel : Apart 0x2000 256 0x1003 2 := (apart_of_le (by decide) (by decide)).symm
  have h := path_join_bounded pathMemory_holds hr (by decide) (show _ < (256 : U64).toNat by decide)
    (by decide) hbase hrel
  rw [show joined (str ['/', 'a', '/', 'b']) (str ['b']) (256 : U64).toNat =
    str ['/', 'a', '/', 'b', '/', 'b'] by decide] at h
  exact h.2.1

/-- **Splitting undoes joining.** For the working directory `b`, which is the root or does not end in a
slash, and a name `r` without one, `split_path` of what `path_join` makes gives `b` and `r` again. -/
theorem split_path_join {b r : Str} (hb : b = [slash] ∨ b ≠ [] ∧ b.getLast? ≠ some slash)
    (hr : r ≠ []) (hname : slash ∉ r) (hlen : b.length + r.length < 254) :
    (Core.pathJoin b r 256).bind Fs.splitPath = some (b, r) := by
  have hhead : r.head? ≠ some slash := fun h => hname (List.mem_of_mem_head? h)
  have hsplit (a : Str) (ha : a.length ≤ b.length) :
      Fs.splitPath ((a ++ slash :: r).take 255) = some (if a = [] then [slash] else a, r) := by
    have hlt : (a ++ slash :: r).length < 255 := by
      rw [List.length_append, List.length_cons]
      omega
    rw [List.take_of_length_le hlt.le]
    exact splitPath_append hlt hname
  rw [pathJoin_eq (by omega) (by omega), Option.bind_some, joined, if_neg hr, if_neg hhead]
  rcases hb with rfl | ⟨hne, hlast⟩
  · rw [if_pos (.inr rfl)]
    exact hsplit [] (Nat.zero_le _)
  · rw [if_neg (not_or.mpr ⟨hne, hlast⟩), hsplit b le_rfl, if_neg hne]

/-- `/a` and `b`. -/
theorem split_path_join_ab : (Core.pathJoin (str ['/', 'a']) (str ['b']) 256).bind Fs.splitPath =
    some (str ['/', 'a'], str ['b']) :=
  split_path_join (.inr ⟨by decide, by decide⟩) (by decide) (by decide) (by decide)

end PathBytes

end Sinux.Core

import Sinux.Lib.ByteMem
import Sinux.Fs.CString

/-!
# Bounded string copy in memory (`kstrncpy`, libc's `strncpy`)

The model:

- `kstrncpy` over byte memory: two loops that share one unsigned counter. The addresses read and the
  writes are recorded in order.
- `copyLoop` leaves the counter at what remains if it saw the NUL. If it ran out first, the last
  test `n--` has made it `SIZE_MAX`.

Results:

- `kstrncpy_law_iff`: exactly `n` bytes are written, as they should be, exactly when the NUL is
  among the first `n` bytes of the source and the copy does not run over it.
- `kstrncpy_refines`: where the string fits, memory holds what `Fs.kstrncpy` says.
-/

namespace Sinux.Core.StringCopy

open Function Sinux.Lib Sinux.Lib.ByteMem Sinux.Fs

/-- Memory and the pointers of a copy, with what was read and written so far. -/
structure Copy where
  mem : Memory
  dst : U64
  src : U64
  reads : List U64
  writes : List (U64 × Byte)

namespace Copy

/-- `*dst++ = c`. -/
def put (c : Byte) (s : Copy) : Copy :=
  { s with
    mem := update s.mem s.dst c
    dst := s.dst + 1
    writes := s.writes ++ [(s.dst, c)] }

/-- `*src++`, the byte read and the state after. -/
def next (s : Copy) : Byte × Copy :=
  (s.mem s.src, { s with src := s.src + 1, reads := s.reads ++ [s.src] })

end Copy

/-- `while (n-- && (*dst++ = *src++));`, with the counter after the loop. -/
def copyLoop : Nat → Copy → U64 × Copy
  | 0, s => (0 - 1, s)
  | n + 1, s =>
    let (c, s) := s.next
    if c = 0 then (BitVec.ofNat 64 n, s.put c) else copyLoop n (s.put c)

/-- `while (n--) *dst++ = 0;` -/
def padLoop : Nat → Copy → Copy
  | 0, s => s
  | n + 1, s => padLoop n (s.put 0)

/-- `kstrncpy`: the pointer returned and the state after. -/
def kstrncpy (m : Memory) (dst src n : U64) : U64 × Copy :=
  let (n, s) := copyLoop n.toNat ⟨m, dst, src, [], []⟩
  (dst, padLoop n.toNat s)

/-- `strncpy` of the libc, the same code. -/
def strncpy (m : Memory) (dst src n : U64) : U64 × Copy := kstrncpy m dst src n

/-! ## The law -/

/-- A string of `len` bytes at `a`. -/
structure StringAt (m : Memory) (a : U64) (len : Nat) : Prop where
  chars : ∀ i, i < len → m (a + BitVec.ofNat 64 i) ≠ 0
  nul : m (a + BitVec.ofNat 64 len) = 0

/-- **The law of the bounded copy**: exactly `n` writes, to `dst[0..n)`, the string and then zeros;
the source is read up to its NUL. -/
structure CopyLaw (m : Memory) (dst src n : U64) (len : Nat) (out : U64 × Copy) : Prop where
  returns : out.1 = dst
  writes : out.2.writes.map Prod.fst = (List.range n.toNat).map fun i => dst + BitVec.ofNat 64 i
  copied : ∀ i, i < n.toNat → out.2.mem (dst + BitVec.ofNat 64 i) =
    if i < len then m (src + BitVec.ofNat 64 i) else 0
  others : ∀ a, n.toNat ≤ (a - dst).toNat → out.2.mem a = m a
  reads : ∀ a ∈ out.2.reads, ∃ i ≤ len, a = src + BitVec.ofNat 64 i

/-- The destination starts in the string, behind its first byte. -/
def RunsOver (dst src : U64) (len : Nat) : Prop := 1 ≤ (dst - src).toNat ∧ (dst - src).toNat ≤ len

section

variable {m : Memory} {a dst src n : U64} {len k : Nat} {s : Copy} {c : Byte}

theorem StringAt.lt (h : StringAt m a len) : len < 2 ^ 64 := by
  by_contra hge
  refine h.chars (len - 2 ^ 64) (by omega) ?_
  have hsame : BitVec.ofNat 64 (len - 2 ^ 64) = BitVec.ofNat 64 len := by
    apply BitVec.eq_of_toNat_eq
    rw [BitVec.toNat_ofNat, BitVec.toNat_ofNat]
    omega
  rw [hsame]
  exact h.nul

theorem add_ofNat_succ (a : U64) (i : Nat) :
    a + 1 + BitVec.ofNat 64 i = a + BitVec.ofNat 64 (i + 1) := by
  rw [show a + 1 = a + BitVec.ofNat 64 1 from rfl, add_ofNat_add, Nat.add_comm]

theorem StringAt.tail (h : StringAt m a (len + 1)) : StringAt m (a + 1) len := by
  refine ⟨fun i hi => ?_, ?_⟩
  · rw [add_ofNat_succ]
    exact h.chars (i + 1) (by omega)
  · rw [add_ofNat_succ]
    exact h.nul

/-! ## Blocks of writes -/

/-- From `s` to `s'` the bytes `bs` are written one after the other. -/
structure Puts (s : Copy) (bs : List Byte) (s' : Copy) : Prop where
  mem : s'.mem = write s.mem s.dst bs
  dst : s'.dst = s.dst + BitVec.ofNat 64 bs.length
  writes : s'.writes.map Prod.fst =
    s.writes.map Prod.fst ++ (List.range bs.length).map fun i => s.dst + BitVec.ofNat 64 i

theorem Puts.refl (s : Copy) : Puts s [] s := by
  refine ⟨rfl, ?_, ?_⟩
  · simp
  · simp

theorem put_puts (c : Byte) (s : Copy) : Puts s [c] (s.put c) := by
  refine ⟨?_, rfl, ?_⟩
  · funext x
    by_cases hx : x = s.dst
    · subst hx
      simp [Copy.put, write]
    · have hne : (x - s.dst).toNat ≠ 0 := by bv_omega
      rw [show (s.put c).mem x = s.mem x from update_of_ne hx ..,
        write, List.getElem?_eq_none (by rw [List.length_singleton]; omega)]
      rfl
  · simp [Copy.put]

theorem Puts.trans {s' s'' : Copy} {bs cs : List Byte} (h : Puts s bs s') (h' : Puts s' cs s'')
    (hlen : bs.length + cs.length ≤ 2 ^ 64) : Puts s (bs ++ cs) s'' := by
  refine ⟨?_, ?_, ?_⟩
  · rw [h'.mem, h.mem, h.dst, write_write hlen]
  · rw [h'.dst, h.dst, add_ofNat_add, List.length_append]
  · rw [h'.writes, h.writes, h.dst, List.length_append, List.range_add, List.map_append,
      List.map_map, List.append_assoc]
    simp only [Function.comp_def, add_ofNat_add]

theorem padLoop_puts : ∀ {k : Nat} {s : Copy}, k ≤ 2 ^ 64 →
    Puts s (List.replicate k 0) (padLoop k s)
  | 0, s, _ => Puts.refl s
  | k + 1, s, hk => by
    refine (put_puts 0 s).trans (padLoop_puts (k := k) (by omega)) ?_
    rw [List.length_replicate, List.length_singleton]
    omega

theorem padLoop_reads : ∀ {k : Nat} {s : Copy}, (padLoop k s).reads = s.reads
  | 0, _ => rfl
  | k + 1, _ => padLoop_reads (k := k)

theorem padLoop_length : ∀ {k : Nat} {s : Copy},
    (padLoop k s).writes.length = s.writes.length + k
  | 0, _ => rfl
  | k + 1, s => by
    rw [padLoop, padLoop_length, Copy.put, List.length_append, List.length_singleton]
    omega

/-! ## The copying loop -/

/-- One turn of the loop. -/
def Copy.turn (s : Copy) : Copy := s.next.2.put (s.mem s.src)

theorem copyLoop_succ (k : Nat) (s : Copy) :
    copyLoop (k + 1) s =
      if s.mem s.src = 0 then (BitVec.ofNat 64 k, s.turn) else copyLoop k s.turn := rfl

theorem turn_puts (s : Copy) : Puts s [s.mem s.src] s.turn :=
  ⟨(put_puts (s.mem s.src) s.next.2).mem, rfl, (put_puts (s.mem s.src) s.next.2).writes⟩

/-- The bytes at `src`. -/
def loaded (s : Copy) (k : Nat) : List Byte :=
  (List.range k).map fun i => s.mem (s.src + BitVec.ofNat 64 i)

theorem copyLoop_puts : ∀ {len k : Nat} {s : Copy}, StringAt s.mem s.src len →
    ¬ RunsOver s.dst s.src len →
    Puts s (loaded s (min k (len + 1))) (copyLoop k s).2 ∧
    (len < k → (copyLoop k s).1 = BitVec.ofNat 64 (k - len - 1) ∧
      (copyLoop k s).2.reads =
        s.reads ++ (List.range (len + 1)).map fun i => s.src + BitVec.ofNat 64 i)
  | _, 0, s, _, _ => by
    rw [Nat.zero_min]
    exact ⟨Puts.refl s, fun hk => absurd hk (Nat.not_lt_zero _)⟩
  | 0, k + 1, s, h, _ => by
    have hnul : s.mem s.src = 0 := by simpa using h.nul
    rw [copyLoop_succ, if_pos hnul, show min (k + 1) (0 + 1) = 1 by omega]
    refine ⟨?_, fun _ => ⟨rfl, ?_⟩⟩
    · have hp := turn_puts s
      rwa [show [s.mem s.src] = loaded s 1 by simp [loaded]] at hp
    · simp [Copy.turn, Copy.put, Copy.next]
  | len + 1, k + 1, s, h, hover => by
    have hc : s.mem s.src ≠ 0 := by simpa using h.chars 0 (by omega)
    -- the byte written is not one that is still to be read
    have hkeep (i : Nat) (hi : i ≤ len) : s.turn.mem (s.src + 1 + BitVec.ofNat 64 i) =
        s.mem (s.src + 1 + BitVec.ofNat 64 i) := by
      refine update_of_ne (fun he => hover ?_) ..
      have hd : (s.dst - s.src).toNat = i + 1 := by
        rw [show s.dst = s.src + 1 + BitVec.ofNat 64 i from he.symm, add_ofNat_succ,
          add_ofNat_sub (by have := h.lt; omega)]
      unfold RunsOver
      omega
    have htail : StringAt s.turn.mem s.turn.src len :=
      ⟨fun i hi => by
        rw [show s.turn.src = s.src + 1 from rfl, hkeep i (by omega)]
        exact h.tail.chars i hi, by
        rw [show s.turn.src = s.src + 1 from rfl, hkeep len le_rfl]
        exact h.tail.nul⟩
    have hdist : s.turn.dst - s.turn.src = s.dst - s.src := by
      show s.dst + 1 - (s.src + 1) = s.dst - s.src
      bv_omega
    have hover' : ¬ RunsOver s.turn.dst s.turn.src len := by
      unfold RunsOver at hover ⊢
      rw [hdist]
      omega
    obtain ⟨hputs, hstop⟩ := copyLoop_puts htail hover' (k := k)
    have hload : loaded s (min (k + 1) (len + 1 + 1)) =
        [s.mem s.src] ++ loaded s.turn (min k (len + 1)) := by
      unfold loaded
      rw [Nat.succ_min_succ]
      rw [List.range_succ_eq_map, List.map_cons, List.map_map, List.singleton_append]
      congr 1
      · simp
      · refine List.map_congr_left fun i hi => ?_
        have hi := List.mem_range.mp hi
        show s.mem (s.src + BitVec.ofNat 64 (i + 1)) = _
        rw [← add_ofNat_succ]
        exact (hkeep i (by omega)).symm
    rw [copyLoop_succ, if_neg hc]
    refine ⟨?_, fun hk => ?_⟩
    · rw [hload]
      refine (turn_puts s).trans hputs ?_
      have := h.lt
      simp [loaded]
      omega
    obtain ⟨hn, hreads⟩ := hstop (by omega)
    refine ⟨?_, ?_⟩
    · rw [hn]
      congr 1
      omega
    · rw [hreads, List.range_succ_eq_map (n := len + 1), List.map_cons, List.map_map,
        show s.turn.reads = s.reads ++ [s.src] from rfl, show s.turn.src = s.src + 1 from rfl]
      simp only [add_ofNat_succ, List.append_assoc, List.singleton_append, Function.comp_def,
        Nat.succ_eq_add_one]
      rw [show s.src + BitVec.ofNat 64 0 = s.src from BitVec.add_zero _]

/-- The loop finds no NUL: an invariant under which the next byte is none leaves the counter at
`SIZE_MAX`. -/
theorem copyLoop_exhausts {I : Nat → Copy → Prop}
    (hread : ∀ k s, I (k + 1) s → s.mem s.src ≠ 0) (hturn : ∀ k s, I (k + 1) s → I k s.turn) :
    ∀ {k : Nat} {s : Copy}, I k s →
      (copyLoop k s).1 = 0 - 1 ∧ (copyLoop k s).2.writes.length = s.writes.length + k
  | 0, _, _ => ⟨rfl, rfl⟩
  | k + 1, s, h => by
    obtain ⟨hn, hlen⟩ := copyLoop_exhausts hread hturn (hturn k s h)
    rw [copyLoop_succ, if_neg (hread k s h)]
    refine ⟨hn, hlen.trans ?_⟩
    simp [Copy.turn, Copy.put, Copy.next]
    omega

theorem turn_ne_zero {x : U64} (hc : s.mem s.src ≠ 0) (hx : s.mem x ≠ 0 ∨ x = s.dst) :
    s.turn.mem x ≠ 0 := by
  show update s.mem s.dst (s.mem s.src) x ≠ 0
  by_cases he : x = s.dst
  · rw [he, update_self]
    exact hc
  · rw [update_of_ne he]
    exact hx.resolve_right he

theorem copyLoop_long (h : ∀ i, i < k → s.mem (s.src + BitVec.ofNat 64 i) ≠ 0) :
    (copyLoop k s).1 = 0 - 1 ∧ (copyLoop k s).2.writes.length = s.writes.length + k := by
  refine copyLoop_exhausts (I := fun k s => ∀ i, i < k → s.mem (s.src + BitVec.ofNat 64 i) ≠ 0)
    (fun k s hi => ?_) (fun k s hi i hk => ?_) h
  · simpa using hi 0 (by omega)
  · rw [show s.turn.src = s.src + 1 from rfl, add_ofNat_succ]
    exact turn_ne_zero (by simpa using hi 0 (by omega)) (.inl (hi (i + 1) (by omega)))

theorem copyLoop_over {d : Nat} (hd : 1 ≤ d) (hdst : s.dst = s.src + BitVec.ofNat 64 d)
    (h : ∀ i, i < d → s.mem (s.src + BitVec.ofNat 64 i) ≠ 0) :
    (copyLoop k s).1 = 0 - 1 ∧ (copyLoop k s).2.writes.length = s.writes.length + k := by
  refine copyLoop_exhausts (I := fun _ s => s.dst = s.src + BitVec.ofNat 64 d ∧
    ∀ i, i < d → s.mem (s.src + BitVec.ofNat 64 i) ≠ 0)
    (fun k s hi => ?_) (fun k s hi => ⟨?_, fun i hlt => ?_⟩) ⟨hdst, h⟩
  · simpa using hi.2 0 hd
  · show s.dst + 1 = s.src + 1 + BitVec.ofNat 64 d
    rw [hi.1]
    bv_omega
  · rw [show s.turn.src = s.src + 1 from rfl, add_ofNat_succ]
    refine turn_ne_zero (by simpa using hi.2 0 hd) ?_
    by_cases hlast : i + 1 = d
    · exact .inr (by rw [hlast, hi.1])
    · exact .inl (hi.2 (i + 1) (by omega))

/-! ## The whole copy -/

theorem kstrncpy_length (h : (copyLoop n.toNat ⟨m, dst, src, [], []⟩).1 = 0 - 1 ∧
    (copyLoop n.toNat ⟨m, dst, src, [], []⟩).2.writes.length = 0 + n.toNat) :
    (kstrncpy m dst src n).2.writes.length = n.toNat + (2 ^ 64 - 1) := by
  unfold kstrncpy
  dsimp only
  rw [padLoop_length, h.1, h.2, Nat.zero_add]
  rfl

theorem CopyLaw.length {out : U64 × Copy} (h : CopyLaw m dst src n len out) :
    out.2.writes.length = n.toNat := by
  simpa using congrArg List.length h.writes

theorem kstrncpy_fits (h : StringAt m src len) (hlen : len < n.toNat)
    (hover : ¬ RunsOver dst src len) : CopyLaw m dst src n len (kstrncpy m dst src n) := by
  obtain ⟨hputs, hstop⟩ := copyLoop_puts (s := ⟨m, dst, src, [], []⟩) h hover
  obtain ⟨hn, hreads⟩ := hstop hlen
  rw [Nat.min_eq_right hlen] at hputs
  have hlt := n.isLt
  have hrest : (BitVec.ofNat 64 (n.toNat - len - 1)).toNat = n.toNat - len - 1 := by
    rw [BitVec.toNat_ofNat, Nat.mod_eq_of_lt (by omega)]
  set bs := loaded ⟨m, dst, src, [], []⟩ (len + 1) ++ List.replicate (n.toNat - len - 1) 0 with hbs
  have hbslen : bs.length = n.toNat := by
    simp [hbs, loaded]
    omega
  have hall : Puts ⟨m, dst, src, [], []⟩ bs (kstrncpy m dst src n).2 := by
    unfold kstrncpy
    dsimp only
    rw [hn, hrest]
    refine hputs.trans (padLoop_puts (by omega)) ?_
    rw [← List.length_append, hbslen]
    omega
  refine ⟨rfl, ?_, fun i hi => ?_, fun a ha => ?_, fun a ha => ?_⟩
  · rw [hall.writes, hbslen]
    rfl
  · rw [hall.mem, write, add_ofNat_sub (by omega)]
    by_cases hcopied : i < len + 1
    · have hget : bs[i]? = some (m (src + BitVec.ofNat 64 i)) := by
        rw [hbs, List.getElem?_append_left (by simpa [loaded] using hcopied), loaded,
          List.getElem?_map, List.getElem?_range hcopied]
        rfl
      rw [hget, Option.getD_some]
      by_cases hchar : i < len
      · rw [if_pos hchar]
      · rw [if_neg hchar, show i = len by omega]
        exact h.nul
    · have hget : bs[i]? = some 0 := by
        rw [hbs, List.getElem?_append_right (by simp [loaded]; omega), List.getElem?_replicate,
          if_pos (by simp [loaded]; omega)]
      rw [hget, if_neg (by omega)]
      rfl
  · rw [hall.mem, write, List.getElem?_eq_none (by rw [hbslen]; exact ha)]
    rfl
  · unfold kstrncpy at ha
    dsimp only at ha
    rw [padLoop_reads, hreads, List.nil_append, List.mem_map] at ha
    obtain ⟨i, hi, rfl⟩ := ha
    exact ⟨i, by have := List.mem_range.mp hi; omega, rfl⟩

/-- A source that does not fit, or that the copy runs over, is never left by the first loop through
its NUL. -/
theorem kstrncpy_runs_on (h : StringAt m src len) (hbad : n.toNat ≤ len ∨ RunsOver dst src len) :
    (kstrncpy m dst src n).2.writes.length = n.toNat + (2 ^ 64 - 1) := by
  refine kstrncpy_length ?_
  rcases hbad with hle | ⟨hpos, hle⟩
  · exact copyLoop_long fun i hi => h.chars i (by omega)
  · refine copyLoop_over hpos ?_ fun i hi => h.chars i (by omega)
    show dst = src + BitVec.ofNat 64 (dst - src).toNat
    rw [BitVec.ofNat_toNat, BitVec.setWidth_eq]
    bv_omega

/-- **When the law holds**: the NUL is among the first `n` bytes, and the copy does not run over it.
Otherwise `n + SIZE_MAX` bytes are written. -/
theorem kstrncpy_law_iff (h : StringAt m src len) (dst n : U64) :
    (CopyLaw m dst src n len (kstrncpy m dst src n) ↔
      len < n.toNat ∧ ¬ RunsOver dst src len) ∧
    (CopyLaw m dst src n len (strncpy m dst src n) ↔
      len < n.toNat ∧ ¬ RunsOver dst src len) := by
  have hiff : CopyLaw m dst src n len (kstrncpy m dst src n) ↔
      len < n.toNat ∧ ¬ RunsOver dst src len := by
    constructor
    · intro hlaw
      by_contra hbad
      rw [not_and_or, Nat.not_lt, not_not] at hbad
      have hlen := kstrncpy_runs_on h hbad
      rw [hlaw.length] at hlen
      omega
    · rintro ⟨hlen, hover⟩
      exact kstrncpy_fits h hlen hover
  exact ⟨hiff, hiff⟩

theorem stringAt_of_hasBytes {t : Str} (h : HasBytes m a (bytes t ++ [0])) :
    StringAt m a t.length := by
  have hlen : (bytes t).length = t.length := List.length_map ..
  refine ⟨fun i hi => ?_, ?_⟩
  · have hb := h i (by rw [List.length_append, hlen]; omega)
    rw [List.getElem?_append_left (by omega), bytes, List.getElem?_map,
      List.getElem?_eq_getElem hi, Option.map_some, Option.some_inj] at hb
    rw [hb]
    exact t[i].2
  · have hb := h t.length (by rw [List.length_append, hlen]; simp)
    rw [List.getElem?_append_right (by omega), hlen, Nat.sub_self] at hb
    exact Option.some_inj.mp hb

/-- The strings of the file system: where `Fs.kstrncpy` has a result, memory holds it, and where it
has none the loops run on. -/
theorem kstrncpy_refines {t : Str} (h : HasBytes m src (bytes t ++ [0]))
    (hover : ¬ RunsOver dst src t.length) :
    match Fs.kstrncpy t n.toNat with
    | some t' => HasBytes (kstrncpy m dst src n).2.mem dst (bytes t' ++ [0])
    | none => (kstrncpy m dst src n).2.writes.length = n.toNat + (2 ^ 64 - 1) := by
  have hstr := stringAt_of_hasBytes h
  have hbytes : (bytes t ++ [0]).length = t.length + 1 := by simp [bytes]
  unfold Fs.kstrncpy
  by_cases hlen : t.length < n.toNat
  · rw [if_pos hlen]
    dsimp only
    have hlaw := kstrncpy_fits hstr hlen hover
    intro i hi
    rw [hbytes] at hi
    rw [hlaw.copied i (by omega), ← h i (by omega)]
    by_cases hchar : i < t.length
    · rw [if_pos hchar]
    · rw [if_neg hchar, show i = t.length by omega, hstr.nul]
  · rw [if_neg hlen]
    exact kstrncpy_runs_on hstr (.inl (by omega))

end

/-- A path of `len` bytes at 0x1000, in memory that is 0 otherwise. -/
def pathMemory (len : Nat) : Memory :=
  fun a => if 0x1000 ≤ a.toNat ∧ a.toNat < 0x1000 + len then 97 else 0

theorem pathMemory_string {len : Nat} (h : len < 2 ^ 32) :
    StringAt (pathMemory len) 0x1000 len := by
  have hbase : (0x1000 : U64).toNat = 0x1000 := rfl
  have hat (i : Nat) (hi : i ≤ len) : (0x1000 + BitVec.ofNat 64 i : U64).toNat = 0x1000 + i := by
    rw [add_ofNat_toNat (by omega), hbase]
  refine ⟨fun i hi => ?_, ?_⟩
  · rw [pathMemory, hat i (by omega), if_pos (by omega)]
    decide
  · rw [pathMemory, hat len le_rfl, if_neg (by omega)]

theorem kstrncpy_law_short :
    CopyLaw (pathMemory 3) 0x2000 0x1000 255 3 (kstrncpy (pathMemory 3) 0x2000 0x1000 255) ∧
      CopyLaw (pathMemory 3) 0x2000 0x1000 255 3 (strncpy (pathMemory 3) 0x2000 0x1000 255) := by
  have hstr : StringAt (pathMemory 3) 0x1000 3 := pathMemory_string (by decide)
  obtain ⟨hk, hs⟩ := kstrncpy_law_iff hstr 0x2000 255
  have hok : 3 < (255 : U64).toNat ∧ ¬ RunsOver 0x2000 0x1000 3 := by
    refine ⟨by decide, ?_⟩
    unfold RunsOver
    decide
  exact ⟨hk.mpr hok, hs.mpr hok⟩

/-- The path of 255 bytes that `split_path` copies with `n = 255`: the loops write all of memory. -/
theorem kstrncpy_path_runs_on :
    StringAt (pathMemory 255) 0x1000 255 ∧
      (kstrncpy (pathMemory 255) 0x2000 0x1000 255).2.writes.length = 255 + (2 ^ 64 - 1) ∧
      ¬ CopyLaw (pathMemory 255) 0x2000 0x1000 255 255
        (kstrncpy (pathMemory 255) 0x2000 0x1000 255) := by
  have hstr : StringAt (pathMemory 255) 0x1000 255 := pathMemory_string (by decide)
  have hlen : (kstrncpy (pathMemory 255) 0x2000 0x1000 255).2.writes.length =
      255 + (2 ^ 64 - 1) := kstrncpy_runs_on hstr (.inl (by decide))
  refine ⟨hstr, hlen, fun hlaw => ?_⟩
  have h := hlaw.length
  rw [hlen] at h
  exact absurd h (by decide)

end Sinux.Core.StringCopy

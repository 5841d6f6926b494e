import Sinux.Lib.Ring
import Sinux.Lib.Word64
import Mathlib.Logic.Relation

/-!
# Pipes (`kernel/ipc/pipe.c`)

A pipe is a ring of `PIPE_BUF_SIZE` bytes. `pipe_read` waits until there is a byte, then copies
what is there up to `n`; `pipe_write` stores its bytes one by one and waits whenever the ring is
full. Any number of calls may be under way at once: a call is a program point with its local
variables (`Call`), and `callRound` is one round of the loop it is in, so calls interleave byte by
byte. The pointer `private` of a pipe's inodes is set by `pipe_create` and never `NULL`.

* `pipe_fifo`: in every run the bytes taken followed by the bytes in the ring are the bytes stored,
  a write that returns has stored all its bytes or none, and end of file means what it should.
* `pipe_not_lossless`: two ways in which a call returns earlier than one would expect.

**Out of scope**: accesses of two calls within one round.
-/

namespace Sinux.Ipc

open Function Sinux.Lib

/-! ## The pipe -/

/-- `PIPE_BUF_SIZE`. -/
def pipeBufSize : Nat := 4096

/-- `pipe_t`; `buf` is the array of `PIPE_BUF_SIZE` bytes. -/
structure Pipe where
  buf : Nat → BitVec 8
  head : Nat
  tail : Nat
  count : Nat
  readClosed : Bool
  writeClosed : Bool
  refcount : BitVec 32

/-- `pipe_alloc`, when there is memory. -/
def pipeAlloc : Pipe := ⟨fun _ => 0, 0, 0, 0, false, false, 2⟩

namespace Pipe

/-- The body of the loop of `pipe_write`, for the byte `b`. -/
def put (p : Pipe) (b : BitVec 8) : Pipe :=
  { p with
    buf := update p.buf p.head b
    head := (p.head + 1) % pipeBufSize
    count := p.count + 1 }

/-- The body of the copy loop of `pipe_read`; the byte copied is `p.buf p.tail`. -/
def drop (p : Pipe) : Pipe :=
  { p with tail := (p.tail + 1) % pipeBufSize, count := p.count - 1 }

/-- The bytes in the ring, oldest first. -/
def bytes (p : Pipe) : List (BitVec 8) := Ring.contents pipeBufSize p.buf p.tail p.count

end Pipe

/-- `pipe_close` on a file opened with `flags`; `none` when the pipe is freed. -/
def pipeClose (flags : BitVec 32) (p : Pipe) : Option Pipe :=
  let p := if flags &&& 1 ≠ 0 then { p with writeClosed := true } else { p with readClosed := true }
  let p := { p with refcount := p.refcount - 1 }
  if p.refcount.sle 0 then none else some p

/-! ## Calls -/

/-- A call under way or returned, with its local variables. `dst` is what it has copied so far. -/
inductive Call where
  /-- In the wait loop of `pipe_read`. -/
  | readWait (n : U64)
  /-- In the copy loop of `pipe_read`. -/
  | readCopy (n : U64) (dst : List (BitVec 8))
  | readDone (n : U64) (dst : List (BitVec 8)) (ret : U64)
  /-- At the start of `pipe_write` of the bytes `src`. -/
  | writeStart (src : List (BitVec 8))
  /-- In the loop of `pipe_write`. -/
  | writeLoop (src : List (BitVec 8)) (written : Nat)
  | writeDone (src : List (BitVec 8)) (written : Nat) (ret : U64)
  deriving DecidableEq

/-- What one round of a call does: the pipe and the call after it, and the bytes it stored in the
pipe and took out of it. -/
structure Round where
  pipe : Pipe
  call : Call
  put : List (BitVec 8)
  got : List (BitVec 8)

/-- One round of the loop a call is in. A waiting round, the `pause`, changes nothing. -/
def callRound (p : Pipe) : Call → Round
  | .readWait n =>
    if p.count = 0 then
      if p.writeClosed then ⟨p, .readDone n [] 0, [], []⟩ else ⟨p, .readWait n, [], []⟩
    else ⟨p, .readCopy n [], [], []⟩
  | .readCopy n dst =>
    if dst.length < n.toNat ∧ 0 < p.count then
      ⟨p.drop, .readCopy n (dst ++ [p.buf p.tail]), [], [p.buf p.tail]⟩
    else ⟨p, .readDone n dst (BitVec.ofNat 64 dst.length), [], []⟩
  | .writeStart src =>
    -- SIGPIPE is sent to the writer
    if p.readClosed then ⟨p, .writeDone src 0 (-22), [], []⟩ else ⟨p, .writeLoop src 0, [], []⟩
  | .writeLoop src written =>
    match src[written]? with
    | none => ⟨p, .writeDone src written (BitVec.ofNat 64 written), [], []⟩
    | some b =>
      if pipeBufSize ≤ p.count then ⟨p, .writeLoop src written, [], []⟩
      else ⟨p.put b, .writeLoop src (written + 1), [b], []⟩
  | c => ⟨p, c, [], []⟩

/-- A call that starts. -/
inductive Call.Starts : Call → Prop
  | read (n : U64) : Starts (.readWait n)
  | write (src : List (BitVec 8)) : Starts (.writeStart src)

/-- What a read has copied. -/
def Call.dst : Call → List (BitVec 8)
  | .readCopy _ dst => dst
  | .readDone _ dst _ => dst
  | _ => []

/-- What a write has stored. -/
def Call.sent : Call → List (BitVec 8)
  | .writeLoop src written => src.take written
  | .writeDone src written _ => src.take written
  | _ => []

/-! ## Runs -/

variable {ι : Type} [DecidableEq ι]

/-- A run's state: the pipe, the calls by name, and the history: the bytes stored and taken, each
with the call that did it, for each read how many bytes had been taken when it left its wait loop,
and for each write whether the read end was closed when it started. -/
structure PipeSys (ι : Type) where
  pipe : Pipe
  calls : ι → Option Call
  stored : List (ι × BitVec 8)
  taken : List (ι × BitVec 8)
  seen : ι → Nat
  shut : ι → Bool

/-- Whether the read end was closed when the call `c` started, `shut` if it has started before. -/
def Call.shutAt (p : Pipe) (shut : Bool) : Call → Bool
  | .writeStart _ => p.readClosed
  | _ => shut

/-- The state after call `i`, at `c`, has made one round. -/
def PipeSys.round (s : PipeSys ι) (i : ι) (c : Call) : PipeSys ι :=
  let r := callRound s.pipe c
  { pipe := r.pipe
    calls := update s.calls i (some r.call)
    stored := s.stored ++ r.put.map fun b => (i, b)
    taken := s.taken ++ r.got.map fun b => (i, b)
    seen := match c with
      | .readWait _ => update s.seen i s.taken.length
      | _ => s.seen
    shut := update s.shut i (c.shutAt s.pipe (s.shut i)) }

/-- The steps of a run: a call starts, a call makes a round, an end is closed. -/
inductive PipeStep : PipeSys ι → PipeSys ι → Prop
  | call (s : PipeSys ι) (i : ι) (c : Call) (hi : s.calls i = none) (hc : c.Starts) :
      PipeStep s { s with calls := update s.calls i (some c) }
  | round (s : PipeSys ι) (i : ι) (c : Call) (hi : s.calls i = some c) : PipeStep s (s.round i c)
  | close (s : PipeSys ι) (flags : BitVec 32) (p : Pipe) (hp : pipeClose flags s.pipe = some p) :
      PipeStep s { s with pipe := p }

/-- A new pipe. -/
def PipeSys.new : PipeSys ι := ⟨pipeAlloc, fun _ => none, [], [], fun _ => 0, fun _ => false⟩

/-- The states of the runs on a new pipe. -/
def PipeReach : PipeSys ι → Prop := Relation.ReflTransGen PipeStep PipeSys.new

namespace PipeSys

/-- The bytes call `i` has stored. -/
def storedBy (s : PipeSys ι) (i : ι) : List (BitVec 8) :=
  (s.stored.filter fun e => e.1 = i).map Prod.snd

/-- The bytes call `i` has taken. -/
def takenBy (s : PipeSys ι) (i : ι) : List (BitVec 8) :=
  (s.taken.filter fun e => e.1 = i).map Prod.snd

/-- Every byte ever stored has been taken. -/
def AllRead (s : PipeSys ι) : Prop := s.taken.map Prod.snd = s.stored.map Prod.snd

/-- The next round of call `i` returns 0 from a `pipe_read` of `n` bytes. -/
def ReturnsZero (s : PipeSys ι) (i : ι) (n : U64) : Prop :=
  ∃ c, s.calls i = some c ∧ (∀ dst ret, c ≠ .readDone n dst ret) ∧
    ∃ dst, (callRound s.pipe c).call = .readDone n dst 0

/-- Another call took a byte after read `i` left its wait loop. -/
def Overtaken (s : PipeSys ι) (i : ι) : Prop := ∃ e ∈ s.taken.drop (s.seen i), e.1 ≠ i

end PipeSys

/-! ## The queue -/

/-- The pipe is a queue: the ring is within bounds, and what was taken followed by what it holds is
what was stored. -/
structure IsQueue (s : PipeSys ι) : Prop where
  count_le : s.pipe.count ≤ pipeBufSize
  tail_lt : s.pipe.tail < pipeBufSize
  head_eq : s.pipe.head = (s.pipe.tail + s.pipe.count) % pipeBufSize
  fifo : s.taken.map Prod.snd ++ s.pipe.bytes = s.stored.map Prod.snd

/-- What holds of a call at each program point. `shut` is whether a write that is past its first
test found the read end closed. -/
def Call.Ok (shut : Bool) : Call → Prop
  | .readWait _ => True
  | .readCopy n dst => dst.length ≤ n.toNat
  | .readDone n dst ret => dst.length ≤ n.toNat ∧ ret = BitVec.ofNat 64 dst.length
  | .writeStart _ => True
  | .writeLoop src written => written ≤ src.length ∧ shut = false
  | .writeDone src written ret =>
    (written = src.length ∧ ret = BitVec.ofNat 64 written ∧ shut = false) ∨
      (written = 0 ∧ ret = -22 ∧ shut = true)

/-- What a run keeps. -/
structure PipeInv (s : PipeSys ι) : Prop where
  queue : IsQueue s
  ok : ∀ i c, s.calls i = some c → c.Ok (s.shut i)
  sent : ∀ i, s.storedBy i = ((s.calls i).map Call.sent).getD []
  dst : ∀ i, s.takenBy i = ((s.calls i).map Call.dst).getD []
  /-- A read that left its wait loop had seen a byte. -/
  seen : ∀ i n dst, s.calls i = some (.readCopy n dst) → s.seen i < s.stored.length

/-- What a round does to the pipe: nothing, one byte stored, or the oldest byte taken. -/
inductive Moves (p : Pipe) (r : Round) : Prop
  | stay (hp : r.pipe = p) (hput : r.put = []) (hgot : r.got = [])
  | store (b : BitVec 8) (hc : p.count < pipeBufSize) (hp : r.pipe = p.put b) (hput : r.put = [b])
      (hgot : r.got = [])
  | take (hc : 0 < p.count) (hp : r.pipe = p.drop) (hput : r.put = [])
      (hgot : r.got = [p.buf p.tail])

/-- All that a round `r` of the call `c` does. -/
structure RoundSpec (p : Pipe) (shut : Bool) (c : Call) (r : Round) : Prop where
  moves : Moves p r
  ok : r.call.Ok (c.shutAt p shut)
  sent : r.call.sent = c.sent ++ r.put
  dst : r.call.dst = c.dst ++ r.got

theorem RoundSpec.stay {p : Pipe} {shut : Bool} {c c' : Call} (hok : c'.Ok (c.shutAt p shut))
    (hs : c'.sent = c.sent) (hd : c'.dst = c.dst) : RoundSpec p shut c ⟨p, c', [], []⟩ :=
  ⟨.stay rfl rfl rfl, hok, by rw [List.append_nil]; exact hs, by rw [List.append_nil]; exact hd⟩

theorem callRound_spec {p : Pipe} {shut : Bool} {c : Call} (h : c.Ok shut) :
    RoundSpec p shut c (callRound p c) := by
  cases c with
  | readWait n =>
    simp only [callRound]
    split
    · split
      · exact .stay ⟨Nat.zero_le _, rfl⟩ rfl rfl
      · exact .stay trivial rfl rfl
    · exact .stay (Nat.zero_le _) rfl rfl
  | readCopy n dst =>
    simp only [callRound]
    split
    · next hc =>
      refine ⟨.take hc.2 rfl rfl rfl, ?_, rfl, rfl⟩
      show (dst ++ [p.buf p.tail]).length ≤ n.toNat
      rw [List.length_append, List.length_singleton]
      exact hc.1
    · exact .stay ⟨h, rfl⟩ rfl rfl
  | writeStart src =>
    simp only [callRound]
    split
    · next hc => exact .stay (Or.inr ⟨rfl, rfl, hc⟩) rfl rfl
    · next hc => exact .stay ⟨Nat.zero_le _, Bool.eq_false_of_not_eq_true hc⟩ rfl rfl
  | writeLoop src written =>
    simp only [callRound]
    split
    · next hnone =>
      have hlen := Nat.le_antisymm h.1 (List.getElem?_eq_none_iff.mp hnone)
      exact .stay (Or.inl ⟨hlen, rfl, h.2⟩) rfl rfl
    · next b hb =>
      split
      · exact .stay h rfl rfl
      · next hc =>
        refine ⟨.store b (Nat.lt_of_not_le hc) rfl rfl rfl,
          ⟨(List.getElem?_eq_some_iff.mp hb).1, h.2⟩, ?_, rfl⟩
        show src.take (written + 1) = src.take written ++ [b]
        rw [List.take_add_one, hb, Option.toList_some]
  | readDone n dst ret => exact .stay h rfl rfl
  | writeDone src written ret => exact .stay h rfl rfl

theorem IsQueue.round {s : PipeSys ι} (h : IsQueue s) (i : ι) (c : Call)
    (hm : Moves s.pipe (callRound s.pipe c)) : IsQueue (s.round i c) := by
  obtain ⟨hle, htl, hhd, hff⟩ := h
  rcases hm with ⟨hp, hput, hgot⟩ | ⟨b, hc, hp, hput, hgot⟩ | ⟨hc, hp, hput, hgot⟩
  · refine ⟨?_, ?_, ?_, ?_⟩ <;> simp only [PipeSys.round, hp, hput, hgot, List.map_nil,
      List.append_nil]
    exacts [hle, htl, hhd, hff]
  · refine ⟨?_, ?_, ?_, ?_⟩ <;> simp only [PipeSys.round, hp, hput, hgot, List.map_nil,
      List.append_nil]
    · exact hc
    · exact htl
    · show (s.pipe.head + 1) % pipeBufSize = (s.pipe.tail + (s.pipe.count + 1)) % pipeBufSize
      rw [hhd, Nat.mod_add_mod, Nat.add_assoc]
    · rw [List.map_append, ← hff, List.append_assoc]
      congr 1
      show Ring.contents pipeBufSize (update s.pipe.buf s.pipe.head b) s.pipe.tail
        (s.pipe.count + 1) = _
      rw [hhd]
      exact Ring.contents_push hc b
  · obtain ⟨k, hk⟩ : ∃ k, s.pipe.count = k + 1 := ⟨s.pipe.count - 1, by omega⟩
    have hbytes : s.pipe.bytes = s.pipe.buf s.pipe.tail :: s.pipe.drop.bytes := by
      show Ring.contents pipeBufSize s.pipe.buf s.pipe.tail s.pipe.count = _ :: Ring.contents
        pipeBufSize s.pipe.buf ((s.pipe.tail + 1) % pipeBufSize) (s.pipe.count - 1)
      rw [hk, Ring.contents_pop, Nat.mod_eq_of_lt htl, Nat.add_sub_cancel]
    refine ⟨?_, ?_, ?_, ?_⟩ <;> simp only [PipeSys.round, hp, hput, hgot, List.map_nil,
      List.append_nil]
    · exact (Nat.sub_le _ _).trans hle
    · exact Nat.mod_lt _ (by decide)
    · show s.pipe.head = ((s.pipe.tail + 1) % pipeBufSize + (s.pipe.count - 1)) % pipeBufSize
      rw [hhd, hk, Nat.mod_add_mod, Nat.add_sub_cancel]
      congr 1
      omega
    · rw [← hff, hbytes, List.map_append, List.append_assoc]
      rfl

theorem pipeInv_init : PipeInv (PipeSys.new : PipeSys ι) where
  queue := ⟨Nat.zero_le _, Nat.zero_lt_succ _, rfl, rfl⟩
  ok := fun _ _ h => nomatch h
  sent := fun _ => rfl
  dst := fun _ => rfl
  seen := fun _ _ _ h => nomatch h

theorem bytesBy_append (h : List (ι × BitVec 8)) (l : List (BitVec 8)) (i j : ι) :
    ((h ++ l.map fun b => (i, b)).filter fun e => e.1 = j).map Prod.snd =
      (h.filter fun e => e.1 = j).map Prod.snd ++ if i = j then l else [] := by
  rw [List.filter_append, List.map_append]
  congr 1
  by_cases hij : i = j
  · rw [if_pos hij, List.filter_eq_self.mpr (by simp [hij]), List.map_map]
    exact List.map_id l
  · rw [if_neg hij, List.filter_eq_nil_iff.mpr (by simp [hij]), List.map_nil]

omit [DecidableEq ι] in
theorem IsQueue.taken_length {s : PipeSys ι} (h : IsQueue s) :
    s.taken.length + s.pipe.count = s.stored.length := by
  have hlen := congrArg List.length h.fifo
  rwa [List.length_append, List.length_map, List.length_map, Pipe.bytes, Ring.length_contents]
    at hlen

/-- A call in its copy loop after a round was there before, or has left its wait loop because of a
byte in the ring. -/
theorem of_round_readCopy {p : Pipe} {c : Call} {n : U64} {dst : List (BitVec 8)}
    (h : (callRound p c).call = .readCopy n dst) :
    (c = .readWait n ∧ 0 < p.count) ∨ ∃ dst', c = .readCopy n dst' := by
  cases c with
  | readWait m =>
    simp only [callRound] at h
    split at h
    · split at h <;> exact nomatch h
    · next hc =>
      cases h
      exact Or.inl ⟨rfl, Nat.pos_of_ne_zero hc⟩
  | readCopy m d =>
    simp only [callRound] at h
    split at h
    · cases h
      exact Or.inr ⟨d, rfl⟩
    · exact nomatch h
  | writeStart src =>
    simp only [callRound] at h
    split at h <;> exact nomatch h
  | writeLoop src written =>
    simp only [callRound] at h
    split at h
    · exact nomatch h
    · split at h <;> exact nomatch h
  | readDone m d ret => exact nomatch h
  | writeDone src written ret => exact nomatch h

theorem round_seen_of_ne (s : PipeSys ι) {i j : ι} (hj : j ≠ i) (c : Call) :
    (s.round i c).seen j = s.seen j := by
  cases c with
  | readWait n => exact update_of_ne hj _ _
  | _ => rfl

theorem PipeInv.round {s : PipeSys ι} (h : PipeInv s) {i : ι} {c : Call}
    (hi : s.calls i = some c) : PipeInv (s.round i c) := by
  have spec := callRound_spec (p := s.pipe) (h.ok i c hi)
  have hother : ∀ {j}, j ≠ i → (s.round i c).calls j = s.calls j := fun hj =>
    update_of_ne hj _ _
  have hself : (s.round i c).calls i = some (callRound s.pipe c).call := update_self ..
  refine ⟨h.queue.round i c spec.moves, fun j d hj => ?_, fun j => ?_, fun j => ?_,
    fun j n dst hj => ?_⟩
  · show d.Ok (update s.shut i (c.shutAt s.pipe (s.shut i)) j)
    by_cases hji : j = i
    · rw [hji, hself] at hj
      rw [hji, update_self]
      exact Option.some.inj hj ▸ spec.ok
    · rw [update_of_ne hji]
      exact h.ok j d ((hother hji).symm.trans hj)
  · refine (bytesBy_append s.stored _ i j).trans ?_
    rw [show ((s.stored.filter fun e => e.1 = j).map Prod.snd) = s.storedBy j from rfl, h.sent j]
    by_cases hji : j = i
    · rw [hji, hself, if_pos rfl, hi]
      exact spec.sent.symm
    · rw [hother hji, if_neg (Ne.symm hji), List.append_nil]
  · refine (bytesBy_append s.taken _ i j).trans ?_
    rw [show ((s.taken.filter fun e => e.1 = j).map Prod.snd) = s.takenBy j from rfl, h.dst j]
    by_cases hji : j = i
    · rw [hji, hself, if_pos rfl, hi]
      exact spec.dst.symm
    · rw [hother hji, if_neg (Ne.symm hji), List.append_nil]
  · have hstored : s.stored.length ≤ (s.round i c).stored.length := by
      simp only [PipeSys.round, List.length_append]
      exact Nat.le_add_right _ _
    refine Nat.lt_of_lt_of_le ?_ hstored
    by_cases hji : j = i
    · subst hji
      rw [hself, Option.some_inj] at hj
      rcases of_round_readCopy hj with ⟨rfl, hc⟩ | ⟨dst', rfl⟩
      · have hlen := h.queue.taken_length
        show update s.seen j s.taken.length j < _
        rw [update_self]
        omega
      · exact h.seen j n dst' hi
    · rw [round_seen_of_ne s hji]
      exact h.seen j n dst ((hother hji).symm.trans hj)

theorem pipeClose_spec {flags : BitVec 32} {p p' : Pipe} (h : pipeClose flags p = some p') :
    p'.bytes = p.bytes ∧ p'.head = p.head ∧ p'.tail = p.tail ∧ p'.count = p.count := by
  simp only [pipeClose] at h
  split at h <;> split at h
  all_goals cases h
  all_goals exact ⟨rfl, rfl, rfl, rfl⟩

theorem pipeInv_step {s t : PipeSys ι} (h : PipeInv s) (hst : PipeStep s t) : PipeInv t := by
  cases hst with
  | call i c hi hc =>
    have hother : ∀ {j}, j ≠ i → update s.calls i (some c) j = s.calls j := fun hj =>
      update_of_ne hj _ _
    have hself : update s.calls i (some c) i = some c := update_self ..
    obtain ⟨hle, htl, hhd, hff⟩ := h.queue
    refine ⟨⟨hle, htl, hhd, hff⟩, fun j d hj => ?_, fun j => ?_, fun j => ?_, fun j n dst hj => ?_⟩
    · by_cases hji : j = i
      · subst hji
        cases hself.symm.trans hj
        cases hc <;> trivial
      · exact h.ok j d ((hother hji).symm.trans hj)
    · refine (h.sent j).trans ?_
      by_cases hji : j = i
      · subst hji
        dsimp only
        rw [hself, hi]
        cases hc <;> rfl
      · dsimp only
        rw [hother hji]
    · refine (h.dst j).trans ?_
      by_cases hji : j = i
      · subst hji
        dsimp only
        rw [hself, hi]
        cases hc <;> rfl
      · dsimp only
        rw [hother hji]
    · by_cases hji : j = i
      · subst hji
        cases hself.symm.trans hj
        exact nomatch hc
      · exact h.seen j n dst ((hother hji).symm.trans hj)
  | round i c hi => exact h.round hi
  | close flags p hp =>
    obtain ⟨hb, hh, ht, hc⟩ := pipeClose_spec hp
    obtain ⟨hle, htl, hhd, hff⟩ := h.queue
    refine ⟨⟨?_, ?_, ?_, ?_⟩, h.ok, h.sent, h.dst, h.seen⟩
    · exact hc ▸ hle
    · exact ht ▸ htl
    · dsimp only
      rw [hh, ht, hc]
      exact hhd
    · dsimp only
      rw [hb]
      exact hff

theorem pipeInv_of_reach {s : PipeSys ι} (hr : PipeReach s) : PipeInv s := by
  induction hr with
  | refl => exact pipeInv_init
  | tail _ hst ih => exact pipeInv_step ih hst

/-! ## The contract -/

/-- What one would expect of a pipe: a write that returns has stored its bytes, and a read of at
least one byte returns 0 at end of file only. -/
structure Lossless (s : PipeSys ι) : Prop where
  queue : IsQueue s
  write : ∀ i src written ret, s.calls i = some (.writeDone src written ret) →
    ret = BitVec.ofNat 64 src.length ∧ s.storedBy i = src
  eof : ∀ i n, n ≠ 0 → s.ReturnsZero i n → s.pipe.writeClosed = true ∧ s.AllRead

/-- What holds of a pipe: a write stores nothing and says so exactly if it found the read end closed
when it started, and a read that another read has overtaken may come back with nothing. -/
structure PipeContract (s : PipeSys ι) : Prop where
  queue : IsQueue s
  write : ∀ i src written ret, s.calls i = some (.writeDone src written ret) →
    (ret = BitVec.ofNat 64 src.length ∧ s.storedBy i = src ∧ s.shut i = false) ∨
      (ret = -22 ∧ s.storedBy i = [] ∧ s.shut i = true)
  read : ∀ i n dst ret, s.calls i = some (.readDone n dst ret) →
    ret = BitVec.ofNat 64 dst.length ∧ s.takenBy i = dst ∧ dst.length ≤ n.toNat
  eof : ∀ i n, n ≠ 0 → s.ReturnsZero i n →
    (s.pipe.writeClosed = true ∧ s.AllRead) ∨ s.Overtaken i

omit [DecidableEq ι] in
theorem IsQueue.allRead {s : PipeSys ι} (h : IsQueue s) (hc : s.pipe.count = 0) : s.AllRead := by
  have hff := h.fifo
  rwa [Pipe.bytes, hc, Ring.contents_zero, List.append_nil] at hff

theorem PipeInv.overtaken {s : PipeSys ι} (h : PipeInv s) {i : ι} {n : U64}
    (hi : s.calls i = some (.readCopy n [])) (hc : s.pipe.count = 0) : s.Overtaken i := by
  have hlen := h.queue.taken_length
  have hseen := h.seen i n [] hi
  obtain ⟨e, he⟩ := List.exists_mem_of_length_pos
    (show 0 < (s.taken.drop (s.seen i)).length by rw [List.length_drop]; omega)
  refine ⟨e, he, fun hei => ?_⟩
  have hnone : s.takenBy i = [] := by rw [h.dst i, hi]; rfl
  have hmem : e ∈ s.taken.filter fun e => e.1 = i :=
    List.mem_filter.mpr ⟨List.mem_of_mem_drop he, decide_eq_true hei⟩
  rw [List.map_eq_nil_iff.mp hnone] at hmem
  exact absurd hmem List.not_mem_nil

theorem PipeInv.eof {s : PipeSys ι} (h : PipeInv s) {i : ι} {n : U64} (hn : n ≠ 0)
    (hz : s.ReturnsZero i n) : (s.pipe.writeClosed = true ∧ s.AllRead) ∨ s.Overtaken i := by
  obtain ⟨c, hi, hnew, dst, hret⟩ := hz
  cases c with
  | readWait m =>
    simp only [callRound] at hret
    split at hret
    · next hc =>
      split at hret
      · next hw => exact Or.inl ⟨hw, h.queue.allRead hc⟩
      · exact nomatch hret
    · exact nomatch hret
  | readCopy m d =>
    simp only [callRound] at hret
    split at hret
    · exact nomatch hret
    · next hc =>
      obtain ⟨rfl, rfl, h0⟩ := Call.readDone.inj hret
      have hle : d.length ≤ m.toNat := h.ok i _ hi
      have hm : m.toNat ≠ 0 := fun hz => hn (BitVec.eq_of_toNat_eq hz)
      have hd : d = [] := by
        have hmod := congrArg BitVec.toNat h0
        rw [BitVec.toNat_ofNat, Nat.mod_eq_of_lt (hle.trans_lt m.isLt)] at hmod
        exact List.length_eq_zero_iff.mp hmod
      subst hd
      refine Or.inr (h.overtaken hi ?_)
      rw [List.length_nil] at hc
      omega
  | writeStart src =>
    simp only [callRound] at hret
    split at hret <;> exact nomatch hret
  | writeLoop src written =>
    simp only [callRound] at hret
    split at hret
    · exact nomatch hret
    · split at hret <;> exact nomatch hret
  | readDone m d ret =>
    obtain ⟨rfl, -, -⟩ := Call.readDone.inj hret
    exact absurd rfl (hnew d ret)
  | writeDone src written ret => exact nomatch hret

/-- **A pipe is a queue.** In every run of any number of reads, writes and closes on one pipe, byte
by byte in any order, the contract holds. -/
theorem pipe_fifo {s : PipeSys ι} (hr : PipeReach s) : PipeContract s := by
  have h := pipeInv_of_reach hr
  refine ⟨h.queue, fun i src written ret hi => ?_, fun i n dst ret hi => ?_, fun i n hn hz =>
    h.eof hn hz⟩
  · have hsent : s.storedBy i = src.take written := by rw [h.sent i, hi]; rfl
    rcases h.ok i _ hi with ⟨rfl, hret, hc⟩ | ⟨rfl, hret, hc⟩
    · exact Or.inl ⟨hret, by rw [hsent, List.take_length], hc⟩
    · exact Or.inr ⟨hret, hsent, hc⟩
  · obtain ⟨hle, hret⟩ := h.ok i _ hi
    exact ⟨hret, by rw [h.dst i, hi]; rfl, hle⟩

/-- One byte written, a read of up to 4 bytes returns 1. -/
theorem pipe_fifo_oneByte : ∃ s : PipeSys Bool, PipeContract s ∧
    s.calls true = some (.readDone 4 [7] 1) := by
  have h0 : PipeReach (PipeSys.new : PipeSys Bool) := Relation.ReflTransGen.refl
  have h1 := h0.tail (.call _ false (.writeStart [7]) rfl (.write _))
  have h2 := ((h1.tail (.round _ false _ rfl)).tail (.round _ false _ rfl)).tail
    (.call _ true (.readWait 4) rfl (.read _))
  have h3 := ((h2.tail (.round _ true _ rfl)).tail (.round _ true _ rfl)).tail
    (.round _ true _ rfl)
  exact ⟨_, pipe_fifo h3, rfl⟩

/-- **Two early returns.** A write on a pipe whose read end is closed returns `-EINVAL` with nothing
stored. Of two reads that both saw the only byte, the second returns 0 while the write end is
open. -/
theorem pipe_not_lossless :
    (∃ s : PipeSys Nat, PipeReach s ∧ s.calls 0 = some (.writeDone [7] 0 (-22)) ∧ ¬ Lossless s) ∧
    ∃ s : PipeSys Nat, PipeReach s ∧ s.ReturnsZero 1 1 ∧ s.pipe.writeClosed = false ∧
      ¬ Lossless s := by
  have h0 : PipeReach (PipeSys.new : PipeSys Nat) := Relation.ReflTransGen.refl
  constructor
  · have h1 := (h0.tail (.close _ 0 _ rfl)).tail (.call _ 0 (.writeStart [7]) rfl (.write _))
    have h2 := h1.tail (.round _ 0 _ rfl)
    refine ⟨_, h2, rfl, fun hl => ?_⟩
    exact absurd (hl.write 0 [7] 0 (-22) rfl).1 (by decide)
  · have h1 := h0.tail (.call _ 0 (.writeStart [7]) rfl (.write _))
    have h2 := (h1.tail (.round _ 0 _ rfl)).tail (.round _ 0 _ rfl)
    have h3 := (h2.tail (.call _ 1 (.readWait 1) rfl (.read _))).tail (.round _ 1 _ rfl)
    have h4 := (h3.tail (.call _ 2 (.readWait 1) rfl (.read _))).tail (.round _ 2 _ rfl)
    have h5 := h4.tail (.round _ 2 _ rfl)
    refine ⟨_, h5, ⟨.readCopy 1 [], rfl, fun _ _ => nofun, [], rfl⟩, rfl, fun hl => ?_⟩
    have hz := hl.eof 1 1 (by decide) ⟨.readCopy 1 [], rfl, fun _ _ => nofun, [], rfl⟩
    exact absurd hz.1 (by decide)

end Sinux.Ipc

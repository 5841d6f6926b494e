import Sinux.Lib.Ring
import Mathlib.Tactic.Common

/-!
# The keyboard buffer (`drivers/keyboard.c`)

The model:

- `handleKeyboard` is one interrupt: it follows the shift keys, decodes a scancode and puts the
  character into the ring, which is full with one slot unused.
- `kbd_getc` is split at its memory accesses: `Pc` is the place of the next one, with what the call
  has read so far. An interrupt may come before any of them.

Results:

- `handleKeyboard_spec`: an interrupt appends what it accepts and leaves the front of the queue alone.
- `keystrokes_in_order`: in every interleaving the characters accepted are those returned, in order,
  followed by those buffered.

**Out of scope**: several calls of `kbd_getc` at once.
-/

namespace Sinux.Drivers

open Function Sinux.Lib

abbrev Byte := BitVec 8

/-! ## The interrupt -/

/-- `KBUF`. -/
def kbuf : Nat := 512

def scNormal : List Char :=
  "\x00\x1b1234567890-=\x08\tqwertyuiop[]\n\x00asdfghjkl;'`\x00\\zxcvbnm,./\x00*\x00 ".toList

def scShift : List Char :=
  "\x00\x1b!@#$%^&*()_+\x08\tQWERTYUIOP\x7b\x7d\n\x00ASDFGHJKL:\"~\x00|ZXCVBNM<>?\x00*\x00 ".toList

structure Kbd where
  buf : Nat → Byte
  head : Nat
  tail : Nat
  shift : Bool

/-- The entry of a table of 128 characters, whose last ones are 0. -/
def entry (table : List Char) (sc : Byte) : Byte :=
  BitVec.ofNat 8 ((table[sc.toNat]?).elim 0 Char.toNat)

/-- `handle_keyboard` with the scancode at port `0x60`. -/
def handleKeyboard (sc : Byte) (k : Kbd) : Kbd :=
  if sc = 0x2A ∨ sc = 0x36 then { k with shift := true }
  else if sc = 0xAA ∨ sc = 0xB6 then { k with shift := false }
  else if sc &&& 0x80 = 0 ∧ sc < 128 then
    let c := if k.shift then entry scShift sc else entry scNormal sc
    if c ≠ 0 then
      let next := (k.head + 1) % kbuf
      if next ≠ k.tail then { k with buf := update k.buf k.head c, head := next } else k
    else k
  else k

/-! ## `kbd_getc` -/

/-- The next access of `kbd_getc`. The operands of `tail == head` are read in either order. -/
inductive Pc
  /-- The first operand, also of the next call. -/
  | test
  /-- `head`; `tail` was `t`. -/
  | testHead (t : Nat)
  /-- `tail`; `head` was `h`. -/
  | testTail (h : Nat)
  /-- `tail`, the index. -/
  | index
  /-- `buf[i]`. -/
  | load (i : Nat)
  /-- `tail`, to be moved; the character is `c`. -/
  | next (c : Byte)
  /-- The store to `tail`, which was `t`. -/
  | store (c : Byte) (t : Nat)

/-- The buffer and the call, with the characters accepted and returned so far. -/
structure Sys where
  kbd : Kbd
  pc : Pc
  accepted : List Byte
  returned : List Byte

/-- One access of `kbd_getc`; after the last one it returns. -/
def Sys.access (headFirst : Bool) (s : Sys) : Sys :=
  match s.pc with
  | .test => { s with pc := if headFirst then .testTail s.kbd.head else .testHead s.kbd.tail }
  | .testHead t => { s with pc := if t = s.kbd.head then .test else .index }
  | .testTail h => { s with pc := if s.kbd.tail = h then .test else .index }
  | .index => { s with pc := .load s.kbd.tail }
  | .load i => { s with pc := .next (s.kbd.buf i) }
  | .next c => { s with pc := .store c s.kbd.tail }
  | .store c t =>
    { s with
      kbd := { s.kbd with tail := (t + 1) % kbuf }
      pc := .test
      returned := s.returned ++ [c] }

/-! ## Interleavings -/

/-- The number of characters in the buffer. -/
def Kbd.count (k : Kbd) : Nat := (k.head + kbuf - k.tail) % kbuf

/-- The characters in the buffer, the oldest first. -/
def Kbd.buffered (k : Kbd) : List Byte := Ring.contents kbuf k.buf k.tail k.count

/-- The character of a scancode. The shift keys, releases and some keys have none. -/
def Kbd.decoded (k : Kbd) (sc : Byte) : Option Byte :=
  if sc = 0x2A ∨ sc = 0x36 ∨ 128 ≤ sc then none
  else
    let c := entry (if k.shift then scShift else scNormal) sc
    if c = 0 then none else some c

/-- What is to be accepted: the character decoded, while fewer than 511 are buffered. -/
def Kbd.accepts (k : Kbd) (sc : Byte) : List Byte :=
  if k.buffered.length < 511 then (k.decoded sc).toList else []

inductive Event
  | interrupt (sc : Byte)
  | access (headFirst : Bool)

def Sys.step (s : Sys) : Event → Sys
  | .interrupt sc =>
    { s with kbd := handleKeyboard sc s.kbd, accepted := s.accepted ++ s.kbd.accepts sc }
  | .access headFirst => s.access headFirst

/-- The start of the kernel. -/
def boot : Sys := ⟨⟨fun _ => 0, 0, 0, false⟩, .test, [], []⟩

section

variable {k : Kbd} {sc : Byte}

/-- The indices are in the buffer. -/
structure Kbd.Bounded (k : Kbd) : Prop where
  head : k.head < 512
  tail : k.tail < 512

theorem length_buffered (k : Kbd) : k.buffered.length = k.count := Ring.length_contents

theorem Kbd.Bounded.head_eq (h : k.Bounded) : k.head = (k.tail + k.count) % kbuf := by
  have := h.head
  have := h.tail
  unfold count kbuf
  omega

theorem Kbd.Bounded.count_pos (h : k.Bounded) : k.head ≠ k.tail ↔ 0 < k.count := by
  have := h.head
  have := h.tail
  unfold count kbuf
  omega

theorem Kbd.Bounded.not_full (h : k.Bounded) : (k.head + 1) % kbuf ≠ k.tail ↔ k.count < 511 := by
  have := h.head
  have := h.tail
  unfold count kbuf
  omega

theorem Kbd.decoded_eq (hsc : ¬ (sc = 0x2A ∨ sc = 0x36)) (hlt : sc < 128) :
    k.decoded sc = if (if k.shift then entry scShift sc else entry scNormal sc) = 0 then none
      else some (if k.shift then entry scShift sc else entry scNormal sc) := by
  have hnot : ¬ (sc = 0x2A ∨ sc = 0x36 ∨ 128 ≤ sc) := by
    rw [← or_assoc]
    exact not_or.mpr ⟨hsc, BitVec.not_le.mpr hlt⟩
  unfold decoded
  rw [if_neg hnot]
  cases k.shift <;> rfl

theorem Kbd.decoded_of_release (h : 128 ≤ sc) : k.decoded sc = none := if_pos (.inr (.inr h))

/-- What an interrupt does to the queue. -/
structure Kbd.Appends (k k' : Kbd) (l : List Byte) : Prop where
  bounded : k'.Bounded
  tail : k'.tail = k.tail
  buffered : k'.buffered = k.buffered ++ l
  /-- The front stays where it is. -/
  front : k.head ≠ k.tail → k'.head ≠ k'.tail ∧ k'.buf k.tail = k.buf k.tail

theorem Kbd.Bounded.keeps (h : k.Bounded) (shift : Bool) : k.Appends { k with shift } [] :=
  ⟨⟨h.head, h.tail⟩, rfl, (List.append_nil _).symm, fun hne => ⟨hne, rfl⟩⟩

theorem Kbd.Bounded.push (h : k.Bounded) (hfull : (k.head + 1) % kbuf ≠ k.tail) (c : Byte) :
    k.Appends { k with buf := update k.buf k.head c, head := (k.head + 1) % kbuf } [c] := by
  have hcount := h.not_full.mp hfull
  refine ⟨⟨Nat.mod_lt _ (by decide), h.tail⟩, rfl, ?_, fun hne => ⟨hfull, update_of_ne hne.symm ..⟩⟩
  have hsucc : Kbd.count ⟨update k.buf k.head c, (k.head + 1) % kbuf, k.tail, k.shift⟩ =
      k.count + 1 := by
    have := h.head
    have := h.tail
    unfold count kbuf at *
    dsimp only
    omega
  unfold buffered
  rw [hsucc, h.head_eq]
  exact Ring.contents_push (show k.count < 512 by omega) c

/-- **One interrupt** appends what is to be accepted, and does not touch the front of the queue. -/
theorem handleKeyboard_spec (h : k.Bounded) (sc : Byte) :
    k.Appends (handleKeyboard sc k) (k.accepts sc) := by
  have hnone (hd : k.decoded sc = none) : k.accepts sc = [] := by
    unfold Kbd.accepts
    rw [hd]
    exact ite_self _
  unfold handleKeyboard
  by_cases hshift : sc = 0x2A ∨ sc = 0x36
  · rw [if_pos hshift, hnone (if_pos (or_assoc.mp (.inl hshift)))]
    exact h.keeps true
  rw [if_neg hshift]
  by_cases hrel : sc = 0xAA ∨ sc = 0xB6
  · have hge : 128 ≤ sc := by
      rcases hrel with rfl | rfl <;> decide
    rw [if_pos hrel, hnone (Kbd.decoded_of_release hge)]
    exact h.keeps false
  rw [if_neg hrel]
  by_cases hlt : sc < 128
  · have hbit : ∀ sc : Byte, sc < 128 → sc &&& 0x80 = 0 := by decide
    have hdec := Kbd.decoded_eq (k := k) hshift hlt
    rw [if_pos ⟨hbit sc hlt, hlt⟩]
    dsimp only
    generalize (if k.shift then entry scShift sc else entry scNormal sc) = c at hdec ⊢
    by_cases hc : c = 0
    · rw [if_neg (not_not.mpr hc), hnone (hdec.trans (if_pos hc))]
      exact h.keeps k.shift
    rw [if_neg hc] at hdec
    rw [if_pos hc]
    unfold Kbd.accepts
    rw [length_buffered, hdec]
    by_cases hfull : (k.head + 1) % kbuf ≠ k.tail
    · rw [if_pos hfull, if_pos (h.not_full.mp hfull)]
      exact h.push hfull c
    · rw [if_neg hfull, if_neg (mt h.not_full.mpr hfull)]
      exact h.keeps k.shift
  · rw [if_neg (fun hand => hlt hand.2), hnone (Kbd.decoded_of_release (BitVec.not_lt.mp hlt))]
    exact h.keeps k.shift

end

/-! ## The invariant -/

/-- What a call knows at its next access. -/
def Knows (k : Kbd) : Pc → Prop
  | .test => True
  | .testHead t => t = k.tail
  | .testTail h => h = k.tail ∨ k.head ≠ k.tail
  | .index => k.head ≠ k.tail
  | .load i => i = k.tail ∧ k.head ≠ k.tail
  | .next c => c = k.buf k.tail ∧ k.head ≠ k.tail
  | .store c t => c = k.buf k.tail ∧ t = k.tail ∧ k.head ≠ k.tail

structure Inv (s : Sys) : Prop where
  bounded : s.kbd.Bounded
  queue : s.accepted = s.returned ++ s.kbd.buffered
  knows : Knows s.kbd s.pc

theorem Knows.interrupt {k k' : Kbd} {l : List Byte} (h : k.Appends k' l) {pc : Pc}
    (hk : Knows k pc) : Knows k' pc := by
  have htail := h.tail
  cases pc with
  | test => trivial
  | testHead t => exact hk.trans htail.symm
  | testTail q => exact hk.imp (·.trans htail.symm) fun hne => (h.front hne).1
  | index => exact (h.front hk).1
  | load i => exact ⟨hk.1.trans htail.symm, (h.front hk.2).1⟩
  | next c =>
    obtain ⟨hc, hne⟩ := hk
    exact ⟨by rw [hc, htail, (h.front hne).2], (h.front hne).1⟩
  | store c t =>
    obtain ⟨hc, ht, hne⟩ := hk
    exact ⟨by rw [hc, htail, (h.front hne).2], ht.trans htail.symm, (h.front hne).1⟩

theorem Kbd.Bounded.pop {k : Kbd} (h : k.Bounded) (hne : k.head ≠ k.tail) :
    k.buffered = k.buf k.tail :: Kbd.buffered { k with tail := (k.tail + 1) % kbuf } := by
  have hpos := h.count_pos.mp hne
  have hcount : k.count = Kbd.count { k with tail := (k.tail + 1) % kbuf } + 1 := by
    have := h.head
    have := h.tail
    unfold count kbuf at *
    dsimp only
    omega
  unfold buffered
  rw [hcount, Ring.contents_pop, show k.tail % kbuf = k.tail from Nat.mod_eq_of_lt h.tail]

theorem Inv.access {s : Sys} (h : Inv s) (headFirst : Bool) : Inv (s.access headFirst) := by
  obtain ⟨k, pc, acc, ret⟩ := s
  obtain ⟨hb, hq, hk⟩ := h
  cases pc with
  | test =>
    refine ⟨hb, hq, ?_⟩
    cases headFirst with
    | false => exact rfl
    | true => exact Classical.em _
  | testHead t =>
    refine ⟨hb, hq, ?_⟩
    show Knows k (if t = k.head then .test else .index)
    split
    next => trivial
    next hne => exact fun e => hne (hk.trans e.symm)
  | testTail q =>
    refine ⟨hb, hq, ?_⟩
    show Knows k (if k.tail = q then .test else .index)
    split
    next => trivial
    next hne => exact hk.resolve_left (Ne.symm hne)
  | index => exact ⟨hb, hq, rfl, hk⟩
  | load i =>
    obtain ⟨hi, hne⟩ := hk
    exact ⟨hb, hq, congrArg k.buf hi, hne⟩
  | next c => exact ⟨hb, hq, hk.1, rfl, hk.2⟩
  | store c t =>
    obtain ⟨hc, ht, hne⟩ := hk
    refine ⟨⟨hb.head, Nat.mod_lt _ (by decide)⟩, ?_, trivial⟩
    show acc = (ret ++ [c]) ++ Kbd.buffered { k with tail := (t + 1) % kbuf }
    rw [List.append_assoc, List.singleton_append, show c = k.buf k.tail from hc,
      show t = k.tail from ht]
    exact hq.trans (congrArg (ret ++ ·) (hb.pop hne))

theorem Inv.step {s : Sys} (h : Inv s) (e : Event) : Inv (s.step e) := by
  cases e with
  | interrupt sc =>
    have hs := handleKeyboard_spec h.bounded sc
    refine ⟨hs.bounded, ?_, h.knows.interrupt hs⟩
    show s.accepted ++ _ = s.returned ++ (handleKeyboard sc s.kbd).buffered
    rw [hs.buffered, h.queue, List.append_assoc]
  | access headFirst => exact h.access headFirst

theorem Inv.run (es : List Event) : ∀ {s : Sys}, Inv s → Inv (es.foldl Sys.step s) := by
  induction es with
  | nil => exact id
  | cons e es ih => exact fun h => ih (h.step e)

/-- **Keystrokes arrive in order, none lost and none twice**: in every interleaving of interrupts with
the accesses of `kbd_getc` the indices stay in the buffer, the characters returned are the first of
those accepted, and those buffered are the rest. -/
theorem keystrokes_in_order (es : List Event) :
    let s := es.foldl Sys.step boot
    (s.kbd.head < 512 ∧ s.kbd.tail < 512) ∧ s.returned <+: s.accepted ∧
      s.kbd.buffered = s.accepted.drop s.returned.length := by
  intro s
  have h : Inv s := Inv.run es ⟨⟨by decide, by decide⟩, rfl, trivial⟩
  refine ⟨⟨h.bounded.head, h.bounded.tail⟩, ?_, ?_⟩
  · rw [h.queue]
    exact List.prefix_append ..
  · rw [h.queue, List.drop_left]

end Sinux.Drivers

import Sinux.Lib.Word64
import Mathlib.Data.List.Basic

/-!
# Byte memory

Memory as a function from 64-bit addresses to bytes, blocks of bytes written to it, little-endian
words, and a stack that grows towards lower addresses. What has been pushed lies on the stack in one
piece (`pushAll_holds`), and nothing else is touched (`pushAll_frame`), as long as the stack pointer
does not pass 0.
-/

namespace Sinux.Lib.ByteMem

abbrev Memory := U64 → BitVec 8

variable {m m' : Memory} {a b : U64} {bs cs : List (BitVec 8)}

/-- The bytes `bs` written from address `a` on. -/
def write (m : Memory) (a : U64) (bs : List (BitVec 8)) : Memory :=
  fun x => (bs[(x - a).toNat]?).getD (m x)

/-- The bytes `bs` lie at address `a`. -/
def HasBytes (m : Memory) (a : U64) (bs : List (BitVec 8)) : Prop :=
  ∀ i, i < bs.length → some (m (a + BitVec.ofNat 64 i)) = bs[i]?

theorem add_ofNat_toNat {i : Nat} (h : a.toNat + i < 2 ^ 64) :
    (a + BitVec.ofNat 64 i).toNat = a.toNat + i := by
  rw [BitVec.toNat_add, BitVec.toNat_ofNat]
  omega

theorem add_ofNat_sub {i : Nat} (h : i < 2 ^ 64) : (a + BitVec.ofNat 64 i - a).toNat = i := by
  rw [BitVec.add_comm, BitVec.add_sub_cancel, BitVec.toNat_ofNat, Nat.mod_eq_of_lt h]

theorem add_ofNat_add (a : U64) (i j : Nat) :
    a + BitVec.ofNat 64 i + BitVec.ofNat 64 j = a + BitVec.ofNat 64 (i + j) := by
  rw [BitVec.add_assoc, BitVec.ofNat_add]

theorem write_holds (h : bs.length ≤ 2 ^ 64) : HasBytes (write m a bs) a bs := fun i hi => by
  rw [write, add_ofNat_sub (by omega), List.getElem?_eq_getElem hi]
  rfl

theorem write_of_not_mem (h : a.toNat + bs.length ≤ 2 ^ 64) {x : U64}
    (hx : x.toNat < a.toNat ∨ a.toNat + bs.length ≤ x.toNat) : write m a bs x = m x := by
  have hge : bs.length ≤ (x - a).toNat := by
    rw [BitVec.toNat_sub]
    omega
  rw [write, List.getElem?_eq_none hge]
  rfl

theorem write_write (h : bs.length + cs.length ≤ 2 ^ 64) :
    write (write m a bs) (a + BitVec.ofNat 64 bs.length) cs = write m a (bs ++ cs) := by
  funext x
  have hx : (x - (a + BitVec.ofNat 64 bs.length)).toNat =
      ((x - a).toNat + (2 ^ 64 - bs.length % 2 ^ 64)) % 2 ^ 64 := by
    rw [← BitVec.sub_sub, BitVec.toNat_sub, BitVec.toNat_ofNat, Nat.add_comm]
  have hlt := (x - a).isLt
  unfold write
  rw [hx]
  by_cases hi : (x - a).toNat < bs.length
  · rw [List.getElem?_append_left hi, List.getElem?_eq_none]
    · rfl
    · omega
  · rw [List.getElem?_append_right (by omega), List.getElem?_eq_none (l := bs) (by omega)]
    congr 3
    omega

theorem HasBytes.congr (h : HasBytes m a bs)
    (hm : ∀ i, i < bs.length → m' (a + BitVec.ofNat 64 i) = m (a + BitVec.ofNat 64 i)) :
    HasBytes m' a bs := fun i hi => by
  rw [hm i hi]
  exact h i hi

theorem hasBytes_append :
    HasBytes m a (bs ++ cs) ↔ HasBytes m a bs ∧ HasBytes m (a + BitVec.ofNat 64 bs.length) cs := by
  constructor
  · intro h
    refine ⟨fun i hi => ?_, fun i hi => ?_⟩
    · rw [h i (by rw [List.length_append]; omega), List.getElem?_append_left hi]
    · rw [add_ofNat_add, h _ (by rw [List.length_append]; omega),
        List.getElem?_append_right (by omega), Nat.add_sub_cancel_left]
  · rintro ⟨hb, hc⟩ i hi
    by_cases hlt : i < bs.length
    · rw [hb i hlt, List.getElem?_append_left hlt]
    · rw [List.length_append] at hi
      have h := hc (i - bs.length) (by omega)
      rw [add_ofNat_add, Nat.add_sub_cancel' (by omega)] at h
      rw [h, List.getElem?_append_right (by omega)]

theorem hasBytes_cons {c : BitVec 8} :
    HasBytes m a (c :: cs) ↔ m a = c ∧ HasBytes m (a + 1) cs := by
  rw [← List.singleton_append, hasBytes_append]
  refine and_congr ⟨fun h => ?_, fun h i hi => ?_⟩ Iff.rfl
  · have h0 := h 0 Nat.one_pos
    rw [show BitVec.ofNat 64 0 = 0#64 from rfl, BitVec.add_zero] at h0
    exact Option.some_inj.mp h0
  · obtain rfl : i = 0 := Nat.lt_one_iff.mp hi
    rw [show BitVec.ofNat 64 0 = 0#64 from rfl, BitVec.add_zero, h]
    rfl

theorem write_outside {x : U64} (h : bs.length ≤ (x - a).toNat) : write m a bs x = m x := by
  rw [write, List.getElem?_eq_none h]
  rfl

theorem outside_part {x : U64} {n i k : Nat} (h : n ≤ (x - a).toNat) (hle : i + k ≤ n) :
    k ≤ (x - (a + BitVec.ofNat 64 i)).toNat := by
  have hlt := (x - a).isLt
  rw [← BitVec.sub_sub, BitVec.toNat_sub, BitVec.toNat_ofNat]
  omega

/-- The `n` bytes at `a` and the `k` bytes at `b` have no byte in common. -/
def Apart (a : U64) (n : Nat) (b : U64) (k : Nat) : Prop :=
  ∀ i j, i < n → j < k → a + BitVec.ofNat 64 i ≠ b + BitVec.ofNat 64 j

variable {n k i : Nat}

theorem apart_of_le (h : a.toNat + n ≤ b.toNat) (hb : b.toNat + k ≤ 2 ^ 64) :
    Apart a n b k := fun i j hi hj he => by
  have he := congrArg BitVec.toNat he
  rw [add_ofNat_toNat (by omega), add_ofNat_toNat (by omega)] at he
  omega

theorem apart_behind (h : k ≤ i) (hi : i + n ≤ 2 ^ 64) : Apart (a + BitVec.ofNat 64 i) n a k := by
  intro i' j hi' hj he
  have he : (_ - a).toNat = (_ - a).toNat := congrArg (fun x => (x - a).toNat) he
  rw [add_ofNat_add, add_ofNat_sub (by omega), add_ofNat_sub (by omega)] at he
  omega

theorem Apart.symm (h : Apart a n b k) : Apart b k a n := fun i j hi hj he => h j i hj hi he.symm

theorem Apart.mono {n' k' : Nat} (h : Apart a n b k) (hn : n' ≤ n) (hk : k' ≤ k) : Apart a n' b k' :=
  fun i j hi hj => h i j (Nat.lt_of_lt_of_le hi hn) (Nat.lt_of_lt_of_le hj hk)

theorem Apart.part {n' k' : Nat} (h : Apart a n b k) (hn : i + n' ≤ n) (hk : k' ≤ k) :
    Apart (a + BitVec.ofNat 64 i) n' b k' := fun i' j hi hj => by
  rw [add_ofNat_add]
  exact h _ j (by omega) (by omega)

theorem Apart.outside (h : Apart a n b k) (hi : i < k) :
    n ≤ (b + BitVec.ofNat 64 i - a).toNat := by
  by_contra hlt
  refine h (b + BitVec.ofNat 64 i - a).toNat i (Nat.lt_of_not_le hlt) hi ?_
  rw [BitVec.ofNat_toNat, BitVec.setWidth_eq, BitVec.add_comm a, BitVec.sub_add_cancel]

theorem HasBytes.write (h : HasBytes m b cs) (hap : Apart a n b k) (hn : bs.length ≤ n)
    (hk : cs.length ≤ k) : HasBytes (ByteMem.write m a bs) b cs :=
  h.congr fun _ hj =>
    write_outside (Nat.le_trans hn (hap.outside (Nat.lt_of_lt_of_le hj hk)))

/-! ## Words -/

/-- The bytes of a word, the lowest first. -/
def wordBytes (w : U64) : List (BitVec 8) :=
  (List.range 8).map fun i => BitVec.ofNat 8 (w.toNat / 256 ^ i)

theorem wordBytes_length (w : U64) : (wordBytes w).length = 8 := by
  simp [wordBytes]

/-- The word at an address. -/
def word (m : Memory) (a : U64) : U64 :=
  BitVec.ofNat 64 ((m a).toNat + (m (a + 1#64)).toNat * 256 + (m (a + 2#64)).toNat * 256 ^ 2 +
    (m (a + 3#64)).toNat * 256 ^ 3 + (m (a + 4#64)).toNat * 256 ^ 4 + (m (a + 5#64)).toNat * 256 ^ 5 +
    (m (a + 6#64)).toNat * 256 ^ 6 + (m (a + 7#64)).toNat * 256 ^ 7)

theorem word_of_hasBytes {w : U64} (h : HasBytes m a (wordBytes w)) : word m a = w := by
  have hbyte (i : Nat) (hi : i < 8) :
      (m (a + BitVec.ofNat 64 i)).toNat = w.toNat / 256 ^ i % 256 := by
    have h := h i (by rwa [wordBytes_length])
    rw [wordBytes, List.getElem?_map, List.getElem?_range hi, Option.map_some] at h
    rw [Option.some.inj h, BitVec.toNat_ofNat]
  have h0 : (m a).toNat = w.toNat % 256 := by
    have h := hbyte 0 (by decide)
    rwa [show BitVec.ofNat 64 0 = 0#64 from rfl, BitVec.add_zero, Nat.pow_zero, Nat.div_one] at h
  apply BitVec.eq_of_toNat_eq
  have h1 := hbyte 1 (by decide)
  have h2 := hbyte 2 (by decide)
  have h3 := hbyte 3 (by decide)
  have h4 := hbyte 4 (by decide)
  have h5 := hbyte 5 (by decide)
  have h6 := hbyte 6 (by decide)
  have h7 := hbyte 7 (by decide)
  rw [word, BitVec.toNat_ofNat, h0, h1, h2, h3, h4, h5, h6, h7]
  omega

/-- The 32-bit word at an address. -/
def word32 (m : Memory) (a : U64) : BitVec 32 :=
  BitVec.ofNat 32 ((m a).toNat + (m (a + 1#64)).toNat * 256 + (m (a + 2#64)).toNat * 256 ^ 2 +
    (m (a + 3#64)).toNat * 256 ^ 3)

theorem word_congr (h : ∀ i, i < 8 → m' (a + BitVec.ofNat 64 i) = m (a + BitVec.ofNat 64 i)) :
    word m' a = word m a := by
  have h0 := h 0 (by decide)
  rw [show BitVec.ofNat 64 0 = 0#64 from rfl, BitVec.add_zero] at h0
  unfold word
  rw [h0, h 1 (by decide), h 2 (by decide), h 3 (by decide), h 4 (by decide), h 5 (by decide),
    h 6 (by decide), h 7 (by decide)]

theorem word32_congr (h : ∀ i, i < 4 → m' (a + BitVec.ofNat 64 i) = m (a + BitVec.ofNat 64 i)) :
    word32 m' a = word32 m a := by
  have h0 := h 0 (by decide)
  rw [show BitVec.ofNat 64 0 = 0#64 from rfl, BitVec.add_zero] at h0
  unfold word32
  rw [h0, h 1 (by decide), h 2 (by decide), h 3 (by decide)]

/-! ## A stack -/

/-- The block `bs` pushed on a stack. -/
def push (bs : List (BitVec 8)) (s : U64 × Memory) : U64 × Memory :=
  (s.1 - BitVec.ofNat 64 bs.length, write s.2 (s.1 - BitVec.ofNat 64 bs.length) bs)

/-- The blocks pushed, the last one first. -/
def pushAll (l : List (List (BitVec 8))) (s : U64 × Memory) : U64 × Memory := l.foldr push s

variable {s : U64 × Memory} {l : List (List (BitVec 8))}

theorem push_toNat (h : bs.length ≤ s.1.toNat) : (push bs s).1.toNat = s.1.toNat - bs.length := by
  show (s.1 - BitVec.ofNat 64 bs.length).toNat = _
  rw [BitVec.toNat_sub, BitVec.toNat_ofNat]
  omega

theorem push_frame (h : bs.length ≤ s.1.toNat) {x : U64}
    (hx : x.toNat < s.1.toNat - bs.length ∨ s.1.toNat ≤ x.toNat) : (push bs s).2 x = s.2 x := by
  have hsp : (s.1 - BitVec.ofNat 64 bs.length).toNat = s.1.toNat - bs.length := push_toNat h
  exact write_of_not_mem (by rw [hsp]; omega) (by rw [hsp]; omega)

theorem pushAll_toNat (h : l.flatten.length ≤ s.1.toNat) :
    (pushAll l s).1.toNat = s.1.toNat - l.flatten.length := by
  induction l with
  | nil => rfl
  | cons b l ih =>
    rw [List.flatten_cons, List.length_append] at h
    have ih := ih (by omega)
    show (push b (pushAll l s)).1.toNat = _
    rw [push_toNat (by omega), ih, List.flatten_cons, List.length_append]
    omega

theorem pushAll_frame (h : l.flatten.length ≤ s.1.toNat) {x : U64}
    (hx : x.toNat < s.1.toNat - l.flatten.length ∨ s.1.toNat ≤ x.toNat) :
    (pushAll l s).2 x = s.2 x := by
  induction l with
  | nil => rfl
  | cons b l ih =>
    rw [List.flatten_cons, List.length_append] at h hx
    have hsp : (pushAll l s).1.toNat = s.1.toNat - l.flatten.length := pushAll_toNat (by omega)
    show (push b (pushAll l s)).2 x = _
    rw [push_frame (by omega) (by omega), ih (by omega) (by omega)]

/-- **What was pushed lies on the stack in one piece.** -/
theorem pushAll_holds (h : l.flatten.length ≤ s.1.toNat) :
    HasBytes (pushAll l s).2 (pushAll l s).1 l.flatten := by
  induction l with
  | nil => exact fun i hi => absurd hi (Nat.not_lt_zero i)
  | cons b l ih =>
    rw [List.flatten_cons, List.length_append] at h
    have hsp : (pushAll l s).1.toNat = s.1.toNat - l.flatten.length := pushAll_toNat (by omega)
    have hback : (push b (pushAll l s)).1 + BitVec.ofNat 64 b.length = (pushAll l s).1 :=
      BitVec.sub_add_cancel ..
    show HasBytes (push b (pushAll l s)).2 (push b (pushAll l s)).1 _
    rw [List.flatten_cons, hasBytes_append, hback]
    refine ⟨write_holds (by omega), (ih (by omega)).congr fun i hi => ?_⟩
    refine push_frame (by omega) (Or.inr ?_)
    rw [add_ofNat_toNat (by omega)]
    omega

/-! ### What a push writes -/

theorem pushAll_fst (l : List (List (BitVec 8))) (s : U64 × Memory) :
    (pushAll l s).1 = s.1 - BitVec.ofNat 64 l.flatten.length := by
  induction l with
  | nil => exact (BitVec.sub_zero s.1).symm
  | cons b l ih =>
    show (pushAll l s).1 - BitVec.ofNat 64 b.length = _
    rw [ih, List.flatten_cons, List.length_append, BitVec.ofNat_add, BitVec.sub_sub,
      BitVec.add_comm (BitVec.ofNat 64 b.length)]

theorem pushAll_congr {sp x : U64} (h : m x = m' x) :
    (pushAll l (sp, m)).2 x = (pushAll l (sp, m')).2 x := by
  induction l with
  | nil => exact h
  | cons b l ih =>
    show write (pushAll l (sp, m)).2 ((pushAll l (sp, m)).1 - _) b x =
      write (pushAll l (sp, m')).2 ((pushAll l (sp, m')).1 - _) b x
    rw [pushAll_fst, pushAll_fst, write, write, ih]

/-- **A byte of what is pushed** is the same whatever was there before. -/
theorem pushAll_written {sp x : U64}
    (hx : (x - (sp - BitVec.ofNat 64 l.flatten.length)).toNat < l.flatten.length) :
    (pushAll l (sp, m)).2 x = (pushAll l (sp, m')).2 x := by
  induction l with
  | nil => exact absurd hx (Nat.not_lt_zero _)
  | cons b l ih =>
    show write (pushAll l (sp, m)).2 ((pushAll l (sp, m)).1 - _) b x =
      write (pushAll l (sp, m')).2 ((pushAll l (sp, m')).1 - _) b x
    rw [pushAll_fst, pushAll_fst]
    generalize hbase : sp - BitVec.ofNat 64 l.flatten.length = base at ih
    have hsum : sp - BitVec.ofNat 64 (b :: l).flatten.length = base - BitVec.ofNat 64 b.length := by
      rw [← hbase, List.flatten_cons, List.length_append, BitVec.ofNat_add, BitVec.sub_sub,
        BitVec.add_comm (BitVec.ofNat 64 b.length)]
    rw [hsum, List.flatten_cons, List.length_append] at hx
    unfold write
    by_cases hb : (x - (base - BitVec.ofNat 64 b.length)).toNat < b.length
    · rw [List.getElem?_eq_getElem hb]
      rfl
    · rw [List.getElem?_eq_none (Nat.le_of_not_lt hb)]
      refine ih ?_
      have hback : x - base = x - (base - BitVec.ofNat 64 b.length) - BitVec.ofNat 64 b.length := by
        rw [BitVec.sub_sub, BitVec.sub_add_cancel]
      have hlt := (x - (base - BitVec.ofNat 64 b.length)).isLt
      rw [hback, BitVec.toNat_sub, BitVec.toNat_ofNat]
      omega

end Sinux.Lib.ByteMem

import Mathlib.Data.List.Basic
import Mathlib.Tactic.Common

/-!
# C strings (`lib/string.c`)

A string is the list of the bytes before its terminator, none of them NUL. The comparisons of the
kernel are translated with the values they return; `kstrncpy` has no result where its padding loop
runs on with `n = SIZE_MAX`, which is when the source does not fit.
-/

namespace Sinux.Fs

abbrev Byte := BitVec 8

/-- A character of a string. -/
abbrev CChar := {c : Byte // c ≠ 0}

abbrev Str := List CChar

/-- A string literal of the source. -/
def str (cs : List Char) : Str :=
  cs.filterMap fun c =>
    let b : Byte := BitVec.ofNat 8 c.toNat
    if h : b ≠ 0 then some ⟨b, h⟩ else none

/-- The bytes of a string, without its terminator. -/
def bytes (s : Str) : List Byte := s.map Subtype.val

/-- The string that starts at the front of a block; the byte behind the block is NUL. -/
def cString : List Byte → Str
  | [] => []
  | b :: bs => if h : b ≠ 0 then ⟨b, h⟩ :: cString bs else []

/-- The character `'/'`. -/
def slash : CChar := ⟨47, by decide⟩

/-- `(unsigned char)*a - (unsigned char)*b`. -/
def charDiff (a b : Byte) : Int := (a.toNat : Int) - b.toNat

/-- `kstrcmp`. -/
def kstrcmp : Str → Str → Int
  | [], [] => 0
  | [], b :: _ => charDiff 0 b
  | a :: _, [] => charDiff a 0
  | a :: as, b :: bs => if a = b then kstrcmp as bs else charDiff a b

/-- `kstrncmp`. -/
def kstrncmp : Str → Str → Nat → Int
  | _, _, 0 => 0
  | [], [], _ + 1 => 0
  | [], b :: _, _ + 1 => charDiff 0 b
  | a :: _, [], _ + 1 => charDiff a 0
  | a :: as, b :: bs, n + 1 => if a = b then kstrncmp as bs n else charDiff a b

/-- `kstrncpy`: the string that `dst` holds afterwards. -/
def kstrncpy (src : Str) (n : Nat) : Option Str := if src.length < n then some src else none

theorem length_bytes (s : Str) : (bytes s).length = s.length := List.length_map _

theorem charDiff_ne {a b : Byte} (h : a ≠ b) : charDiff a b ≠ 0 := by
  have : a.toNat ≠ b.toNat := fun e => h (BitVec.eq_of_toNat_eq e)
  unfold charDiff
  omega

theorem charDiff_val_ne {a b : CChar} (h : a ≠ b) : charDiff a b ≠ 0 :=
  charDiff_ne fun e => h (Subtype.ext e)

theorem kstrcmp_eq_zero : ∀ {a b : Str}, kstrcmp a b = 0 ↔ a = b
  | [], [] => by simp [kstrcmp]
  | [], b :: _ => by simpa [kstrcmp] using charDiff_ne b.2.symm
  | a :: _, [] => by simpa [kstrcmp] using charDiff_ne a.2
  | a :: as, b :: bs => by
    by_cases h : a = b
    · simp [kstrcmp, h, kstrcmp_eq_zero (a := as) (b := bs)]
    · simp [kstrcmp, h, charDiff_val_ne h]

theorem kstrncmp_eq_zero : ∀ {a b : Str}, kstrncmp a b b.length = 0 ↔ b <+: a
  | _, [] => by simp [kstrncmp]
  | [], b :: bs => by simpa [kstrncmp] using charDiff_ne b.2.symm
  | a :: as, b :: bs => by
    by_cases h : a = b
    · simp [kstrncmp, h, kstrncmp_eq_zero (a := as) (b := bs)]
    · simp [kstrncmp, h, charDiff_val_ne h, List.cons_prefix_cons, Ne.symm h]

theorem kstrncpy_of_lt {src : Str} {n : Nat} (h : src.length < n) : kstrncpy src n = some src :=
  if_pos h

end Sinux.Fs

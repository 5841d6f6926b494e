import Sinux.Lib.Blocks
import Mathlib.Algebra.GroupWithZero.Nat
import Mathlib.Data.Nat.NthRoot.Defs

/-!
# SHA-256 (FIPS 180-4)

The hash function for messages of whole bytes, as the standard defines it: the constants as bits of
roots of primes, the padding, the message schedule as a recurrence, and the compression function
folded over the blocks of the padded message.
-/

namespace Sinux.Lib.Fips180

open Sinux.Lib.Blocks

abbrev Word := BitVec 32

/-! ## Functions and constants -/

def ch (x y z : Word) : Word := (x &&& y) ^^^ (~~~x &&& z)

def maj (x y z : Word) : Word := (x &&& y) ^^^ (x &&& z) ^^^ (y &&& z)

def bigSigma0 (x : Word) : Word := x.rotateRight 2 ^^^ x.rotateRight 13 ^^^ x.rotateRight 22

def bigSigma1 (x : Word) : Word := x.rotateRight 6 ^^^ x.rotateRight 11 ^^^ x.rotateRight 25

def smallSigma0 (x : Word) : Word := x.rotateRight 7 ^^^ x.rotateRight 18 ^^^ (x >>> 3)

def smallSigma1 (x : Word) : Word := x.rotateRight 17 ^^^ x.rotateRight 19 ^^^ (x >>> 10)

/-- The first 64 prime numbers. They are below 18 · 18, so a divisor below 18 rules a number out. -/
def primes : List Nat :=
  (List.range' 2 310).filter fun p => (List.range' 2 16).all fun d => p % d != 0 || d == p

/-- The first 32 bits of the fractional part of the `e`-th root of `p`. -/
def rootBits (e p : Nat) : Word := BitVec.ofNat 32 (Nat.nthRoot e (p * 2 ^ (32 * e)))

/-- `K`: cube roots. -/
def roundConstants : List Word := primes.map (rootBits 3)

/-- `H⁽⁰⁾`: square roots. -/
def initialHash : List Word := (primes.take 8).map (rootBits 2)

/-! ## Preprocessing -/

/-- The number of zero bytes after the byte `0x80`: the least with which 8 bytes are left of the last
block. -/
def zeros (len : Nat) : Nat := (119 - len % 64) % 64

/-- A number as 8 bytes, the highest first. -/
def lengthBytes (l : BitVec 64) : List (BitVec 8) :=
  (List.range 8).map fun i => (l >>> (56 - 8 * i)).setWidth 8

/-- The padded message. -/
def pad (m : List (BitVec 8)) : List (BitVec 8) :=
  m ++ 0x80 :: (List.replicate (zeros m.length) 0 ++ lengthBytes (BitVec.ofNat 64 (8 * m.length)))

/-! ## Hash computation -/

/-- Word `t` of a block. -/
def blockWord (b : List (BitVec 8)) (t : Nat) : Word :=
  b.getD (4 * t) 0 ++ b.getD (4 * t + 1) 0 ++ b.getD (4 * t + 2) 0 ++ b.getD (4 * t + 3) 0

/-- The message schedule. -/
def schedule (b : List (BitVec 8)) (t : Nat) : Word :=
  if t < 16 then blockWord b t
  else smallSigma1 (schedule b (t - 2)) + schedule b (t - 7) + smallSigma0 (schedule b (t - 15)) +
    schedule b (t - 16)
termination_by t

/-- The working variables. -/
@[ext] structure Work where
  (a b c d e f g h : Word)

/-- Round `t` with `w` from the schedule. -/
def round (k w : Word) (v : Work) : Work :=
  let t1 := v.h + bigSigma1 v.e + ch v.e v.f v.g + k + w
  let t2 := bigSigma0 v.a + maj v.a v.b v.c
  ⟨t1 + t2, v.a, v.b, v.c, v.d + t1, v.e, v.f, v.g⟩

def Work.ofList (h : List Word) : Work :=
  ⟨h.getD 0 0, h.getD 1 0, h.getD 2 0, h.getD 3 0, h.getD 4 0, h.getD 5 0, h.getD 6 0, h.getD 7 0⟩

def Work.toList (v : Work) : List Word := [v.a, v.b, v.c, v.d, v.e, v.f, v.g, v.h]

/-- The next hash value. -/
def compress (h : List Word) (b : List (BitVec 8)) : List Word :=
  let v := (List.range 64).foldl (fun v t => round (roundConstants.getD t 0) (schedule b t) v)
    (Work.ofList h)
  List.zipWith (· + ·) h v.toList

/-- A word as 4 bytes, the highest first. -/
def wordBytes (w : Word) : List (BitVec 8) :=
  (List.range 4).map fun i => (w >>> (24 - 8 * i)).setWidth 8

/-- The message digest. -/
def sha256 (m : List (BitVec 8)) : List (BitVec 8) :=
  ((blocks 64 (pad m)).foldl compress initialHash).flatMap wordBytes

end Sinux.Lib.Fips180

import Sinux.Crypto.Sha256

/-!
# HMAC-SHA-256 (`sha256_hmac`, `lib/sha256.c`)

* `hmac` is the construction of RFC 2104 over a hash function and its block length.
* `sha256Hmac` fills `k`, derives the two pads from it and hashes twice with one context.
* `sha256_hmac_eq`: the code computes `hmac` with SHA-256, for every key and every message.
-/

namespace Sinux.Crypto

open Sinux.Lib.Fips180

/-! ## RFC 2104 -/

section

variable (H : List (BitVec 8) → List (BitVec 8)) (B : Nat)

/-- The key of one block: a key that is longer is hashed first, then zeros are appended. -/
def blockKey (key : List (BitVec 8)) : List (BitVec 8) :=
  let k := if key.length ≤ B then key else H key
  k ++ List.replicate (B - k.length) 0

/-- `H((K' xor opad) || H((K' xor ipad) || text))`. -/
def hmac (key text : List (BitVec 8)) : List (BitVec 8) :=
  let k := blockKey H B key
  H (k.map (· ^^^ 0x5c) ++ H (k.map (· ^^^ 0x36) ++ text))

end

/-! ## The code -/

/-- `kmemcpy(k, src, n)`. -/
def kmemcpy (k : Fin 64 → BitVec 8) (src : List (BitVec 8)) : Fin 64 → BitVec 8 :=
  src.zipIdx.foldl (fun k c => put k c.2 c.1) k

/-- `sha256_hmac`, with what is on the stack where `k`, `ctx` and the context of `sha256_hash` lie.
The loop writes every byte of the pads. -/
def sha256Hmac (k : Fin 64 → BitVec 8) (ctx ctx' : Sha256Ctx) (key data : List (BitVec 8)) :
    List (BitVec 8) :=
  let k := zeroFrom 0 64 k
  let k := if 64 < key.length then kmemcpy k (sha256Hash ctx' key) else kmemcpy k key
  let ipad := List.ofFn fun i => k i ^^^ 0x36
  let opad := List.ofFn fun i => k i ^^^ 0x5c
  let (ctx, inner) := sha256Final (sha256Update (sha256Update (sha256Init ctx) ipad) data)
  (sha256Final (sha256Update (sha256Update (sha256Init ctx) opad) inner)).2

/-! ## The key -/

theorem kmemcpy_apply (k : Fin 64 → BitVec 8) (src : List (BitVec 8)) (j : Fin 64) :
    kmemcpy k src j = (src[j.val]?).getD (k j) := by
  have hfold : ∀ (src : List (BitVec 8)) (n : Nat) (k : Fin 64 → BitVec 8),
      (src.zipIdx n).foldl (fun k c => put k c.2 c.1) k j =
        if n ≤ j.val then (src[j.val - n]?).getD (k j) else k j := by
    intro src
    induction src with
    | nil => simp
    | cons b src ih =>
      intro n k
      rw [List.zipIdx_cons, List.foldl_cons, ih, put]
      rcases Nat.lt_trichotomy j.val n with hlt | heq | hgt
      · rw [if_neg (by omega), if_neg (by omega), if_neg (by omega)]
      · rw [if_neg (by omega), if_pos heq, if_pos (by omega), heq, Nat.sub_self]
        rfl
      · rw [if_pos (by omega), if_neg (by omega), if_pos (by omega),
          show j.val - n = j.val - (n + 1) + 1 by omega, List.getElem?_cons_succ]
  exact (hfold src 0 k).trans (if_pos (Nat.zero_le _))

theorem ofFn_kmemcpy {k : Fin 64 → BitVec 8} (hk : ∀ j, k j = 0) {src : List (BitVec 8)}
    (h : src.length ≤ 64) :
    List.ofFn (kmemcpy k src) = src ++ List.replicate (64 - src.length) 0 := by
  refine List.ext_getElem (by simp [h]) fun i hi _ => ?_
  rw [List.length_ofFn] at hi
  rw [List.getElem_ofFn, kmemcpy_apply, hk]
  by_cases hlt : i < src.length
  · rw [List.getElem?_eq_getElem hlt, List.getElem_append_left hlt]
    rfl
  · have hge : src.length ≤ i := Nat.le_of_not_lt hlt
    rw [List.getElem?_eq_none hge, List.getElem_append_right hge, List.getElem_replicate]
    rfl

/-- **HMAC-SHA-256**: whatever was on the stack, the code computes the construction of RFC 2104 with
the hash of FIPS 180-4. -/
theorem sha256_hmac_eq (k : Fin 64 → BitVec 8) (ctx ctx' : Sha256Ctx) (key data : List (BitVec 8)) :
    sha256Hmac k ctx ctx' key data = hmac sha256 64 key data := by
  have hzero (j : Fin 64) : zeroFrom 0 64 k j = 0 :=
    (zeroFrom_apply 0 64 k j).trans (if_pos ⟨Nat.zero_le _, j.isLt⟩)
  have hkey : List.ofFn (if 64 < key.length then kmemcpy (zeroFrom 0 64 k) (sha256Hash ctx' key)
      else kmemcpy (zeroFrom 0 64 k) key) = blockKey sha256 64 key := by
    unfold blockKey
    by_cases hlong : 64 < key.length
    · have hlen : (sha256Hash ctx' key).length = 32 := by simp [sha256Hash, sha256Final]
      rw [if_pos hlong, if_neg (by omega), ofFn_kmemcpy hzero (by omega), sha256Hash_eq]
    · rw [if_neg hlong, if_pos (by omega), ofFn_kmemcpy hzero (by omega)]
  have hpad (k : Fin 64 → BitVec 8) (pad : BitVec 8) :
      List.ofFn (fun i => k i ^^^ pad) = (List.ofFn k).map (· ^^^ pad) := by
    rw [List.map_ofFn]
    rfl
  have hpass (ctx : Sha256Ctx) (pad m : List (BitVec 8)) :
      (sha256Final (sha256Update (sha256Update (sha256Init ctx) pad) m)).2 = sha256 (pad ++ m) := by
    have h := digest_of_chunks ctx [pad, m]
    rwa [List.flatten_cons, List.flatten_singleton] at h
  unfold sha256Hmac hmac
  dsimp only
  rw [hpass, hpass, hpad, hpad, hkey]

end Sinux.Crypto

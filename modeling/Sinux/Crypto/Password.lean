import Sinux.Crypto.Sha256
import Sinux.Fs.CString
import Mathlib.Logic.Function.Iterate

/-!
# Password hashes (`sha256_to_hex`, `sha256_make_hash` and `sha256_verify` in `lib/sha256.c`)

* `sha256ToHex`, `sha256MakeHash`, `sha256Verify`: `sha256_make_hash` hashes salt and password, then
  4096 times the last hash and the password, all in one context that lies on the stack.
* `sha256MakeHash_eq`: the stack does not matter, the text is that of the digest `stretched`.
* `sha256_verify_exact`: a password passes against the text of another exactly if their digests agree,
  since the digits of a hash can be read back (`sha256ToHex_injective`).
-/

namespace Sinux.Crypto

open Sinux.Fs Sinux.Lib.Fips180

/-- The array `hex`. -/
def hexDigits : Str :=
  str ['0', '1', '2', '3', '4', '5', '6', '7', '8', '9', 'a', 'b', 'c', 'd', 'e', 'f']

/-- `hex[n]`, read for `n < 16` only. -/
def hexDigit (n : Byte) : CChar := hexDigits.getD n.toNat ⟨48, by decide⟩

def sha256ToHex (hash : List Byte) : Str :=
  hash.flatMap fun b : Byte => [hexDigit ((b >>> 4) &&& 0xF), hexDigit (b &&& 0xF)]

def salt : Str :=
  str ['S', 'i', 'n', 'u', 'x', '_', 'v', '1', '_', 's', 'a', 'l', 't', '_', '2', '0', '2', '6']

/-- `sha256_init`, two calls of `sha256_update` and `sha256_final`. -/
def hashTwo (password : Str) (s : Sha256Ctx × List Byte) : Sha256Ctx × List Byte :=
  sha256Final (sha256Update (sha256Update (sha256Init s.1) s.2) (bytes password))

/-- How often `sha256_make_hash` hashes again. It is not unfolded: nothing depends on it. -/
@[irreducible]
def rounds : Nat := 4096

/-- `sha256_make_hash`, with what is on the stack where `ctx` lies. -/
def sha256MakeHash (ctx : Sha256Ctx) (password : Str) : Str :=
  sha256ToHex ((hashTwo password)^[rounds] (hashTwo password (ctx, bytes salt))).2

def sha256Verify (ctx : Sha256Ctx) (password hashHex : Str) : Bool :=
  kstrcmp (sha256MakeHash ctx password) hashHex = 0

/-- The digest of a password: salted, then hashed with it again and again. -/
def stretched (password : Str) : List Byte :=
  (fun hash => sha256 (hash ++ bytes password))^[rounds] (sha256 (bytes salt ++ bytes password))

theorem hashTwo_snd (password : Str) (s : Sha256Ctx × List Byte) :
    (hashTwo password s).2 = sha256 (s.2 ++ bytes password) := by
  have h := digest_of_chunks s.1 [s.2, bytes password]
  rwa [List.flatten_cons, List.flatten_singleton] at h

theorem length_hashTwo (password : Str) (s : Sha256Ctx × List Byte) :
    (hashTwo password s).2.length = 32 := by
  simp [hashTwo, sha256Final]

theorem sha256MakeHash_eq (ctx : Sha256Ctx) (password : Str) :
    sha256MakeHash ctx password = sha256ToHex (stretched password) := by
  have h : Function.Semiconj Prod.snd (hashTwo password) fun hash => sha256 (hash ++ bytes password) :=
    hashTwo_snd password
  rw [sha256MakeHash, h.iterate_right rounds, hashTwo_snd]
  rfl

/-- The byte of two digits. -/
def hexByte (c d : CChar) : Byte := BitVec.ofNat 8 (16 * hexDigits.idxOf c + hexDigits.idxOf d)

theorem hexByte_hexDigit : ∀ b : Byte,
    hexByte (hexDigit ((b >>> 4) &&& 0xF)) (hexDigit (b &&& 0xF)) = b := by
  decide +kernel

theorem sha256ToHex_injective : Function.Injective sha256ToHex
  | [], [], _ => rfl
  | a :: as, b :: bs, h => by
    simp only [sha256ToHex, List.flatMap_cons, List.cons_append, List.nil_append,
      List.cons.injEq] at h
    obtain ⟨hhigh, hlow, h⟩ := h
    rw [← hexByte_hexDigit a, hhigh, hlow, hexByte_hexDigit, sha256ToHex_injective h]

theorem length_sha256MakeHash (ctx : Sha256Ctx) (password : Str) :
    (sha256MakeHash ctx password).length = 64 := by
  have h : ((hashTwo password)^[rounds] (hashTwo password (ctx, bytes salt))).2.length = 32 := by
    rw [← Function.iterate_succ_apply, Function.iterate_succ_apply', length_hashTwo]
  simp [sha256MakeHash, sha256ToHex, List.length_flatMap, h]

theorem sha256Verify_iff (ctx : Sha256Ctx) (p q : Str) :
    sha256Verify ctx p (sha256ToHex (stretched q)) = true ↔ stretched p = stretched q := by
  rw [sha256Verify, decide_eq_true_iff, kstrcmp_eq_zero, sha256MakeHash_eq,
    sha256ToHex_injective.eq_iff]

/-- **A password passes exactly against its own digest**: `sha256_verify` accepts `p` for the text that
`sha256_make_hash` made of `q` if and only if their stretched digests agree, and the text has the 64
characters by which `auth_check` knows a hash. -/
theorem sha256_verify_exact (ctx ctx' : Sha256Ctx) (p q : Str) :
    (sha256Verify ctx p (sha256MakeHash ctx' q) = true ↔ stretched p = stretched q) ∧
      (sha256MakeHash ctx' q).length = 64 := by
  refine ⟨?_, length_sha256MakeHash ctx' q⟩
  rw [sha256MakeHash_eq, sha256Verify_iff]

end Sinux.Crypto

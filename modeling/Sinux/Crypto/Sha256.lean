import Sinux.Lib.Fips180
import Sinux.Lib.Loop
import Mathlib.Data.Fin.VecNotation

/-!
# SHA-256 (`lib/sha256.c`)

The context holds the bytes of the block that is not full yet, their number, the bits of the full
blocks, and the hash value.

* `Holds.updates`: after the bytes `m`, in whatever pieces they came, the context has hashed the full
  blocks of `m` and holds the rest.
* `sha256_streams`: `sha256_final` then gives the digest of `m`.

**Out of scope**: messages of `2 ^ 61` bytes and more, for which the standard has no digest.
-/

namespace Sinux.Crypto

open Function Sinux.Lib Sinux.Lib.Blocks Sinux.Lib.Fips180

/-! ## The code -/

def rotRight (a : BitVec 32) (b : Nat) : BitVec 32 := (a >>> b) ||| (a <<< (32 - b))

def CH (x y z : BitVec 32) : BitVec 32 := (x &&& y) ^^^ (~~~x &&& z)

def MAJ (x y z : BitVec 32) : BitVec 32 := (x &&& y) ^^^ (x &&& z) ^^^ (y &&& z)

def EP0 (x : BitVec 32) : BitVec 32 := rotRight x 2 ^^^ rotRight x 13 ^^^ rotRight x 22

def EP1 (x : BitVec 32) : BitVec 32 := rotRight x 6 ^^^ rotRight x 11 ^^^ rotRight x 25

def SIG0 (x : BitVec 32) : BitVec 32 := rotRight x 7 ^^^ rotRight x 18 ^^^ (x >>> 3)

def SIG1 (x : BitVec 32) : BitVec 32 := rotRight x 17 ^^^ rotRight x 19 ^^^ (x >>> 10)

/-- The table `k`. -/
def kTable : List (BitVec 32) := [
  0x428a2f98, 0x71374491, 0xb5c0fbcf, 0xe9b5dba5, 0x3956c25b, 0x59f111f1, 0x923f82a4, 0xab1c5ed5,
  0xd807aa98, 0x12835b01, 0x243185be, 0x550c7dc3, 0x72be5d74, 0x80deb1fe, 0x9bdc06a7, 0xc19bf174,
  0xe49b69c1, 0xefbe4786, 0x0fc19dc6, 0x240ca1cc, 0x2de92c6f, 0x4a7484aa, 0x5cb0a9dc, 0x76f988da,
  0x983e5152, 0xa831c66d, 0xb00327c8, 0xbf597fc7, 0xc6e00bf3, 0xd5a79147, 0x06ca6351, 0x14292967,
  0x27b70a85, 0x2e1b2138, 0x4d2c6dfc, 0x53380d13, 0x650a7354, 0x766a0abb, 0x81c2c92e, 0x92722c85,
  0xa2bfe8a1, 0xa81a664b, 0xc24b8b70, 0xc76c51a3, 0xd192e819, 0xd6990624, 0xf40e3585, 0x106aa070,
  0x19a4c116, 0x1e376c08, 0x2748774c, 0x34b0bcb5, 0x391c0cb3, 0x4ed8aa4a, 0x5b9cca4f, 0x682e6ff3,
  0x748f82ee, 0x78a5636f, 0x84c87814, 0x8cc70208, 0x90befffa, 0xa4506ceb, 0xbef9a3f7, 0xc67178f2]

/-- `sha256_ctx_t`. -/
structure Sha256Ctx where
  data : Fin 64 → BitVec 8
  datalen : BitVec 32
  bitlen : BitVec 64
  state : Fin 8 → BitVec 32

/-- The first loop of `sha256_transform`; every entry of `m` is written before it is read. -/
def loadWords (data : Fin 64 → BitVec 8) (m : Nat → BitVec 32) : Nat → BitVec 32 :=
  forUpTo 16 (fun i m => update m i.val
    (((data ⟨4 * i.val, by omega⟩).setWidth 32 <<< 24) |||
      ((data ⟨4 * i.val + 1, by omega⟩).setWidth 32 <<< 16) |||
      ((data ⟨4 * i.val + 2, by omega⟩).setWidth 32 <<< 8) |||
      (data ⟨4 * i.val + 3, by omega⟩).setWidth 32)) m

/-- The second loop. -/
def extendWords (m : Nat → BitVec 32) : Nat → BitVec 32 :=
  forUpTo 48 (fun j m => let i := j.val + 16
    update m i (SIG1 (m (i - 2)) + m (i - 7) + SIG0 (m (i - 15)) + m (i - 16))) m

/-- A round of the third loop. -/
def transformRound (m : Nat → BitVec 32) (i : Fin 64) (v : Work) : Work :=
  let t1 := v.h + EP1 v.e + CH v.e v.f v.g + kTable.getD i.val 0 + m i.val
  let t2 := EP0 v.a + MAJ v.a v.b v.c
  { a := t1 + t2, b := v.a, c := v.b, d := v.c, e := v.d + t1, f := v.e, g := v.f, h := v.g }

def sha256Transform (ctx : Sha256Ctx) (data : Fin 64 → BitVec 8) : Sha256Ctx :=
  let m := extendWords (loadWords data fun _ => 0)
  let s := ctx.state
  let v := forUpTo 64 (transformRound m) ⟨s 0, s 1, s 2, s 3, s 4, s 5, s 6, s 7⟩
  { ctx with state := fun j => s j + ![v.a, v.b, v.c, v.d, v.e, v.f, v.g, v.h] j }

def sha256Init (ctx : Sha256Ctx) : Sha256Ctx :=
  { ctx with
    datalen := 0
    bitlen := 0
    state := ![0x6a09e667, 0xbb67ae85, 0x3c6ef372, 0xa54ff53a, 0x510e527f, 0x9b05688c, 0x1f83d9ab,
      0x5be0cd19] }

/-- `data[i] = b`. -/
def put (data : Fin 64 → BitVec 8) (i : Nat) (b : BitVec 8) : Fin 64 → BitVec 8 :=
  fun j => if j.val = i then b else data j

/-- A round of the loop of `sha256_update`. -/
def updateByte (ctx : Sha256Ctx) (b : BitVec 8) : Sha256Ctx :=
  let ctx := { ctx with data := put ctx.data ctx.datalen.toNat b, datalen := ctx.datalen + 1 }
  if ctx.datalen = 64 then
    let ctx := sha256Transform ctx ctx.data
    { ctx with bitlen := ctx.bitlen + 512, datalen := 0 }
  else ctx

def sha256Update (ctx : Sha256Ctx) (data : List (BitVec 8)) : Sha256Ctx := data.foldl updateByte ctx

/-- `while (i < lim) data[i++] = 0x00;` -/
def zeroFrom (i lim : Nat) (data : Fin 64 → BitVec 8) : Fin 64 → BitVec 8 :=
  (List.range' i (lim - i)).foldl (fun d j => put d j 0) data

/-- The stores to `data[63]` down to `data[56]`. -/
def putLength (bitlen : BitVec 64) (data : Fin 64 → BitVec 8) : Fin 64 → BitVec 8 :=
  forUpTo 8 (fun j d => put d (63 - j.val) ((bitlen >>> (8 * j.val)).setWidth 8)) data

/-- The stores to `hash`. -/
def putHash (s : Fin 8 → BitVec 32) (hash : Nat → BitVec 8) : Nat → BitVec 8 :=
  forUpTo 4 (fun i => forUpTo 8 fun w h => update h (i.val + 4 * w.val)
    ((s w >>> (24 - i.val * 8) &&& 0x000000ff).setWidth 8)) hash

/-- `sha256_final`: the context after it, and `hash`. -/
def sha256Final (ctx : Sha256Ctx) : Sha256Ctx × List (BitVec 8) :=
  let i := ctx.datalen.toNat
  let ctx :=
    if ctx.datalen < 56 then { ctx with data := zeroFrom (i + 1) 56 (put ctx.data i 0x80) }
    else
      let ctx := { ctx with data := zeroFrom (i + 1) 64 (put ctx.data i 0x80) }
      let ctx := sha256Transform ctx ctx.data
      { ctx with data := zeroFrom 0 56 ctx.data }
  let bitlen := ctx.bitlen + (ctx.datalen * 8).setWidth 64
  let ctx := { ctx with bitlen := bitlen, data := putLength bitlen ctx.data }
  let ctx := sha256Transform ctx ctx.data
  (ctx, (List.range 32).map (putHash ctx.state fun _ => 0))

/-- `sha256_hash`, with what is on the stack where `ctx` lies. -/
def sha256Hash (ctx : Sha256Ctx) (data : List (BitVec 8)) : List (BitVec 8) :=
  (sha256Final (sha256Update (sha256Init ctx) data)).2

/-! ## The compression function -/

theorem rotRight_eq (x : BitVec 32) {b : Nat} (hb : b < 32) : rotRight x b = x.rotateRight b := by
  rw [BitVec.rotateRight_eq_rotateRightAux_of_lt hb]
  rfl

theorem EP0_eq (x : BitVec 32) : EP0 x = bigSigma0 x := by
  simp only [EP0, bigSigma0, rotRight_eq, Nat.reduceLT]

theorem EP1_eq (x : BitVec 32) : EP1 x = bigSigma1 x := by
  simp only [EP1, bigSigma1, rotRight_eq, Nat.reduceLT]

theorem SIG0_eq (x : BitVec 32) : SIG0 x = smallSigma0 x := by
  simp only [SIG0, smallSigma0, rotRight_eq, Nat.reduceLT]

theorem SIG1_eq (x : BitVec 32) : SIG1 x = smallSigma1 x := by
  simp only [SIG1, smallSigma1, rotRight_eq, Nat.reduceLT]

theorem kTable_eq : kTable = roundConstants := by decide +kernel

theorem append_bytes (a b c d : BitVec 8) : (a.setWidth 32 <<< 24) ||| (b.setWidth 32 <<< 16) |||
    (c.setWidth 32 <<< 8) ||| d.setWidth 32 = a ++ b ++ c ++ d := by
  apply BitVec.eq_of_getLsbD_eq
  intro i hi
  simp only [BitVec.getLsbD_or, BitVec.getLsbD_shiftLeft, BitVec.getLsbD_setWidth,
    BitVec.getLsbD_append]
  -- which byte bit `i` belongs to
  by_cases h1 : i < 8
  · simp [h1, hi, show i < 16 by omega, show i < 24 by omega]
  have hd : d.getLsbD i = false := BitVec.getLsbD_of_ge d i (by omega)
  by_cases h2 : i < 16
  · simp [h1, h2, hi, hd, show i < 24 by omega, show i - 8 < 8 by omega, show i - 8 < 32 by omega]
  have hc : c.getLsbD (i - 8) = false := BitVec.getLsbD_of_ge c _ (by omega)
  have hn1 : ¬ i - 8 < 8 := by omega
  by_cases h3 : i < 24
  · simp [h1, h2, h3, hi, hc, hd, hn1, show i - 16 < 32 by omega, show i - 8 - 8 = i - 16 by omega,
      show i - 16 < 8 by omega]
  have hb : b.getLsbD (i - 16) = false := BitVec.getLsbD_of_ge b _ (by omega)
  simp [h1, h2, h3, hi, hb, hc, hd, hn1, show i - 24 < 32 by omega, show i - 8 - 8 = i - 16 by omega,
    show ¬ i - 16 < 8 by omega, show i - 16 - 8 = i - 24 by omega]

theorem getD_ofFn {n : Nat} (f : Fin n → BitVec 8) {i : Nat} (h : i < n) :
    (List.ofFn f).getD i 0 = f ⟨i, h⟩ := by
  simp [List.getD_eq_getElem?_getD, h]

theorem loadWords_eq (data : Fin 64 → BitVec 8) (m : Nat → BitVec 32) :
    ∀ t < 16, loadWords data m t = blockWord (List.ofFn data) t := by
  refine forUpTo_inv (fun k (m : Nat → BitVec 32) => ∀ t < k, m t = blockWord (List.ofFn data) t) _
    (fun t ht => absurd ht (Nat.not_lt_zero t)) fun i m h t ht => ?_
  by_cases hi : t = i.val
  · rw [hi, update_self, append_bytes]
    simp only [blockWord, getD_ofFn data (show 4 * i.val < 64 by omega),
      getD_ofFn data (show 4 * i.val + 1 < 64 by omega),
      getD_ofFn data (show 4 * i.val + 2 < 64 by omega),
      getD_ofFn data (show 4 * i.val + 3 < 64 by omega)]
  · rw [update_of_ne hi]
    exact h t (by omega)

theorem extendWords_eq (b : List (BitVec 8)) {m : Nat → BitVec 32}
    (hm : ∀ t < 16, m t = blockWord b t) : ∀ t < 64, extendWords m t = schedule b t := by
  show ∀ t < 16 + 48, _
  refine forUpTo_inv (fun k (m : Nat → BitVec 32) => ∀ t < 16 + k, m t = schedule b t) _
    (fun t ht => ?_) fun i m h t ht => ?_
  · rw [schedule, if_pos ht]
    exact hm t ht
  · by_cases hi : t = i.val + 16
    · have hnot : ¬ i.val + 16 < 16 := by omega
      rw [hi, update_self, schedule, if_neg hnot, h _ (by omega), h _ (by omega),
        h _ (by omega), h _ (by omega), SIG0_eq, SIG1_eq]
    · rw [update_of_ne hi]
      exact h t (by omega)

theorem rounds_eq (b : List (BitVec 8)) {m : Nat → BitVec 32}
    (hm : ∀ t < 64, m t = schedule b t) (v : Work) : forUpTo 64 (transformRound m) v =
      (List.range 64).foldl (fun v t => round (roundConstants.getD t 0) (schedule b t) v) v := by
  have hround (i : Fin 64) (v : Work) : transformRound m i v =
      round (roundConstants.getD i.val 0) (schedule b i.val) v := by
    simp only [transformRound, kTable_eq, hm i.val i.isLt, EP0_eq, EP1_eq]
    rfl
  rw [forUpTo, ← List.map_coe_finRange_eq_range, List.foldl_map]
  exact List.foldl_ext _ _ _ fun v i _ => hround i v

theorem sha256Transform_state (ctx : Sha256Ctx) (data : Fin 64 → BitVec 8) :
    List.ofFn (sha256Transform ctx data).state =
      compress (List.ofFn ctx.state) (List.ofFn data) := by
  have hm := extendWords_eq (List.ofFn data) (loadWords_eq data fun _ => 0)
  unfold sha256Transform compress
  dsimp only
  rw [rounds_eq (List.ofFn data) hm]
  simp only [List.ofFn_succ, List.ofFn_zero]
  rfl

theorem sha256Transform_bitlen (ctx : Sha256Ctx) (data : Fin 64 → BitVec 8) :
    (sha256Transform ctx data).bitlen = ctx.bitlen := rfl

theorem sha256Transform_datalen (ctx : Sha256Ctx) (data : Fin 64 → BitVec 8) :
    (sha256Transform ctx data).datalen = ctx.datalen := rfl

/-! ## Streaming -/

/-- A full block: its hash value and 512 bits more. -/
def absorbBlock (s : List Word × BitVec 64) (b : List (BitVec 8)) : List Word × BitVec 64 :=
  (compress s.1 b, s.2 + 512)

/-- The context holds a hash value with its number of bits, and the bytes of a block begun. -/
structure Holds (ctx : Sha256Ctx) (s : (List Word × BitVec 64) × List (BitVec 8)) : Prop where
  state : List.ofFn ctx.state = s.1.1
  bitlen : ctx.bitlen = s.1.2
  datalen : ctx.datalen = BitVec.ofNat 32 s.2.length
  short : s.2.length < 64
  data : ∀ j : Fin 64, j.val < s.2.length → ctx.data j = s.2.getD j.val 0

theorem ofFn_data {d : Fin 64 → BitVec 8} {l : List (BitVec 8)} (hl : l.length = 64)
    (h : ∀ j : Fin 64, d j = l.getD j.val 0) : List.ofFn d = l := by
  refine List.ext_getElem (by simp [hl]) fun j hj hj' => ?_
  rw [List.getElem_ofFn, h, List.getD_eq_getElem?_getD, List.getElem?_eq_getElem hj']
  rfl

section Update

variable {ctx : Sha256Ctx} {s : (List Word × BitVec 64) × List (BitVec 8)}

theorem Holds.datalen_toNat (h : Holds ctx s) : ctx.datalen.toNat = s.2.length := by
  have := h.short
  rw [h.datalen, BitVec.toNat_ofNat, Nat.mod_eq_of_lt (by omega)]

theorem Holds.put_eq (h : Holds ctx s) (b : BitVec 8) (j : Fin 64) (hj : j.val < s.2.length + 1) :
    put ctx.data ctx.datalen.toNat b j = (s.2 ++ [b]).getD j.val 0 := by
  unfold put
  rw [h.datalen_toNat]
  by_cases hlast : j.val = s.2.length
  · rw [if_pos hlast, hlast]
    simp
  · have hlt : j.val < s.2.length := by omega
    rw [if_neg hlast, h.data j hlt, List.getD_eq_getElem?_getD, List.getD_eq_getElem?_getD,
      List.getElem?_append_left hlt]

theorem Holds.update (h : Holds ctx s) (b : BitVec 8) :
    Holds (updateByte ctx b) (feed 64 absorbBlock s b) := by
  have hshort := h.short
  have hsucc : ctx.datalen + 1 = BitVec.ofNat 32 (s.2.length + 1) := by
    rw [h.datalen, BitVec.ofNat_add]
    rfl
  have hfull : ctx.datalen + 1 = 64 ↔ s.2.length + 1 = 64 := by
    rw [hsucc, ← BitVec.toNat_inj, BitVec.toNat_ofNat, Nat.mod_eq_of_lt (by omega)]
    exact Iff.rfl
  have hlen : (s.2 ++ [b]).length = s.2.length + 1 := by simp
  unfold updateByte feed
  by_cases hb : s.2.length + 1 = 64
  · rw [if_pos hb]
    dsimp only
    rw [if_pos (hfull.mpr hb)]
    have hblock : List.ofFn (put ctx.data ctx.datalen.toNat b) = s.2 ++ [b] :=
      ofFn_data (hlen.trans hb) fun j => h.put_eq b j (by omega)
    refine ⟨?_, ?_, rfl, Nat.zero_lt_succ 63, fun j hj => absurd hj (Nat.not_lt_zero _)⟩
    · show List.ofFn (sha256Transform _ _).state = compress s.1.1 (s.2 ++ [b])
      rw [sha256Transform_state, hblock, ← h.state]
    · show ctx.bitlen + 512 = s.1.2 + 512
      rw [h.bitlen]
  · rw [if_neg hb]
    dsimp only
    rw [if_neg fun hx => hb (hfull.mp hx)]
    exact ⟨h.state, h.bitlen, hsucc.trans (congrArg _ hlen.symm), by rw [hlen]; omega,
      fun j hj => h.put_eq b j (hlen ▸ hj)⟩

theorem Holds.updates (h : Holds ctx s) (chunks : List (List (BitVec 8))) :
    Holds (chunks.foldl sha256Update ctx) (chunks.flatten.foldl (feed 64 absorbBlock) s) := by
  have hbytes : chunks.foldl sha256Update ctx = chunks.flatten.foldl updateByte ctx :=
    List.foldl_flatten.symm
  rw [hbytes]
  clear hbytes
  generalize chunks.flatten = m
  induction m generalizing ctx s with
  | nil => exact h
  | cons b m ih => exact ih (h.update b)

end Update

theorem initialHash_eq : initialHash = [0x6a09e667, 0xbb67ae85, 0x3c6ef372, 0xa54ff53a, 0x510e527f,
    0x9b05688c, 0x1f83d9ab, 0x5be0cd19] := by
  decide +kernel

theorem holds_init (ctx : Sha256Ctx) : Holds (sha256Init ctx) ((initialHash, 0#64), []) := by
  refine ⟨?_, rfl, rfl, by decide, fun j hj => absurd hj (Nat.not_lt_zero _)⟩
  rw [initialHash_eq]
  rfl

/-! ## The last blocks -/

theorem zeroFrom_apply (i lim : Nat) (data : Fin 64 → BitVec 8) (j : Fin 64) :
    zeroFrom i lim data j = if i ≤ j.val ∧ j.val < lim then 0 else data j := by
  have hfold (l : List Nat) : ∀ data : Fin 64 → BitVec 8,
      l.foldl (fun d j => put d j 0) data j = if j.val ∈ l then 0 else data j := by
    induction l with
    | nil => exact fun _ => (if_neg List.not_mem_nil).symm
    | cons k l ih =>
      intro data
      rw [List.foldl_cons, ih, put]
      by_cases hk : j.val = k <;> by_cases hl : j.val ∈ l <;> simp [hk, hl]
  unfold zeroFrom
  rw [hfold]
  refine if_congr ?_ rfl rfl
  rw [List.mem_range'_1]
  omega

theorem putLength_apply (n : BitVec 64) (data : Fin 64 → BitVec 8) (j : Fin 64) :
    putLength n data j =
      if 56 ≤ j.val then (n >>> (8 * (63 - j.val))).setWidth 8 else data j := by
  refine forUpTo_inv (fun k (d : Fin 64 → BitVec 8) => d j =
      if 64 - k ≤ j.val then (n >>> (8 * (63 - j.val))).setWidth 8 else data j) (n := 8) _
    (if_neg (by omega)).symm fun i d h => ?_
  unfold put
  by_cases hj : j.val = 63 - i.val
  · have hi : 63 - j.val = i.val := by omega
    rw [if_pos hj, if_pos (by omega), hi]
  · rw [if_neg hj, h]
    exact if_congr (by omega) rfl rfl

theorem mask_byte (x : BitVec 32) : (x &&& 0x000000ff).setWidth 8 = x.setWidth 8 := by
  rw [BitVec.setWidth_and, show (0x000000ff : BitVec 32).setWidth 8 = BitVec.allOnes 8 from by decide,
    BitVec.and_allOnes]

theorem putHash_apply (s : Fin 8 → BitVec 32) (hash : Nat → BitVec 8) (w : Fin 8) (i : Fin 4) :
    putHash s hash (i.val + 4 * w.val) = (s w >>> (24 - i.val * 8)).setWidth 8 := by
  have hinner (i' : Fin 4) (h : Nat → BitVec 8) :
      forUpTo 8 (fun w h => update h (i'.val + 4 * w.val)
        ((s w >>> (24 - i'.val * 8) &&& 0x000000ff).setWidth 8)) h (i.val + 4 * w.val) =
      if i = i' then (s w >>> (24 - i.val * 8)).setWidth 8 else h (i.val + 4 * w.val) := by
    refine (forUpTo_inv (fun k (h' : Nat → BitVec 8) => h' (i.val + 4 * w.val) =
        if i = i' ∧ w.val < k then (s w >>> (24 - i.val * 8)).setWidth 8
        else h (i.val + 4 * w.val)) (n := 8) _ (if_neg (by omega)).symm fun w' h' hk => ?_).trans ?_
    · by_cases he : i.val + 4 * w.val = i'.val + 4 * w'.val
      · have hi : i = i' := Fin.ext (by omega)
        have hw : w = w' := Fin.ext (by omega)
        rw [hi, hw, update_self, if_pos ⟨rfl, Nat.lt_succ_self _⟩, mask_byte]
      · rw [update_of_ne he, hk]
        refine if_congr ?_ rfl rfl
        rw [Fin.ext_iff]
        omega
    · exact if_congr (and_iff_left w.isLt) rfl rfl
  refine (forUpTo_inv (fun k (h : Nat → BitVec 8) => i.val < k →
    h (i.val + 4 * w.val) = (s w >>> (24 - i.val * 8)).setWidth 8) (n := 4) _
    (fun h => absurd h (Nat.not_lt_zero _)) fun i' h hk hlt => ?_) i.isLt
  rw [hinner]
  by_cases hi : i = i'
  · rw [if_pos hi]
  · rw [if_neg hi]
    refine hk ?_
    have := Fin.val_ne_of_ne hi
    omega

theorem putHash_bytes (s : Fin 8 → BitVec 32) (hash : Nat → BitVec 8) :
    (List.range 32).map (putHash s hash) = (List.ofFn s).flatMap wordBytes := by
  have hrange : List.range 32 =
      (List.finRange 8).flatMap fun w => (List.range 4).map fun i => i + 4 * w.val := by
    decide
  rw [hrange, List.map_flatMap, List.ofFn_eq_map, List.flatMap_map]
  congr 1
  funext w
  rw [List.map_map]
  refine List.map_congr_left fun i hi => ?_
  rw [Nat.mul_comm 8 i]
  exact putHash_apply s hash w ⟨i, List.mem_range.mp hi⟩

theorem ofFn_last {d : Fin 64 → BitVec 8} {l t : List (BitVec 8)} (hl : l.length + 1 + t.length ≤ 64)
    (hdata : ∀ j : Fin 64, j.val < l.length → d j = l.getD j.val 0)
    (hend : ∀ j : Fin 64, j.val = l.length → d j = 0x80)
    (hzero : ∀ j : Fin 64, l.length < j.val → j.val < 64 - t.length → d j = 0)
    (htail : ∀ j : Fin 64, 64 - t.length ≤ j.val → d j = t.getD (j.val - (64 - t.length)) 0) :
    List.ofFn d = l ++ 0x80 :: (List.replicate (63 - l.length - t.length) 0 ++ t) := by
  refine ofFn_data ?_ fun j => ?_
  · simp only [List.length_append, List.length_cons, List.length_replicate]
    omega
  rw [List.getD_eq_getElem?_getD, List.getElem?_append]
  by_cases h1 : j.val < l.length
  · rw [if_pos h1, hdata j h1, List.getD_eq_getElem?_getD]
  rw [if_neg h1]
  by_cases h2 : j.val = l.length
  · rw [hend j h2, h2, Nat.sub_self]
    rfl
  have hcons : j.val - l.length = (j.val - l.length - 1) + 1 := by omega
  rw [hcons, List.getElem?_cons_succ, List.getElem?_append, List.length_replicate,
    List.getElem?_replicate]
  by_cases h3 : j.val < 64 - t.length
  · have hlt : j.val - l.length - 1 < 63 - l.length - t.length := by omega
    rw [if_pos hlt, if_pos hlt, hzero j (by omega) h3]
    rfl
  · have hge : ¬ j.val - l.length - 1 < 63 - l.length - t.length := by omega
    have hidx : j.val - l.length - 1 - (63 - l.length - t.length) = j.val - (64 - t.length) := by
      omega
    rw [if_neg hge, htail j (by omega), hidx, List.getD_eq_getElem?_getD]

theorem lengthBytes_length (n : BitVec 64) : (lengthBytes n).length = 8 := by
  simp [lengthBytes]

theorem lengthBytes_getD (n : BitVec 64) {i : Nat} (hi : i < 8) :
    (lengthBytes n).getD i 0 = (n >>> (56 - 8 * i)).setWidth 8 := by
  simp [lengthBytes, List.getD_eq_getElem?_getD, hi]

theorem putLength_tail (n : BitVec 64) (data : Fin 64 → BitVec 8) (j : Fin 64) (hj : 56 ≤ j.val) :
    putLength n data j = (lengthBytes n).getD (j.val - 56) 0 := by
  rw [putLength_apply, if_pos hj, lengthBytes_getD n (by omega)]
  congr 2
  omega

theorem putLength_front (n : BitVec 64) (data : Fin 64 → BitVec 8) (j : Fin 64) (hj : j.val < 56) :
    putLength n data j = data j := by
  rw [putLength_apply, if_neg (by omega)]

section Final

variable {ctx : Sha256Ctx} {h : List Word} {bits : BitVec 64} {l : List (BitVec 8)}

/-- What `sha256_final` hashes behind the full blocks. -/
def ending (l : List (BitVec 8)) (bits : BitVec 64) : List (BitVec 8) :=
  l ++ 0x80 :: (List.replicate (zeros l.length) 0 ++
    lengthBytes (bits + BitVec.ofNat 64 (8 * l.length)))

theorem Holds.last_block (hh : Holds ctx ((h, bits), l)) (h56 : l.length < 56) (n : BitVec 64) :
    List.ofFn (putLength n (zeroFrom (l.length + 1) 56 (put ctx.data l.length 0x80))) =
      l ++ 0x80 :: (List.replicate (zeros l.length) 0 ++ lengthBytes n) := by
  have hz : zeros l.length = 63 - l.length - (lengthBytes n).length := by
    rw [lengthBytes_length, zeros]
    omega
  rw [hz]
  refine ofFn_last (by rw [lengthBytes_length]; omega) (fun j hj => ?_) (fun j hj => ?_)
    (fun j hj hj' => ?_) fun j hj => ?_
  · rw [putLength_front n _ j (by omega), zeroFrom_apply, if_neg (by omega), put,
      if_neg (by omega)]
    exact hh.data j hj
  · rw [putLength_front n _ j (by omega), zeroFrom_apply, if_neg (by omega), put, if_pos hj]
  · rw [lengthBytes_length] at hj'
    rw [putLength_front n _ j (by omega), zeroFrom_apply, if_pos (by omega)]
  · rw [lengthBytes_length] at hj ⊢
    exact putLength_tail n _ j hj

theorem Holds.full_block (hh : Holds ctx ((h, bits), l)) :
    List.ofFn (zeroFrom (l.length + 1) 64 (put ctx.data l.length 0x80)) =
      l ++ 0x80 :: List.replicate (63 - l.length) 0 := by
  have hshort : l.length < 64 := hh.short
  have h := ofFn_last (d := zeroFrom (l.length + 1) 64 (put ctx.data l.length 0x80)) (l := l)
    (t := []) (by show l.length + 1 + 0 ≤ 64; omega) (fun j hj => ?_) (fun j hj => ?_)
    (fun j hj _ => ?_) fun j hj => ?_
  · rw [List.append_nil] at h
    exact h
  · rw [zeroFrom_apply, if_neg (by omega), put, if_neg (by omega)]
    exact hh.data j hj
  · rw [zeroFrom_apply, if_neg (by omega), put, if_pos hj]
  · rw [zeroFrom_apply, if_pos (by omega)]
  · have hj : 64 ≤ j.val := hj
    omega

theorem length_block (n : BitVec 64) (data : Fin 64 → BitVec 8) :
    List.ofFn (putLength n (zeroFrom 0 56 data)) = List.replicate 56 0 ++ lengthBytes n := by
  refine ofFn_data (by rw [List.length_append, List.length_replicate, lengthBytes_length])
    fun j => ?_
  rw [List.getD_eq_getElem?_getD, List.getElem?_append, List.length_replicate]
  by_cases hj : j.val < 56
  · rw [putLength_front n _ j hj, zeroFrom_apply, if_pos ⟨Nat.zero_le _, hj⟩, if_pos hj,
      List.getElem?_replicate, if_pos hj]
    rfl
  · rw [putLength_tail n _ j (by omega), if_neg hj, List.getD_eq_getElem?_getD]

theorem Holds.final (hh : Holds ctx ((h, bits), l)) :
    (sha256Final ctx).2 = ((blocks 64 (ending l bits)).foldl compress h).flatMap wordBytes := by
  have hshort : l.length < 64 := hh.short
  have hlen : ctx.datalen.toNat = l.length := hh.datalen_toNat
  have hstate : List.ofFn ctx.state = h := hh.state
  have hbits : ctx.bitlen + (ctx.datalen * 8).setWidth 64 =
      bits + BitVec.ofNat 64 (8 * l.length) := by
    rw [show ctx.bitlen = bits from hh.bitlen]
    congr 1
    apply BitVec.eq_of_toNat_eq
    rw [BitVec.toNat_setWidth, BitVec.toNat_mul, hlen, BitVec.toNat_ofNat]
    show (l.length * 8 % 2 ^ 32) % 2 ^ 64 = _
    omega
  have hlt : ctx.datalen < 56 ↔ l.length < 56 := by
    rw [BitVec.lt_def, hlen]
    exact Iff.rfl
  unfold sha256Final ending
  dsimp only
  rw [putHash_bytes, sha256Transform_state, hlen]
  by_cases h56 : l.length < 56
  · rw [if_pos (hlt.mpr h56)]
    dsimp only
    rw [hbits, hh.last_block h56, hstate, blocks_self (by decide)]
    · rfl
    · simp only [List.length_append, List.length_cons, List.length_replicate, lengthBytes_length,
        zeros]
      omega
  · rw [if_neg fun hx => h56 (hlt.mp hx)]
    dsimp only
    rw [sha256Transform_bitlen, sha256Transform_datalen, hbits, length_block, sha256Transform_state,
      hh.full_block, hstate]
    have hsplit : l ++ 0x80 :: (List.replicate (zeros l.length) 0 ++
        lengthBytes (bits + BitVec.ofNat 64 (8 * l.length))) =
        (l ++ 0x80 :: List.replicate (63 - l.length) 0) ++
          (List.replicate 56 0 ++ lengthBytes (bits + BitVec.ofNat 64 (8 * l.length))) := by
      have hz : zeros l.length = (63 - l.length) + 56 := by
        unfold zeros
        omega
      rw [hz, List.replicate_add]
      simp only [List.append_assoc, List.cons_append]
    have hfirst : (l ++ 0x80 :: List.replicate (63 - l.length) (0 : BitVec 8)).length = 64 := by
      simp only [List.length_append, List.length_cons, List.length_replicate]
      omega
    have hlast : (List.replicate 56 (0 : BitVec 8) ++
        lengthBytes (bits + BitVec.ofNat 64 (8 * l.length))).length = 64 := by
      rw [List.length_append, List.length_replicate, lengthBytes_length]
    rw [hsplit, blocks_append ⟨1, hfirst⟩, blocks_self (by decide) hfirst,
      blocks_self (by decide) hlast]
    rfl

end Final

theorem absorbBlock_fold (bs : List (List (BitVec 8))) (h : List Word) (bits : BitVec 64) :
    bs.foldl absorbBlock (h, bits) =
      (bs.foldl compress h, bits + BitVec.ofNat 64 (512 * bs.length)) := by
  induction bs generalizing h bits with
  | nil => simp
  | cons b bs ih =>
    have hnext : BitVec.ofNat 64 (512 * (bs.length + 1)) = 512 + BitVec.ofNat 64 (512 * bs.length) := by
      rw [Nat.mul_succ, Nat.add_comm, BitVec.ofNat_add]
      rfl
    rw [List.foldl_cons, absorbBlock, ih, List.foldl_cons, List.length_cons, hnext, BitVec.add_assoc]

theorem blocks_length (n : Nat) (m : List (BitVec 8)) : (blocks n m).length = m.length / n := by
  simp [blocks]

theorem blocks_pad (m : List (BitVec 8)) : blocks 64 (pad m) =
    blocks 64 m ++ blocks 64 (ending (rest 64 m) (BitVec.ofNat 64 (512 * (m.length / 64)))) := by
  have hz : zeros (rest 64 m).length = zeros m.length := by
    rw [zeros, zeros, rest_length, Nat.mod_mod]
  have hbits : BitVec.ofNat 64 (512 * (m.length / 64)) + BitVec.ofNat 64 (8 * (rest 64 m).length) =
      BitVec.ofNat 64 (8 * m.length) := by
    rw [← BitVec.ofNat_add, rest_length]
    congr 1
    omega
  rw [ending, hz, hbits]
  exact blocks_append_rest (by decide) m _

theorem digest_of_chunks (ctx : Sha256Ctx) (chunks : List (List (BitVec 8))) :
    (sha256Final (chunks.foldl sha256Update (sha256Init ctx))).2 = sha256 chunks.flatten := by
  have h := (holds_init ctx).updates chunks
  rw [feed_fold (by decide), absorbBlock_fold, blocks_length, BitVec.zero_add] at h
  rw [h.final, sha256, blocks_pad, List.foldl_append]

theorem sha256Hash_eq (ctx : Sha256Ctx) (m : List (BitVec 8)) : sha256Hash ctx m = sha256 m := by
  have h := digest_of_chunks ctx [m]
  rwa [List.flatten_singleton] at h

/-- **SHA-256 of every message, in whatever pieces.** However a message is divided among calls of
`sha256_update`, empty ones included, and whatever the context held before, the 32 bytes are the
digest of the standard, and `sha256_hash` gives the same. -/
theorem sha256_streams (ctx ctx' : Sha256Ctx) (chunks : List (List (BitVec 8))) :
    (sha256Final (chunks.foldl sha256Update (sha256Init ctx))).2 = sha256 chunks.flatten ∧
    sha256Hash ctx' chunks.flatten = sha256 chunks.flatten :=
  ⟨digest_of_chunks ctx chunks, sha256Hash_eq ctx' chunks.flatten⟩

end Sinux.Crypto

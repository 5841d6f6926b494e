import Sinux.Lib.Loop
import Mathlib.Algebra.GroupWithZero.Nat
import Mathlib.Data.BitVec
import Mathlib.Logic.Function.Basic

/-!
# The framebuffer console (`drivers/fb.c`)

The model:

- `Fb` holds the statics of the driver. `mem` is the memory from `fb_addr` on, byte by byte; `asked`
  keeps the pixels that `fb_putpixel` was called for, on the screen or not.
- The offset of a row is the product of two `uint32_t`, so it is taken modulo `2 ^ 32` (`Screen.row`).

Results:

- `fbPutc_onScreen`: a character leaves the cursor, and draws, inside the screen.
- `fbScroll_law`: where no offset wraps, a scroll moves the rows up, clears the last 16 and touches
  nothing else.
- `console_on_screen`: both for every sequence of characters after `fb_init`.
- `fbScroll_wraps`: a screen whose last row wraps is not scrolled so.

**Out of scope**: `fb_set_info`, which sets `fb_addr` and the size of the screen.
-/

namespace Sinux.Drivers.Framebuffer

open Function Sinux.Lib

abbrev U32 := BitVec 32

/-! ## The code -/

/-- `font8x16`: the 16 bytes of a glyph as one number, the first row highest. -/
def font8x16 : List (BitVec 128) := [
  0x00000000000000000000000000000000, 0x00001818181818181800181800000000,
  0x00006666660000000000000000000000, 0x000036367f3636367f36360000000000,
  0x00083e6b68683e0b0b6b3e0800000000, 0x00006363060c18306063630000000000,
  0x00001c36361c3b6e66663b0000000000, 0x00001818180000000000000000000000,
  0x00000c181830303018180c0000000000, 0x00003018180c0c0c1818300000000000,
  0x000000663cff3c660000000000000000, 0x000000181818ff181818000000000000,
  0x00000000000000000018183000000000, 0x000000000000ff000000000000000000,
  0x00000000000000000018180000000000, 0x00000103060c18306040000000000000,
  0x00003c66666e766666663c0000000000, 0x000018381818181818187e0000000000,
  0x00003c6666060c1830607e0000000000, 0x00003c6606061c0606663c0000000000,
  0x0000060e1e36667f0606060000000000, 0x00007e6060607c0606663c0000000000,
  0x00001c3060607c6666663c0000000000, 0x00007e06060c18303030300000000000,
  0x00003c6666663c6666663c0000000000, 0x00003c6666663e06060c380000000000,
  0x00000000181800001818000000000000, 0x00000000181800001818300000000000,
  0x0000060c18306030180c060000000000, 0x00000000007e007e0000000000000000,
  0x00006030180c060c1830600000000000, 0x00003c6606060c181800180000000000,
  0x00003c66666e6e6e60603c0000000000, 0x0000183c66667e666666660000000000,
  0x00007c6666667c6666667c0000000000, 0x00003c666060606060663c0000000000,
  0x0000786c66666666666c780000000000, 0x00007e6060607c6060607e0000000000,
  0x00007e6060607c606060600000000000, 0x00003c6660606e6666663c0000000000,
  0x0000666666667e666666660000000000, 0x00003c181818181818183c0000000000,
  0x00001e0c0c0c0c0c6c6c380000000000, 0x0000666c78706070786c660000000000,
  0x000060606060606060607e0000000000, 0x000063777f6b63636363630000000000,
  0x000066767e7e6e666666660000000000, 0x00003c666666666666663c0000000000,
  0x00007c6666667c606060600000000000, 0x00003c6666666666666e3c0600000000,
  0x00007c6666667c786c66660000000000, 0x00003c6660603c0606663c0000000000,
  0x00007e18181818181818180000000000, 0x000066666666666666663c0000000000,
  0x0000666666666666663c180000000000, 0x0000636363636b6b7f77630000000000,
  0x00006666663c183c6666660000000000, 0x0000666666663c181818180000000000,
  0x00007e06060c183060607e0000000000, 0x00003c303030303030303c0000000000,
  0x0000406030180c060301000000000000, 0x00003c0c0c0c0c0c0c0c3c0000000000,
  0x0000081c366300000000000000000000, 0x00000000000000000000007e00000000,
  0x000018180c0000000000000000000000, 0x00000000003c063e66663b0000000000,
  0x00006060607c666666667c0000000000, 0x00000000003c666060663c0000000000,
  0x00000606063e666666663b0000000000, 0x00000000003c667e60663c0000000000,
  0x00001c3030307c303030300000000000, 0x00000000003b6666663e06663c000000,
  0x00006060607c66666666660000000000, 0x000018000038181818183c0000000000,
  0x00000600000e06060606663c00000000, 0x00006060666c78786c66660000000000,
  0x000038181818181818183c0000000000, 0x0000000000667f7f6b63630000000000,
  0x00000000007c66666666660000000000, 0x00000000003c666666663c0000000000,
  0x00000000007c6666667c606060000000, 0x00000000003b6666663e060606000000,
  0x00000000006c76606060600000000000, 0x00000000003c66380c663c0000000000,
  0x00003030307e303030301c0000000000, 0x000000000066666666663b0000000000,
  0x0000000000666666663c180000000000, 0x000000000063636b7f77630000000000,
  0x0000000000663c18183c660000000000, 0x0000000000666666663e060c78000000,
  0x00000000007e0c1830607e0000000000, 0x00000e181818701818180e0000000000,
  0x00001818181818181818180000000000, 0x0000701818180e181818700000000000,
  0x00003b6e000000000000000000000000]

/-- What `fb_set_info` sets. -/
structure Screen where
  addr : BitVec 64
  pitch : U32
  w : U32
  h : U32
  bpp : BitVec 8

structure Fb extends Screen where
  curX : U32
  curY : U32
  colFg : U32
  colBg : U32
  mem : Nat → BitVec 8
  asked : List (U32 × U32)

/-- Byte `i` of a word in memory. -/
def byteOf (v : U32) (i : Nat) : BitVec 8 := (v >>> (8 * i)).setWidth 8

/-- The store of a `uint32_t`. -/
def put32 (m : Nat → BitVec 8) (o : Nat) (v : U32) : Nat → BitVec 8 :=
  fun i => if o ≤ i ∧ i < o + 4 then byteOf v (i - o) else m i

/-- `y * fb_pitch`. -/
def Screen.row (s : Screen) (y : U32) : Nat := (y * s.pitch).toNat

/-- `fb_putpixel`: nothing is written outside the screen. -/
def fbPutpixel (x y rgb : U32) (fb : Fb) : Fb :=
  let fb := { fb with asked := (x, y) :: fb.asked }
  if fb.addr = 0 ∨ x ≥ fb.w ∨ y ≥ fb.h then fb
  else { fb with mem := put32 fb.mem (fb.row y + 4 * x.toNat) rgb }

def fbFillRect (x y w h rgb : U32) (fb : Fb) : Fb :=
  forUpTo h.toNat (fun dy => forUpTo w.toNat fun dx =>
    fbPutpixel (x + BitVec.ofNat 32 dx) (y + BitVec.ofNat 32 dy) rgb) fb

def fbClear (rgb : U32) (fb : Fb) : Fb := fbFillRect 0 0 fb.w fb.h rgb fb

def fbInit (fb : Fb) : Fb :=
  if fb.addr = 0 then fb else { fbClear fb.colBg fb with curX := 0, curY := 0 }

/-- The index into the font; `char` is signed. -/
def fontIndex (c : BitVec 8) : Nat :=
  ((if c.toInt < 0x20 ∨ c.toInt > 0x7e then 0x20 else c) - 0x20).toNat

def drawGlyph (px py : U32) (c : BitVec 8) (fg bg : U32) (fb : Fb) : Fb :=
  let glyph := font8x16.getD (fontIndex c) 0
  forUpTo 16 (fun row =>
    let bits : BitVec 8 := (glyph >>> (8 * (15 - row.val))).setWidth 8
    forUpTo 8 fun col =>
      let color := if bits &&& (0x80 >>> col.val) ≠ 0 then fg else bg
      fbPutpixel (px + BitVec.ofNat 32 col) (py + BitVec.ofNat 32 row) color) fb

/-- `kmemcpy` between two offsets. -/
def kmemcpy (d s n : Nat) (m : Nat → BitVec 8) : Nat → BitVec 8 :=
  forUpTo n (fun i m => update m (d + i) (m (s + i))) m

/-- The first loop of `fb_scroll`, over the `y` with `y + 16 < fb_h`. -/
def moveRows (fb : Fb) (m : Nat → BitVec 8) : Nat → BitVec 8 :=
  let rowBytes := fb.w * (fb.bpp.setWidth 32 / 8)
  forUpTo (fb.h.toNat - 16) (fun y => kmemcpy (fb.row (BitVec.ofNat 32 y))
    (fb.row (BitVec.ofNat 32 y + 16)) rowBytes.toNat) m

/-- The inner loop of the second one. -/
def clearRow (fb : Fb) (y : U32) (m : Nat → BitVec 8) : Nat → BitVec 8 :=
  forUpTo fb.w.toNat (fun x m => put32 m (fb.row y + 4 * x) fb.colBg) m

/-- The second loop, from `fb_h - 16` on. -/
def clearRows (fb : Fb) (m : Nat → BitVec 8) : Nat → BitVec 8 :=
  forUpTo (fb.h.toNat - (fb.h - 16).toNat) (fun i => clearRow fb (fb.h - 16 + BitVec.ofNat 32 i)) m

def fbScroll (fb : Fb) : Fb :=
  { fb with mem := clearRows fb (moveRows fb fb.mem), curY := fb.h - 16 }

/-- The lines that `'\n'` and a wrap share. -/
def newline (fb : Fb) : Fb :=
  let fb := { fb with curX := 0, curY := fb.curY + 16 }
  if fb.curY + 16 > fb.h then fbScroll fb else fb

/-- The lines behind a glyph. -/
def advance (fb : Fb) : Fb :=
  let fb := { fb with curX := fb.curX + 8 }
  if fb.curX + 8 > fb.w then newline fb else fb

def fbPutc (fb : Fb) (c : BitVec 8) : Fb :=
  if fb.addr = 0 then fb
  else if c = 10 then newline fb
  else if c = 13 then { fb with curX := 0 }
  else if c = 8 then
    let fb := if fb.curX ≥ 8 then { fb with curX := fb.curX - 8 } else fb
    drawGlyph fb.curX fb.curY 32 fb.colFg fb.colBg fb
  else advance (drawGlyph fb.curX fb.curY c fb.colFg fb.colBg fb)

/-- `fb_init` and characters after it. -/
def console (fb : Fb) (cs : List (BitVec 8)) : Fb :=
  cs.foldl fbPutc (fbInit { fb with asked := [] })

/-! ## Statements -/

/-- A framebuffer that the driver is made for. -/
structure Geometry (s : Screen) : Prop where
  addr : s.addr ≠ 0
  width : 8 ≤ s.w.toNat ∧ s.w.toNat < 2 ^ 28
  height : 16 ≤ s.h.toNat ∧ s.h.toNat < 2 ^ 28
  pitch : 4 * s.w.toNat ≤ s.pitch.toNat
  bpp : s.bpp = 32

/-- The cursor's cell is on the screen, and so was every pixel asked for. -/
structure OnScreen (fb : Fb) : Prop where
  x : fb.curX.toNat + 8 ≤ fb.w.toNat
  y : fb.curY.toNat + 16 ≤ fb.h.toNat
  asked : ∀ p ∈ fb.asked, p.1 < fb.w ∧ p.2 < fb.h

/-- **The law of a scroll.** -/
structure ScrollLaw (fb fb' : Fb) : Prop where
  moved : ∀ y b, y < fb.h.toNat - 16 → b < 4 * fb.w.toNat →
    fb'.mem (y * fb.pitch.toNat + b) = fb.mem ((y + 16) * fb.pitch.toNat + b)
  cleared : ∀ y x i, fb.h.toNat - 16 ≤ y → y < fb.h.toNat → x < fb.w.toNat → i < 4 →
    fb'.mem (y * fb.pitch.toNat + (4 * x + i)) = byteOf fb.colBg i
  others : ∀ o, (∀ y b, y < fb.h.toNat → b < 4 * fb.w.toNat →
    o ≠ y * fb.pitch.toNat + b) → fb'.mem o = fb.mem o

/-! ## Drawing -/

section

variable {s : Screen} {fb fb' fb'' : Fb} {x y : U32} {o : Nat}

/-- Byte `o` lies in no row that the code can address. -/
def OutOfRows (s : Screen) (o : Nat) : Prop :=
  ∀ (y : U32) (b : Nat), b < 4 * s.w.toNat → o ≠ s.row y + b

/-- From `fb` to `fb'` pixels of the screen were drawn. -/
structure Drawn (fb fb' : Fb) : Prop where
  same : fb' = { fb with mem := fb'.mem, asked := fb'.asked }
  asked : ∀ p ∈ fb'.asked, p ∈ fb.asked ∨ (p.1 < fb.w ∧ p.2 < fb.h)
  frame : ∀ o, OutOfRows fb.toScreen o → fb'.mem o = fb.mem o

theorem Drawn.refl (fb : Fb) : Drawn fb fb := ⟨rfl, fun _ => .inl, fun _ _ => rfl⟩

theorem Drawn.screen (h : Drawn fb fb') : fb'.toScreen = fb.toScreen := by rw [h.same]

theorem Drawn.trans (h : Drawn fb fb') (h' : Drawn fb' fb'') : Drawn fb fb'' := by
  refine ⟨?_, fun p hp => ?_, fun o ho => ?_⟩
  · rw [h'.same, h.same]
  · rcases h'.asked p hp with hp | hp
    · exact h.asked p hp
    · rw [h.screen] at hp
      exact .inr hp
  · exact (h'.frame o (by rwa [h.screen])).trans (h.frame o ho)

theorem drawn_loop {n : Nat} {body : Fin n → Fb → Fb}
    (h : ∀ i fb', Drawn fb fb' → Drawn fb' (body i fb')) : Drawn fb (forUpTo n body fb) :=
  forUpTo_inv (fun _ fb' => Drawn fb fb') body (Drawn.refl fb) fun i fb' hd => hd.trans (h i fb' hd)

theorem fbPutpixel_drawn (hx : x < fb.w) (hy : y < fb.h) (rgb : U32) :
    Drawn fb (fbPutpixel x y rgb fb) := by
  have hasked (p : U32 × U32) (hp : p ∈ (x, y) :: fb.asked) :
      p ∈ fb.asked ∨ (p.1 < fb.w ∧ p.2 < fb.h) := by
    rcases List.mem_cons.mp hp with rfl | hp
    · exact .inr ⟨hx, hy⟩
    · exact .inl hp
  unfold fbPutpixel
  dsimp only
  split
  next => exact ⟨rfl, hasked, fun _ _ => rfl⟩
  next =>
    refine ⟨rfl, hasked, fun o ho => if_neg ?_⟩
    rintro ⟨hle, hlt⟩
    have hx := BitVec.lt_def.mp hx
    exact ho y (o - fb.row y) (by omega) (by omega)

theorem ofNat_toNat {n : Nat} (h : n < 2 ^ 32) : (BitVec.ofNat 32 n).toNat = n :=
  (BitVec.toNat_ofNat ..).trans (Nat.mod_eq_of_lt h)

theorem add_lt_of_le {a lim : U32} {i n : Nat} (hi : i < n) (h : a.toNat + n ≤ lim.toNat) :
    a + BitVec.ofNat 32 i < lim := by
  have := lim.isLt
  rw [BitVec.lt_def, BitVec.toNat_add, ofNat_toNat (by omega)]
  omega

theorem drawGlyph_drawn (hx : x.toNat + 8 ≤ fb.w.toNat) (hy : y.toNat + 16 ≤ fb.h.toNat)
    (c : BitVec 8) (fg bg : U32) : Drawn fb (drawGlyph x y c fg bg fb) :=
  drawn_loop fun row _ hrow => drawn_loop fun col _ hcol => by
    have hs := (hrow.trans hcol).screen
    refine fbPutpixel_drawn ?_ ?_ _
    · rw [hs]
      exact add_lt_of_le col.isLt hx
    · rw [hs]
      exact add_lt_of_le row.isLt hy

theorem fbClear_drawn (fb : Fb) (rgb : U32) : Drawn fb (fbClear rgb fb) :=
  drawn_loop fun dy _ hdy => drawn_loop fun dx _ hdx => by
    have hs := (hdy.trans hdx).screen
    refine fbPutpixel_drawn ?_ ?_ rgb
    · rw [hs]
      exact add_lt_of_le dx.isLt (by simp)
    · rw [hs]
      exact add_lt_of_le dy.isLt (by simp)

/-! ## The cursor -/

theorem Drawn.onScreen (h : Drawn fb fb') (ho : OnScreen fb) : OnScreen fb' := by
  refine ⟨?_, ?_, fun p hp => ?_⟩
  · rw [h.same]
    exact ho.x
  · rw [h.same]
    exact ho.y
  · rw [h.screen]
    exact (h.asked p hp).elim (ho.asked p) id

theorem newline_onScreen (fb : Fb) (hg : Geometry fb.toScreen) (hy : fb.curY.toNat + 16 ≤ fb.h.toNat)
    (ha : ∀ p ∈ fb.asked, p.1 < fb.w ∧ p.2 < fb.h) :
    OnScreen (newline fb) ∧ (newline fb).toScreen = fb.toScreen := by
  have hx : (0 : U32).toNat + 8 ≤ fb.w.toNat := by simpa using hg.width.1
  have hh := hg.height
  unfold newline
  dsimp only
  split
  next =>
    have hy : (fb.h - 16).toNat + 16 ≤ fb.h.toNat := by bv_omega
    exact ⟨⟨hx, hy, ha⟩, rfl⟩
  next hle =>
    have hy : (fb.curY + 16).toNat + 16 ≤ fb.h.toNat := by bv_omega
    exact ⟨⟨hx, hy, ha⟩, rfl⟩

theorem advance_onScreen (hg : Geometry fb.toScreen) (ho : OnScreen fb) :
    OnScreen (advance fb) ∧ (advance fb).toScreen = fb.toScreen := by
  have hw := hg.width
  have hx := ho.x
  unfold advance
  dsimp only
  split
  next => exact newline_onScreen { fb with curX := fb.curX + 8 } hg ho.y ho.asked
  next hle =>
    have hx : (fb.curX + 8).toNat + 8 ≤ fb.w.toNat := by bv_omega
    exact ⟨⟨hx, ho.y, ho.asked⟩, rfl⟩

/-- **One character** leaves the cursor on the screen and draws on the screen. -/
theorem fbPutc_onScreen (hg : Geometry fb.toScreen) (ho : OnScreen fb) (c : BitVec 8) :
    OnScreen (fbPutc fb c) ∧ (fbPutc fb c).toScreen = fb.toScreen := by
  have hx := ho.x
  unfold fbPutc
  rw [if_neg hg.addr]
  split
  next => exact newline_onScreen fb hg ho.y ho.asked
  next =>
  split
  next => exact ⟨⟨by simpa using hg.width.1, ho.y, ho.asked⟩, rfl⟩
  next =>
  split
  next =>
    -- a backspace moves first and then draws
    obtain ⟨fb', hfb', hs, ho'⟩ : ∃ fb', fb' =
        (if fb.curX ≥ 8 then { fb with curX := fb.curX - 8 } else fb) ∧
        fb'.toScreen = fb.toScreen ∧ OnScreen fb' := by
      refine ⟨_, rfl, ?_⟩
      split
      next hge =>
        have hx : (fb.curX - 8).toNat + 8 ≤ fb.w.toNat := by bv_omega
        exact ⟨rfl, hx, ho.y, ho.asked⟩
      next => exact ⟨rfl, ho⟩
    rw [← hfb']
    have hd := drawGlyph_drawn ho'.x ho'.y 32 fb'.colFg fb'.colBg
    exact ⟨hd.onScreen ho', hd.screen.trans hs⟩
  next =>
    have hd := drawGlyph_drawn ho.x ho.y c fb.colFg fb.colBg
    have h := advance_onScreen (by rwa [hd.screen]) (hd.onScreen ho)
    exact ⟨h.1, h.2.trans hd.screen⟩

theorem fbInit_drawn (fb : Fb) (h : fb.addr ≠ 0) :
    Drawn { fb with curX := 0, curY := 0 } (fbInit fb) := by
  have hd := fbClear_drawn fb fb.colBg
  unfold fbInit
  rw [if_neg h]
  refine ⟨?_, hd.asked, hd.frame⟩
  dsimp only
  rw [hd.same]

theorem fbPutcs_onScreen (cs : List (BitVec 8)) : ∀ {fb : Fb}, Geometry fb.toScreen → OnScreen fb →
    OnScreen (cs.foldl fbPutc fb) := by
  induction cs with
  | nil => exact fun _ => id
  | cons c cs ih =>
    intro fb hg ho
    have h := fbPutc_onScreen hg ho c
    exact ih (h.2 ▸ hg) h.1

end

/-! ## Scrolling -/

section

variable {fb : Fb} {m : Nat → BitVec 8} {d s n o p lo count y y' b : Nat}

theorem kmemcpy_apply (h : d + n ≤ s) (o : Nat) :
    kmemcpy d s n m o = if d ≤ o ∧ o < d + n then m (s + (o - d)) else m o := by
  refine forUpTo_inv (fun k (m' : Nat → BitVec 8) => ∀ o, m' o =
      if d ≤ o ∧ o < d + k then m (s + (o - d)) else m o) _
    (fun o => (if_neg (by omega)).symm) (fun i m' hm o => ?_) o
  by_cases ho : o = d + i
  · rw [ho, update_self, hm, if_neg (by omega), if_pos (by omega), Nat.add_sub_cancel_left]
  · rw [update_of_ne ho, hm]
    exact if_congr (by omega) rfl rfl

theorem kmemcpy_frame (h : ∀ i, i < n → o ≠ d + i) : kmemcpy d s n m o = m o :=
  forUpTo_inv (fun _ (m' : Nat → BitVec 8) => m' o = m o) _ rfl fun i _ hm =>
    (update_of_ne (h i i.isLt) ..).trans hm

theorem clearRow_apply (fb : Fb) (y : U32) (m : Nat → BitVec 8) (o : Nat) :
    clearRow fb y m o = if fb.row y ≤ o ∧ o < fb.row y + 4 * fb.w.toNat
      then byteOf fb.colBg ((o - fb.row y) % 4) else m o := by
  refine forUpTo_inv (fun k (m' : Nat → BitVec 8) => m' o =
      if fb.row y ≤ o ∧ o < fb.row y + 4 * k then byteOf fb.colBg ((o - fb.row y) % 4) else m o) _
    (if_neg (by omega)).symm fun i m' hm => ?_
  unfold put32
  by_cases ho : fb.row y + 4 * i ≤ o ∧ o < fb.row y + 4 * i + 4
  · rw [if_pos ho, if_pos (by omega)]
    congr 1
    omega
  · rw [if_neg ho, hm]
    exact if_congr (by omega) rfl rfl

/-! ### Loops over rows -/

/-- Byte `o` is none of the first `n` of the rows `lo`, …, `lo + count - 1`. -/
def Elsewhere (p n lo count o : Nat) : Prop :=
  ∀ y b, lo ≤ y → y < lo + count → b < n → o ≠ y * p + b

theorem row_lt (hb : b < p) (hy : y < y') : y * p + b < y' * p :=
  calc y * p + b < y * p + p := Nat.add_lt_add_left hb _
    _ = (y + 1) * p := (Nat.succ_mul y p).symm
    _ ≤ y' * p := Nat.mul_le_mul_right p hy

/-- A loop that rewrites one row after the other: the rows have their new bytes, the rest is as
before. A round may use that the rows still to come are as before. -/
theorem rows_loop (hn : n ≤ p) {body : Fin count → (Nat → BitVec 8) → Nat → BitVec 8}
    {new : Nat → Nat → BitVec 8}
    (hbody : ∀ (i : Fin count) m', (∀ o, Elsewhere p n lo i o → m' o = m o) →
      (∀ b, b < n → body i m' ((lo + i) * p + b) = new (lo + i) b) ∧
      ∀ o, (∀ b, b < n → o ≠ (lo + i) * p + b) → body i m' o = m' o) :
    (∀ y b, lo ≤ y → y < lo + count → b < n → forUpTo count body m (y * p + b) = new y b) ∧
      ∀ o, Elsewhere p n lo count o → forUpTo count body m o = m o := by
  refine forUpTo_inv (fun k m' => (∀ y b, lo ≤ y → y < lo + k → b < n → m' (y * p + b) = new y b) ∧
    ∀ o, Elsewhere p n lo k o → m' o = m o) body ⟨fun y b hlo hlt => by omega, fun _ _ => rfl⟩ ?_
  rintro i m' ⟨hnew, hframe⟩
  obtain ⟨hrow, hrest⟩ := hbody i m' hframe
  refine ⟨fun y b hlo hlt hb => ?_, fun o ho => ?_⟩
  · by_cases hy : y = lo + i
    · rw [hy]
      exact hrow b hb
    · rw [hrest _ fun b' hb' he => ?_]
      · exact hnew y b hlo (by omega) hb
      · have := row_lt (hb.trans_le hn) (show y < lo + i by omega)
        omega
  · rw [hrest o fun b hb => ho (lo + i) b (by omega) (by omega) hb]
    exact hframe o fun y b hlo hlt => ho y b hlo (by omega)

/-! ### The law -/

variable (hg : Geometry fb.toScreen)

include hg

theorem rowBytes_eq : (fb.w * (fb.bpp.setWidth 32 / 8)).toNat = 4 * fb.w.toNat := by
  have hw := hg.width
  rw [hg.bpp, show (BitVec.setWidth 32 (32 : BitVec 8) / 8 : U32) = 4 from rfl, BitVec.toNat_mul,
    show (4 : U32).toNat = 4 from rfl]
  omega

variable (hfit : (fb.h.toNat - 1) * fb.pitch.toNat < 2 ^ 32)

include hfit

theorem row_eq (hy : y < fb.h.toNat) : fb.row (BitVec.ofNat 32 y) = y * fb.pitch.toNat := by
  have hh := hg.height
  have hle : y * fb.pitch.toNat ≤ (fb.h.toNat - 1) * fb.pitch.toNat :=
    Nat.mul_le_mul_right _ (by omega)
  rw [Screen.row, BitVec.toNat_mul, ofNat_toNat (by omega), Nat.mod_eq_of_lt (by omega)]

theorem moveRows_spec (m : Nat → BitVec 8) :
    (∀ y b, 0 ≤ y → y < 0 + (fb.h.toNat - 16) → b < 4 * fb.w.toNat →
      moveRows fb m (y * fb.pitch.toNat + b) = m ((y + 16) * fb.pitch.toNat + b)) ∧
    ∀ o, Elsewhere fb.pitch.toNat (4 * fb.w.toNat) 0 (fb.h.toNat - 16) o → moveRows fb m o = m o := by
  refine rows_loop hg.pitch fun i m' hframe => ?_
  have hp := hg.pitch
  have hi := i.isLt
  have hsrc : (i.val + 16) * fb.pitch.toNat = i * fb.pitch.toNat + 16 * fb.pitch.toNat :=
    Nat.add_mul ..
  rw [row_eq hg hfit (by omega), show BitVec.ofNat 32 i.val + 16 = BitVec.ofNat 32 (i + 16) from
    (BitVec.ofNat_add ..).symm, row_eq hg hfit (by omega), rowBytes_eq hg, Nat.zero_add]
  refine ⟨fun b hb => ?_, fun o ho => kmemcpy_frame ho⟩
  rw [kmemcpy_apply (by omega), if_pos (by omega), Nat.add_sub_cancel_left]
  refine hframe _ fun y b' _ hy hb' he => ?_
  have := row_lt (hb'.trans_le hp) (show y < i.val + 16 by omega)
  omega

theorem clearRows_spec (m : Nat → BitVec 8) :
    (∀ y b, fb.h.toNat - 16 ≤ y → y < fb.h.toNat - 16 + (fb.h.toNat - (fb.h - 16).toNat) →
      b < 4 * fb.w.toNat → clearRows fb m (y * fb.pitch.toNat + b) = byteOf fb.colBg (b % 4)) ∧
    ∀ o, Elsewhere fb.pitch.toNat (4 * fb.w.toNat) (fb.h.toNat - 16)
      (fb.h.toNat - (fb.h - 16).toNat) o → clearRows fb m o = m o := by
  have hh := hg.height
  refine rows_loop hg.pitch fun i m' _ => ?_
  have hi := i.isLt
  have hsub : (fb.h - 16).toNat = fb.h.toNat - 16 := by bv_omega
  have hy : fb.h - 16 + BitVec.ofNat 32 i = BitVec.ofNat 32 (fb.h.toNat - 16 + i) := by
    rw [BitVec.ofNat_add, ← hsub, BitVec.ofNat_toNat, BitVec.setWidth_eq]
  rw [hy]
  refine ⟨fun b hb => ?_, fun o ho => ?_⟩
  · rw [clearRow_apply, row_eq hg hfit (by omega), if_pos (by omega), Nat.add_sub_cancel_left]
  · rw [clearRow_apply, row_eq hg hfit (by omega), if_neg]
    rintro ⟨hle, hlt⟩
    exact ho (o - (fb.h.toNat - 16 + i) * fb.pitch.toNat) (by omega) (by omega)

/-- **A scroll** of a screen no row of which wraps. -/
theorem fbScroll_law : ScrollLaw fb (fbScroll fb) := by
  have hh := hg.height
  have hp := hg.pitch
  have hlast : fb.h.toNat - (fb.h - 16).toNat = 16 := by bv_omega
  obtain ⟨hmoved, hkept⟩ := moveRows_spec hg hfit fb.mem
  obtain ⟨hcleared, hframe⟩ := clearRows_spec hg hfit (moveRows fb fb.mem)
  rw [hlast] at hcleared hframe
  refine ⟨fun y b hy hb => ?_, fun y x i hge hlt hx hi => ?_, fun o ho => ?_⟩
  · refine (hframe _ fun y' b' hge _ hb' => ?_).trans (hmoved y b (by omega) (by omega) hb)
    have := row_lt (hb.trans_le hp) (show y < y' by omega)
    omega
  · refine (hcleared y (4 * x + i) hge (by omega) (by omega)).trans ?_
    rw [Nat.mul_add_mod, Nat.mod_eq_of_lt hi]
  · refine (hframe o fun y b _ hlt => ho y b (by omega)).trans (hkept o fun y b _ hlt => ?_)
    exact ho y b (by omega)

end

theorem fontIndex_lt : ∀ c, fontIndex c < font8x16.length := by decide +kernel

/-- **The console stays on the screen**: after every sequence of characters the cursor's cell and all
pixels asked for are on the screen and the glyphs are in the font, and, unless the last row begins at
`2 ^ 32` or above, every scroll is as it should be. -/
theorem console_on_screen {fb : Fb} (hg : Geometry fb.toScreen) (cs : List (BitVec 8)) :
    OnScreen (console fb cs) ∧ (∀ c, fontIndex c < font8x16.length) ∧
    ((fb.h.toNat - 1) * fb.pitch.toNat < 2 ^ 32 →
      ∀ fb' : Fb, fb'.toScreen = fb.toScreen → ScrollLaw fb' (fbScroll fb')) := by
  refine ⟨?_, fontIndex_lt, fun hfit fb' hs => ?_⟩
  · have hd := fbInit_drawn { fb with asked := [] } hg.addr
    refine fbPutcs_onScreen cs (by rwa [hd.screen]) (hd.onScreen ⟨?_, ?_, fun _ hp => by cases hp⟩)
    · exact hg.width.1
    · exact hg.height.1
  · rw [← hs] at hg hfit
    exact fbScroll_law hg hfit

/-- A screen of 1024 × 768 pixels. -/
def xga : Fb := ⟨⟨0xFD000000, 4096, 1024, 768, 32⟩, 0, 0, 0xFFFFFF, 0, fun _ => 0, []⟩

theorem console_on_screen_xga : Geometry xga.toScreen ∧ ∀ cs, OnScreen (console xga cs) ∧
    (∀ c, fontIndex c < font8x16.length) ∧
    ((768 - 1) * 4096 < 2 ^ 32 → ∀ fb' : Fb, fb'.toScreen = xga.toScreen →
      ScrollLaw fb' (fbScroll fb')) := by
  have hg : Geometry xga.toScreen := ⟨by decide, by decide, by decide, by decide, rfl⟩
  exact ⟨hg, fun cs => console_on_screen hg cs⟩

/-! ## A row that wraps -/

theorem fbScroll_frame (fb : Fb) {o : Nat} (hg : Geometry fb.toScreen)
    (ho : OutOfRows fb.toScreen o) : (fbScroll fb).mem o = fb.mem o := by
  have hmove : moveRows fb fb.mem o = fb.mem o := by
    refine forUpTo_inv (fun _ (m : Nat → BitVec 8) => m o = fb.mem o) _ rfl fun y m hm => ?_
    refine (kmemcpy_frame fun b hb => ho _ b ?_).trans hm
    rwa [rowBytes_eq hg] at hb
  refine (forUpTo_inv (fun _ (m : Nat → BitVec 8) => m o = moveRows fb fb.mem o) _ rfl
    fun i m hm => ?_).trans hmove
  rw [clearRow_apply, if_neg, hm]
  rintro ⟨hle, hlt⟩
  exact ho _ _ (Nat.sub_lt_left_of_lt_add hle hlt) (Nat.add_sub_cancel' hle).symm

theorem newline_scrolls {fb : Fb} (h : fb.curY + 16 + 16 > fb.h) :
    newline fb = fbScroll { fb with curX := 0, curY := fb.curY + 16 } := if_pos h

/-- A screen of 17 rows without gaps between them, the last at `2 ^ 32`. Its memory is not cleared. -/
def wide : Fb := ⟨⟨0xFD000000, 0x10000000, 0x4000000, 17, 32⟩, 0, 0, 0xFFFFFF, 0, fun _ => 1, []⟩

theorem wide_geometry : Geometry wide.toScreen := ⟨by decide, by decide, by decide, by decide, rfl⟩

theorem wide_outOfRows : OutOfRows wide.toScreen (2 ^ 32) := by
  intro y b hb he
  rw [Screen.row, BitVec.toNat_mul, show wide.pitch.toNat = 2 ^ 28 from rfl] at he
  rw [show wide.w.toNat = 2 ^ 26 from rfl] at hb
  omega

theorem wide_newline {fb : Fb} (hd : Drawn { wide with curX := 0, curY := 0 } fb) :
    fbPutc fb 10 = fbScroll { fb with curX := 0, curY := 16 } ∧ ¬ ScrollLaw fb (fbPutc fb 10) := by
  have hs : fb.toScreen = wide.toScreen := hd.screen
  have hg : Geometry fb.toScreen := by
    rw [hs]
    exact wide_geometry
  have ho : OutOfRows fb.toScreen (2 ^ 32) := by
    rw [hs]
    exact wide_outOfRows
  have hscroll : fbPutc fb 10 = fbScroll { fb with curX := 0, curY := 16 } := by
    have hy : fb.curY = 0 := by rw [hd.same]
    unfold fbPutc
    rw [if_neg hg.addr, if_pos rfl, newline_scrolls (by rw [hy, hs]; decide), hy,
      show (0 : U32) + 16 = 16 from rfl]
  refine ⟨hscroll, fun hlaw => ?_⟩
  have hbg : fb.colBg = 0 := by
    rw [hd.same]
    rfl
  have hkept : (fbPutc fb 10).mem (2 ^ 32) = 1 := by
    rw [hscroll, fbScroll_frame { fb with curX := 0, curY := 16 } hg ho]
    exact hd.frame _ wide_outOfRows
  have hrow := hlaw.cleared 16 0 0
  rw [hs, hbg, show 16 * wide.pitch.toNat + (4 * 0 + 0) = 2 ^ 32 by decide, hkept] at hrow
  exact absurd (hrow (by decide) (by decide) (by decide) (by decide)) (by decide)

/-- **The last row of `wide` is not cleared**: its offset wraps to 0, so that neither `fb_init` nor
the scroll of the first `'\n'` touches it. -/
theorem fbScroll_wraps : Geometry wide.toScreen ∧
    fbPutc (fbInit wide) 10 = fbScroll { fbInit wide with curX := 0, curY := 16 } ∧
    ¬ ScrollLaw (fbInit wide) (fbPutc (fbInit wide) 10) :=
  ⟨wide_geometry, wide_newline (fbInit_drawn wide wide_geometry.addr)⟩

end Sinux.Drivers.Framebuffer

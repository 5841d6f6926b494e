import Sinux.Fs.CString
import Sinux.Lib.ByteMem

/-!
# The initial user stack (`kernel/proc/usermode.c`, `userspace/libc/src/start.asm`)

The model:

- `buildUserStack` copies the strings of `envp` and `argv` below `stack_top`, aligns the stack
  pointer to 16 bytes and pushes the two pointer arrays and `argc`. The arrays `uarg` and `uenv` have
  `EXEC_MAX_ARGS` entries; with more strings than that the function has no result.
- `start` is what `_start` passes to `main`: the registers `rdi`, `rsi` and `rdx`.

Results:

- All that is written is two stacks of blocks, the strings and the words (`buildUserStack_eq`), so
  the library's lemmas on pushed blocks say where everything lies.
- `start` finds the arguments again (`buildUserStack_decodes`), as long as the strings, the padding
  of the alignment and the words fit below `stack_top`.
-/

namespace Sinux.Proc

open Sinux.Lib Sinux.Lib.ByteMem Sinux.Fs

/-- `EXEC_MAX_ARGS`. -/
def execMaxArgs : Nat := 64

/-- The bytes of a string with its terminator. -/
def cString (s : Str) : List Byte := s.map Subtype.val ++ [0]

/-- The first two loops of `build_user_stack`: the strings are copied from the last to the first.
The addresses of the copies are collected in `uenv` or `uarg`. -/
def pushStrings (ss : List Str) (st : U64 × Memory) : List U64 × (U64 × Memory) :=
  ss.foldr
    (fun s r =>
      let st := push (cString s) r.2
      (st.1 :: r.1, st))
    ([], st)

/-- `sp & ~15`. -/
def align16 (sp : U64) : U64 := sp &&& ~~~15#64

/-- `sp -= 8; *(uint64_t *)sp = w`. -/
def pushWord (w : U64) (st : U64 × Memory) : U64 × Memory := push (wordBytes w) st

/-- A pointer array with its terminator. -/
def pushPointers (ptrs : List U64) (st : U64 × Memory) : U64 × Memory :=
  ptrs.foldr pushWord (pushWord 0 st)

/-- `build_user_stack`: the stack pointer for `_start`, and the memory. -/
def buildUserStack (stackTop : U64) (argv envp : List Str) (mem : Memory) :
    Option (U64 × Memory) :=
  if argv.length ≤ execMaxArgs ∧ envp.length ≤ execMaxArgs then
    let (uenv, st) := pushStrings envp (stackTop, mem)
    let (uarg, st) := pushStrings argv st
    let st := (align16 st.1, st.2)
    let st := pushPointers uenv st
    let st := pushPointers uarg st
    some (pushWord (BitVec.ofNat 64 argv.length) st)
  else none

/-- The arguments of `main`. -/
structure MainArgs where
  argc : U64
  argv : U64
  envp : U64

/-- `_start`: `pop rdi; mov rsi, rsp; lea rdx, [rsp + rdi*8 + 8]`. -/
def start (rsp : U64) (mem : Memory) : MainArgs :=
  let rdi := word mem rsp
  let rsp := rsp + 8
  { argc := rdi, argv := rsp, envp := rsp + rdi * 8 + 8 }

/-- The array at `p` points to copies of the strings `ss`, in order, and ends with `NULL`. -/
def PointsTo (mem : Memory) : U64 → List Str → Prop
  | p, [] => word mem p = 0
  | p, s :: ss =>
    word mem p ≠ 0 ∧ HasBytes mem (word mem p) (cString s) ∧ PointsTo mem (p + 8) ss

/-- The size of the strings on the stack. -/
def stringSize (ss : List Str) : Nat := (ss.map cString).flatten.length

/-- The size of the pointer arrays on the stack, with their terminators and `argc`. -/
def pointerSize (argv envp : List Str) : Nat := 8 * (argv.length + envp.length + 3)

/-- The strings fit below `stack_top`, and the words fit below them from the next multiple of 16
down. -/
def StackFits (stackTop : U64) (argv envp : List Str) : Prop :=
  stringSize (argv ++ envp) ≤ stackTop.toNat ∧
    pointerSize argv envp ≤ (stackTop.toNat - stringSize (argv ++ envp)) / 16 * 16

/-! ## Both halves are stacks of blocks -/

/-- The addresses of strings that lie one after the other from `a` on. -/
def addresses : U64 → List Str → List U64
  | _, [] => []
  | a, s :: ss => a :: addresses (a + BitVec.ofNat 64 (cString s).length) ss

theorem addresses_length (a : U64) (ss : List Str) : (addresses a ss).length = ss.length := by
  induction ss generalizing a with
  | nil => rfl
  | cons s ss ih => simp [addresses, ih]

theorem pushStrings_eq (ss : List Str) (st : U64 × Memory) :
    pushStrings ss st =
      (addresses (pushAll (ss.map cString) st).1 ss, pushAll (ss.map cString) st) := by
  induction ss with
  | nil => rfl
  | cons s ss ih =>
    have hback : (push (cString s) (pushAll (ss.map cString) st)).1 +
        BitVec.ofNat 64 (cString s).length = (pushAll (ss.map cString) st).1 :=
      BitVec.sub_add_cancel ..
    have hstep : pushStrings (s :: ss) st =
        ((push (cString s) (pushStrings ss st).2).1 :: (pushStrings ss st).1,
          push (cString s) (pushStrings ss st).2) := rfl
    rw [hstep, ih, List.map_cons]
    show _ = (addresses (push (cString s) (pushAll (ss.map cString) st)).1 (s :: ss), _)
    rw [addresses, hback]
    rfl

theorem foldr_pushWord (ws : List U64) (st : U64 × Memory) :
    ws.foldr pushWord st = pushAll (ws.map wordBytes) st := by
  rw [pushAll, List.foldr_map]
  rfl

/-- The words on the stack, from the stack pointer up. -/
def stackWords (argc : U64) (uarg uenv : List U64) : List U64 :=
  argc :: (uarg ++ [0]) ++ (uenv ++ [0])

/-- **The strings are one stack of blocks and the words another.** -/
theorem buildUserStack_eq (stackTop : U64) {argv envp : List Str} (mem : Memory)
    (ha : argv.length ≤ execMaxArgs) (he : envp.length ≤ execMaxArgs) :
    let strings := pushAll ((argv ++ envp).map cString) (stackTop, mem)
    let uenv := addresses (pushAll (envp.map cString) (stackTop, mem)).1 envp
    let uarg := addresses strings.1 argv
    buildUserStack stackTop argv envp mem =
      some (pushAll ((stackWords (BitVec.ofNat 64 argv.length) uarg uenv).map wordBytes)
        (align16 strings.1, strings.2)) := by
  have hstrings : pushAll (argv.map cString) (pushAll (envp.map cString) (stackTop, mem)) =
      pushAll ((argv ++ envp).map cString) (stackTop, mem) := by
    rw [List.map_append, pushAll, pushAll, pushAll, List.foldr_append]
  rw [buildUserStack, if_pos ⟨ha, he⟩]
  simp only [pushStrings_eq, hstrings, pushPointers, ← foldr_pushWord, stackWords, List.foldr_append,
    List.foldr_cons, List.foldr_nil]

/-! ## What `_start` finds -/

theorem words_length (ws : List U64) : (ws.map wordBytes).flatten.length = 8 * ws.length := by
  induction ws with
  | nil => rfl
  | cons w ws ih =>
    rw [List.map_cons, List.flatten_cons, List.length_append, ih, wordBytes_length,
      List.length_cons]
    omega

theorem hasBytes_words {mem : Memory} {p w : U64} {ws : List U64}
    (h : HasBytes mem p ((w :: ws).map wordBytes).flatten) :
    word mem p = w ∧ HasBytes mem (p + 8) (ws.map wordBytes).flatten := by
  rw [List.map_cons, List.flatten_cons, hasBytes_append, wordBytes_length] at h
  exact ⟨word_of_hasBytes h.1, h.2⟩

theorem pointsTo_addresses {mem : Memory} {p a : U64} {ss : List Str} (hpos : 0 < a.toNat)
    (hend : a.toNat + stringSize ss < 2 ^ 64)
    (hwords : HasBytes mem p ((addresses a ss ++ [0]).map wordBytes).flatten)
    (hstrings : HasBytes mem a (ss.map cString).flatten) : PointsTo mem p ss := by
  induction ss generalizing p a with
  | nil => exact (hasBytes_words hwords).1
  | cons s ss ih =>
    obtain ⟨hw, hrest⟩ := hasBytes_words hwords
    rw [List.map_cons, List.flatten_cons, hasBytes_append] at hstrings
    rw [stringSize, List.map_cons, List.flatten_cons, List.length_append] at hend
    have hnext := add_ofNat_toNat (a := a) (i := (cString s).length) (by omega)
    refine ⟨?_, ?_, ih (by omega) ?_ hrest hstrings.2⟩
    · rw [hw]
      intro hzero
      rw [hzero] at hpos
      exact absurd hpos (by decide)
    · rw [hw]
      exact hstrings.1
    · rw [hnext, stringSize]
      omega

theorem stringSize_append (ss ts : List Str) :
    stringSize (ss ++ ts) = stringSize ss + stringSize ts := by
  rw [stringSize, List.map_append, List.flatten_append, List.length_append]
  rfl

theorem align16_toNat (sp : U64) : (align16 sp).toNat = sp.toNat / 16 * 16 :=
  lowMask_toNat sp 4

theorem hasBytes_stackWords {mem : Memory} {p argc : U64} {uarg uenv : List U64}
    (h : HasBytes mem p ((stackWords argc uarg uenv).map wordBytes).flatten) :
    word mem p = argc ∧ HasBytes mem (p + 8) ((uarg ++ [0]).map wordBytes).flatten ∧
      HasBytes mem (p + 8 + BitVec.ofNat 64 (8 * (uarg.length + 1)))
        ((uenv ++ [0]).map wordBytes).flatten := by
  rw [stackWords, List.cons_append] at h
  obtain ⟨hargc, hrest⟩ := hasBytes_words h
  rw [List.map_append, List.flatten_append, hasBytes_append, words_length,
    List.length_append] at hrest
  exact ⟨hargc, hrest⟩

theorem strings_hold {stackTop : U64} {argv envp : List Str} (mem : Memory)
    (h : stringSize argv + stringSize envp ≤ stackTop.toNat) :
    let st := pushAll ((argv ++ envp).map cString) (stackTop, mem)
    let se := pushAll (envp.map cString) (stackTop, mem)
    st.1.toNat = stackTop.toNat - (stringSize argv + stringSize envp) ∧
      se.1.toNat = stackTop.toNat - stringSize envp ∧
      HasBytes st.2 st.1 (argv.map cString).flatten ∧
      HasBytes st.2 se.1 (envp.map cString).flatten := by
  intro st se
  have hall : ((argv ++ envp).map cString).flatten.length ≤ stackTop.toNat := by
    rw [← stringSize_append] at h
    exact h
  have hst : st.1.toNat = stackTop.toNat - stringSize (argv ++ envp) := pushAll_toNat hall
  have hse : se.1.toNat = stackTop.toNat - stringSize envp := pushAll_toNat (by
    show stringSize envp ≤ stackTop.toNat
    omega)
  rw [stringSize_append] at hst
  have hnext : st.1 + BitVec.ofNat 64 (stringSize argv) = se.1 := by
    apply BitVec.eq_of_toNat_eq
    rw [add_ofNat_toNat (by omega)]
    omega
  have hholds : HasBytes st.2 st.1 ((argv ++ envp).map cString).flatten := pushAll_holds hall
  rw [List.map_append, List.flatten_append, hasBytes_append] at hholds
  exact ⟨hst, hse, hholds.1, hnext ▸ hholds.2⟩

theorem words_decode {top : Nat} {st : U64 × Memory} {se : U64} {argv envp : List Str}
    (hst : st.1.toNat + stringSize argv ≤ se.toNat) (htop : se.toNat + stringSize envp = top)
    (hlt : top < 2 ^ 64) (hwords : pointerSize argv envp ≤ st.1.toNat / 16 * 16)
    (hargv : HasBytes st.2 st.1 (argv.map cString).flatten)
    (henvp : HasBytes st.2 se (envp.map cString).flatten) :
    let ws := stackWords (BitVec.ofNat 64 argv.length) (addresses st.1 argv) (addresses se envp)
    let r := pushAll (ws.map wordBytes) (align16 st.1, st.2)
    word r.2 r.1 = BitVec.ofNat 64 argv.length ∧ PointsTo r.2 (r.1 + 8) argv ∧
      PointsTo r.2 (r.1 + 8 + BitVec.ofNat 64 argv.length * 8 + 8) envp ∧
      r.1.toNat < st.1.toNat ∧
      ∀ x : U64, x.toNat < r.1.toNat ∨ st.1.toNat ≤ x.toNat → r.2 x = st.2 x := by
  intro ws r
  have hpos : 0 < pointerSize argv envp := by
    unfold pointerSize
    omega
  have hlen : (ws.map wordBytes).flatten.length = pointerSize argv envp := by
    rw [words_length, pointerSize]
    simp only [ws, stackWords, List.length_cons, List.length_append, addresses_length,
      List.length_nil]
    omega
  have hsp : (align16 st.1, st.2).1.toNat = st.1.toNat / 16 * 16 := align16_toNat _
  have hroom : (ws.map wordBytes).flatten.length ≤ (align16 st.1, st.2).1.toNat := by
    rw [hlen, hsp]
    exact hwords
  have hrsp : r.1.toNat = _ := pushAll_toNat hroom
  rw [hlen, hsp] at hrsp
  have hframe (x : U64) (hx : x.toNat < r.1.toNat ∨ st.1.toNat ≤ x.toNat) : r.2 x = st.2 x :=
    pushAll_frame hroom (by rw [hlen, hsp]; omega)
  -- The words are below the strings, so the strings stay.
  have hkeep (a : U64) (ss : List Str) (hlow : st.1.toNat ≤ a.toNat)
      (hend : a.toNat + stringSize ss ≤ top) (h : HasBytes st.2 a (ss.map cString).flatten) :
      HasBytes r.2 a (ss.map cString).flatten :=
    h.congr fun i hi => hframe _ <| Or.inr <| by
      have hi : i < stringSize ss := hi
      rw [add_ofNat_toNat (by omega)]
      omega
  have hsecond : r.1 + 8 + BitVec.ofNat 64 argv.length * 8 + 8 =
      r.1 + 8 + BitVec.ofNat 64 (8 * ((addresses st.1 argv).length + 1)) := by
    rw [addresses_length, Nat.mul_add, BitVec.ofNat_add, ← BitVec.add_assoc, Nat.mul_comm 8,
      BitVec.ofNat_mul]
    rfl
  obtain ⟨hargc, harr, henv⟩ := hasBytes_stackWords (pushAll_holds hroom)
  refine ⟨hargc, ?_, ?_, by omega, hframe⟩
  · exact pointsTo_addresses (by omega) (by omega) harr (hkeep _ _ (by omega) (by omega) hargv)
  · rw [hsecond]
    exact pointsTo_addresses (by omega) (by omega) henv (hkeep _ _ (by omega) (by omega) henvp)

/-- **`_start` finds the arguments again.** It finds `argc` and two arrays that point to copies of
the strings, each with a `NULL` behind it; and nothing outside `[rsp, stack_top)` is written. -/
theorem buildUserStack_decodes (stackTop : U64) (argv envp : List Str) (mem : Memory)
    (ha : argv.length ≤ execMaxArgs) (he : envp.length ≤ execMaxArgs)
    (hfit : StackFits stackTop argv envp) :
    ∃ rsp mem', buildUserStack stackTop argv envp mem = some (rsp, mem') ∧
      (start rsp mem').argc = BitVec.ofNat 64 argv.length ∧
      (start rsp mem').argv = rsp + 8 ∧
      (start rsp mem').envp = rsp + 8 + BitVec.ofNat 64 argv.length * 8 + 8 ∧
      PointsTo mem' (start rsp mem').argv argv ∧
      PointsTo mem' (start rsp mem').envp envp ∧
      rsp.toNat < stackTop.toNat ∧
      ∀ x : U64, x.toNat < rsp.toNat ∨ stackTop.toNat ≤ x.toNat → mem' x = mem x := by
  obtain ⟨hstrings, hwords⟩ := hfit
  rw [stringSize_append] at hstrings hwords
  obtain ⟨hst, hse, hargv, henvp⟩ := strings_hold mem hstrings
  obtain ⟨hargc, hpargv, hpenvp, hrsp, hframe⟩ := words_decode
    (by omega) (by omega) stackTop.isLt (by rw [hst]; exact hwords) hargv henvp
  have hbuild := buildUserStack_eq stackTop mem ha he
  dsimp only at hbuild
  generalize pushAll (List.map wordBytes _) _ = r at hargc hpargv hpenvp hrsp hframe hbuild
  have hsecond : (start r.1 r.2).envp = r.1 + 8 + BitVec.ofNat 64 argv.length * 8 + 8 := by
    rw [start, hargc]
  refine ⟨r.1, r.2, hbuild, hargc, rfl, hsecond, hpargv, hsecond ▸ hpenvp, by omega,
    fun x hx => ?_⟩
  · rw [hframe x (by omega)]
    refine pushAll_frame ?_ ?_
    · show stringSize (argv ++ envp) ≤ stackTop.toNat
      rw [stringSize_append]
      exact hstrings
    · show x.toNat < stackTop.toNat - stringSize (argv ++ envp) ∨ _
      rw [stringSize_append]
      exact hx.imp (fun h => by omega) id

/-- The arguments `a` and `bc` below address 4096. -/
theorem buildUserStack_decodes_two : ∃ rsp mem',
    buildUserStack 4096 [str ['a'], str ['b', 'c']] [] (fun _ => 0) = some (rsp, mem') ∧
      PointsTo mem' (start rsp mem').argv [str ['a'], str ['b', 'c']] := by
  obtain ⟨rsp, mem', h, -, -, -, hargv, -⟩ := buildUserStack_decodes 4096
    [str ['a'], str ['b', 'c']] [] (fun _ => 0) (by decide) (by decide)
    ⟨by decide +kernel, by decide +kernel⟩
  exact ⟨rsp, mem', h, hargv⟩

/-- The strings and words alone do not decide whether the stack fits: with 24 bytes below
`stack_top` for the three words of an empty `argv` and `envp`, the alignment takes 8 of them and
`argc` is written at the top of the address space. -/
theorem buildUserStack_padding_wraps :
    stringSize [] + pointerSize [] [] ≤ (24 : U64).toNat ∧
      (buildUserStack 24 [] [] fun _ => 1).map (fun r => (r.1, r.2 (-8))) = some (-8, 0) := by
  decide +kernel

end Sinux.Proc

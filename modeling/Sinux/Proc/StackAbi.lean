import Sinux.Proc.ExecClean

/-!
# Alignment and size of the initial user stack

The model:

- `SYS_EXECVE` passes the strings it has copied, at most 64 of `argv` and of `envp` (`execStrings`);
  `proc_spawn_init` passes the path of the program and three variables (`initEnvp`).
- A byte is written (`Writes`) if there is a memory in which it is another one afterwards. Which
  bytes are written does not depend on memory.

Results:

- The stack pointer is aligned before `argc + envc + 3` words are pushed, and nothing compares the
  size with that of the stack. So the call obeys the ABI if and only if `argc + envc` is odd and the
  strings, rounded up, and the words fit into 2 MiB (`user_stack_abi_iff`). `proc_spawn_init` passes
  four strings, and its stack is never aligned.
-/

namespace Sinux.Proc

open Sinux.Lib Sinux.Lib.ByteMem Sinux.Fs

/-- `USER_STACK_TOP`. -/
def userStackTop : U64 := 0x7FFFFFF00000

/-- `USER_STACK_SIZE`. -/
def userStackSize : Nat := 2 * 1024 * 1024

/-- The `envp` of `proc_spawn_init`. -/
def initEnvp : List Str :=
  [str "PATH=/bin:/sbin:/usr/bin".toList, str "HOME=/root".toList, str "TERM=vt100".toList]

/-- The byte at `x` is written. -/
def Writes (argv envp : List Str) (x : U64) : Prop :=
  ∃ mem r, buildUserStack userStackTop argv envp mem = some r ∧ r.2 x ≠ mem x

/-- **The initial stack obeys the ABI and fits.** -/
structure StackAbi (argv envp : List Str) : Prop where
  returns : ∀ mem, ∃ r, buildUserStack userStackTop argv envp mem = some r
  aligned : ∀ mem r, buildUserStack userStackTop argv envp mem = some r → r.1.toNat % 16 = 0
  inside : ∀ x, Writes argv envp x →
    userStackTop.toNat - userStackSize ≤ x.toNat ∧ x.toNat < userStackTop.toNat

/-- The strings rounded up to 16 bytes and the words fit into the stack. -/
def FitsStack (argv envp : List Str) : Prop :=
  (stringSize (argv ++ envp) + 15) / 16 * 16 + pointerSize argv envp ≤ userStackSize

section

variable {argv envp : List Str} {mem : Memory} {r : U64 × Memory} {x : U64}

/-- Where the strings start. -/
def stringsAt (argv envp : List Str) : U64 :=
  userStackTop - BitVec.ofNat 64 (stringSize (argv ++ envp))

/-- The stack pointer returned. -/
def rspOf (argv envp : List Str) : U64 :=
  align16 (stringsAt argv envp) - BitVec.ofNat 64 (pointerSize argv envp)

/-- The words, which do not depend on memory. -/
def wordsOf (argv envp : List Str) : List U64 :=
  stackWords (BitVec.ofNat 64 argv.length) (addresses (stringsAt argv envp) argv)
    (addresses (userStackTop - BitVec.ofNat 64 (stringSize envp)) envp)

theorem wordsOf_length (argv envp : List Str) :
    ((wordsOf argv envp).map wordBytes).flatten.length = pointerSize argv envp := by
  rw [words_length, pointerSize]
  simp only [wordsOf, stackWords, List.length_cons, List.length_append, addresses_length,
    List.length_nil]
  omega

theorem buildUserStack_pushes (mem : Memory) (ha : argv.length ≤ execMaxArgs)
    (he : envp.length ≤ execMaxArgs) : buildUserStack userStackTop argv envp mem =
      some (pushAll ((wordsOf argv envp).map wordBytes) (align16 (stringsAt argv envp),
        (pushAll ((argv ++ envp).map cString) (userStackTop, mem)).2)) := by
  have h := buildUserStack_eq userStackTop mem ha he
  dsimp only at h
  rw [pushAll_fst, pushAll_fst] at h
  exact h

theorem buildUserStack_rsp (ha : argv.length ≤ execMaxArgs) (he : envp.length ≤ execMaxArgs)
    (h : buildUserStack userStackTop argv envp mem = some r) : r.1 = rspOf argv envp := by
  rw [buildUserStack_pushes mem ha he, Option.some_inj] at h
  rw [← h, pushAll_fst, wordsOf_length]
  rfl

/-! ## What is written -/

theorem writes_of_pushed (ha : argv.length ≤ execMaxArgs) (he : envp.length ≤ execMaxArgs)
    (hx : (x - stringsAt argv envp).toNat < stringSize (argv ++ envp) ∨
      (x - rspOf argv envp).toNat < pointerSize argv envp) : Writes argv envp x := by
  have hsame (m m' : Memory) : (pushAll ((wordsOf argv envp).map wordBytes)
      (align16 (stringsAt argv envp),
        (pushAll ((argv ++ envp).map cString) (userStackTop, m)).2)).2 x =
      (pushAll ((wordsOf argv envp).map wordBytes) (align16 (stringsAt argv envp),
        (pushAll ((argv ++ envp).map cString) (userStackTop, m')).2)).2 x := by
    rcases hx with hx | hx
    · exact pushAll_congr (pushAll_written hx)
    · exact pushAll_written (by rwa [wordsOf_length])
  -- a memory that holds something else at `x`
  obtain ⟨b, hb⟩ : ∃ b, (pushAll ((wordsOf argv envp).map wordBytes)
    (align16 (stringsAt argv envp),
      (pushAll ((argv ++ envp).map cString) (userStackTop, fun _ => 0)).2)).2 x = b := ⟨_, rfl⟩
  refine ⟨fun _ => b + 1, _, buildUserStack_pushes _ ha he, ?_⟩
  rw [hsame _ fun _ => 0, hb]
  bv_omega

theorem not_writes (ha : argv.length ≤ execMaxArgs) (he : envp.length ≤ execMaxArgs)
    (hfit : StackFits userStackTop argv envp)
    (hx : x.toNat < (rspOf argv envp).toNat ∨ userStackTop.toNat ≤ x.toNat) :
    ¬ Writes argv envp x := by
  rintro ⟨mem, r, hr, hne⟩
  obtain ⟨rsp, mem', hb, -, -, -, -, -, -, hframe⟩ :=
    buildUserStack_decodes userStackTop argv envp mem ha he hfit
  rw [hr, Option.some_inj] at hb
  have hrsp : rsp = rspOf argv envp := by
    rw [← buildUserStack_rsp ha he hr, hb]
  rw [hb] at hne
  exact hne (hframe x (hrsp ▸ hx))

/-! ## The condition -/

theorem rspOf_mod (argv envp : List Str) :
    (rspOf argv envp).toNat % 16 = 0 ↔ (argv.length + envp.length) % 2 = 1 := by
  have halign := align16_toNat (stringsAt argv envp)
  unfold rspOf pointerSize
  rw [BitVec.toNat_sub, BitVec.toNat_ofNat]
  omega

theorem stringsAt_toNat (h : stringSize (argv ++ envp) ≤ userStackSize) :
    (stringsAt argv envp).toNat = userStackTop.toNat - stringSize (argv ++ envp) := by
  have htop : userStackTop.toNat = 0x7FFFFFF00000 := rfl
  unfold userStackSize at h
  rw [stringsAt, BitVec.toNat_sub, BitVec.toNat_ofNat]
  omega

theorem rspOf_toNat (ha : argv.length ≤ execMaxArgs) (he : envp.length ≤ execMaxArgs)
    (h : stringSize (argv ++ envp) ≤ userStackSize) : (rspOf argv envp).toNat =
      userStackTop.toNat - (stringSize (argv ++ envp) + 15) / 16 * 16 - pointerSize argv envp := by
  have hstart := stringsAt_toNat h
  have htop : userStackTop.toNat = 0x7FFFFFF00000 := rfl
  have halign := align16_toNat (stringsAt argv envp)
  unfold userStackSize at h
  unfold execMaxArgs at ha he
  unfold rspOf pointerSize
  rw [BitVec.toNat_sub, BitVec.toNat_ofNat]
  omega

theorem stackAbi_iff (ha : argv.length ≤ execMaxArgs) (he : envp.length ≤ execMaxArgs) :
    StackAbi argv envp ↔ (argv.length + envp.length) % 2 = 1 ∧ FitsStack argv envp := by
  have htop : userStackTop.toNat = 0x7FFFFFF00000 := rfl
  have hsize : userStackSize = 0x200000 := rfl
  have hpos : 0 < pointerSize argv envp := by
    unfold pointerSize
    omega
  rw [← rspOf_mod]
  constructor
  · intro h
    obtain ⟨r, hr⟩ := h.returns fun _ => 0
    refine ⟨buildUserStack_rsp ha he hr ▸ h.aligned _ r hr, ?_⟩
    by_contra hno
    unfold FitsStack at hno
    by_cases hstr : stringSize (argv ++ envp) ≤ userStackSize
    · -- the lowest word lies below the stack
      have hrsp := rspOf_toNat ha he hstr
      have hin := h.inside (rspOf argv envp) (writes_of_pushed ha he (Or.inr (by simpa using hpos)))
      unfold pointerSize at hno hrsp
      unfold execMaxArgs at ha he
      omega
    · -- the byte below the stack is a byte of the strings
      have hin := h.inside (userStackTop - BitVec.ofNat 64 (userStackSize + 1))
        (writes_of_pushed ha he (Or.inl ?_))
      · rw [BitVec.toNat_sub, BitVec.toNat_ofNat] at hin
        omega
      · have hlt := (userStackTop - BitVec.ofNat 64 (userStackSize + 1) -
          stringsAt argv envp).isLt
        rw [stringsAt, BitVec.toNat_sub, BitVec.toNat_sub, BitVec.toNat_sub, BitVec.toNat_ofNat,
          BitVec.toNat_ofNat] at hlt ⊢
        omega
  · rintro ⟨hmod, hfit⟩
    unfold FitsStack at hfit
    have hstr : stringSize (argv ++ envp) ≤ userStackSize := by omega
    have hrsp := rspOf_toNat ha he hstr
    have hfits : StackFits userStackTop argv envp := ⟨by omega, by omega⟩
    refine ⟨fun mem => ⟨_, buildUserStack_pushes mem ha he⟩,
      fun mem r hr => buildUserStack_rsp ha he hr ▸ hmod, fun x hx => ?_⟩
    by_contra hout
    refine not_writes ha he hfits ?_ hx
    omega

theorem execStrings_length (v : Option (List Str)) : (execStrings v).length ≤ execMaxArgs :=
  List.length_take_le _ _

/-- **When the initial stack obeys the ABI.** For all vectors passed to `SYS_EXECVE`, exactly if the
number of strings is odd and they fit. The stack of the first process never does. -/
theorem user_stack_abi_iff (argv envp : Option (List Str)) (initPath : Str) :
    (StackAbi (execStrings argv) (execStrings envp) ↔
      ((execStrings argv).length + (execStrings envp).length) % 2 = 1 ∧
        FitsStack (execStrings argv) (execStrings envp)) ∧
    ¬ StackAbi [initPath] initEnvp := by
  refine ⟨stackAbi_iff (execStrings_length argv) (execStrings_length envp), fun h => ?_⟩
  have hone : [initPath].length ≤ execMaxArgs := Nat.le_add_left 1 63
  have hodd : (1 + initEnvp.length) % 2 = 1 := ((stackAbi_iff hone (by decide)).mp h).1
  exact absurd hodd (by decide)

/-- **The stack of `/sbin/init`** is not aligned. -/
theorem init_stack_misaligned :
    (buildUserStack userStackTop [str "/sbin/init".toList] initEnvp fun _ => 0).map
      (fun r => r.1.toNat % 16) = some 8 := by
  decide +kernel

end

end Sinux.Proc

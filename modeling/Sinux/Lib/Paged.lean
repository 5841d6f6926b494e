import Sinux.Lib.X86
import Mathlib.Data.List.Induction

/-!
# Kernel code under paging

A processor with page tables: `mem` is physical memory, and a load or store at an address goes to
the physical address `walk` gives it in the tables loaded in `cr3`. On top of the moves of
`Sinux.Lib.X86` there are the stack instructions that go through the tables, the flags, the segment
registers and `cr3`.

`Holds view sp ws` says that the words `ws` lie on a stack from `sp` up, top first. `holds_pushes`
is the rule for a sequence of pushes, `holds_cons` the one for a pop, and `holds_congr` frames what
is stored elsewhere.
-/

namespace Sinux.Lib.X86

open Function

/-- A processor with paging. `walk s a` is the physical address of `a` in the tables at `s`, and
`user` says that it runs in ring 3. -/
structure Core extends Cpu where
  cr3 : U64
  walk : U64 → U64 → U64
  ds : BitVec 16
  es : BitVec 16
  user : Bool

/-- The instructions. `store a r` is `mov [a], r` with the address in a register; `test r` and
`clear r` are `test r, r` and `xor r, r`. `call` has the address of the function as operand, and
`rip` is the address of the instruction behind it. -/
inductive Op where
  | mov (dst src : Reg)
  | store (addr src : Reg)
  | movAx (v : BitVec 16)
  | movDs
  | movEs
  | movCr3 (src : Reg)
  | push (r : Reg)
  | pop (r : Reg)
  | pushfq
  | popfq
  | test (r : Reg)
  | clear (r : Reg)
  | call (target : U64)
  | ret
  | sysret
  deriving DecidableEq, Repr

/-! ## Flags -/

/-- The flags `POPFQ` sets in ring 0. -/
def popfMask : U64 := 0x247FD5

/-- `ZF`. -/
def zeroFlag : U64 := 0x40

/-- The flags after a logical operation with result `v`: `CF`, `OF` and `AF` are clear. -/
def logicFlags (f v : U64) : U64 :=
  f &&& ~~~0x8D5 ||| (if v = 0 then zeroFlag else 0) ||| (if v.msb then 0x80 else 0) |||
    if ((List.finRange 8).filter fun i => v.getLsbD i.val).length % 2 = 0 then 4 else 0

/-- The flags of code that runs with `RF`, `VM`, `VIF` and `VIP` clear. -/
def PlainFlags (f : U64) : Prop := f &&& ~~~popfMask = 2

theorem and_and_const {f m m' n : U64} (h : m &&& m' = n) : f &&& m &&& m' = f &&& n := by
  rw [BitVec.and_assoc, h]

theorem ite_and {p : Prop} [Decidable p] {a m n : U64} (h : a &&& m = n) :
    (if p then a else 0) &&& m = if p then n else 0 := by
  split
  · exact h
  · exact BitVec.zero_and

theorem logicFlags_zero (f v : U64) : logicFlags f v &&& zeroFlag = 0 ↔ v ≠ 0 := by
  unfold logicFlags
  rw [BitVec.and_or_distrib_right, BitVec.and_or_distrib_right, BitVec.and_or_distrib_right,
    and_and_const (n := 0) (by decide), ite_and (n := zeroFlag) (by decide),
    ite_and (n := 0) (by decide), ite_and (n := 0) (by decide)]
  by_cases hv : v = 0 <;> simp [hv, zeroFlag]

theorem logicFlags_plain {f : U64} (h : PlainFlags f) (v : U64) :
    logicFlags f v &&& ~~~(popfMask ||| 0x10000) = 2 := by
  unfold logicFlags
  rw [BitVec.and_or_distrib_right, BitVec.and_or_distrib_right, BitVec.and_or_distrib_right,
    and_and_const (n := ~~~popfMask &&& ~~~0x10000) (by decide), ite_and (n := 0) (by decide),
    ite_and (n := 0) (by decide), ite_and (n := 0) (by decide), ← BitVec.and_assoc, h]
  simp

theorem PlainFlags.popf {x : U64} (h : PlainFlags x) : x &&& popfMask ||| 2 = x := by
  rw [← h, ← BitVec.and_or_distrib_left, show popfMask ||| ~~~popfMask = BitVec.allOnes 64 by decide,
    BitVec.and_allOnes]

theorem PlainFlags.pushf {f : U64} (h : PlainFlags f) : f &&& ~~~0x30000 = f := by
  conv_lhs => rw [← h.popf, BitVec.and_or_distrib_right, and_and_const (n := popfMask) (by decide)]
  exact h.popf

/-! ## Semantics -/

namespace Core

/-- What memory shows at `a` in the tables at `s`. -/
def view (c : Core) (s a : U64) : U64 := c.mem (c.walk s a)

/-- The word at `a`. -/
def load (c : Core) (a : U64) : U64 := c.view c.cr3 a

/-- A store at `a`. -/
def write (c : Core) (a v : U64) : Core := { c with toCpu := c.setMem (c.walk c.cr3 a) v }

/-- An assignment to a register. -/
def assign (c : Core) (r : Reg) (v : U64) : Core := { c with toCpu := c.setReg r v }

/-- Push a value. -/
def pushVal (c : Core) (v : U64) : Core :=
  (c.write (c.reg .rsp - 8) v).assign .rsp (c.reg .rsp - 8)

/-- One instruction. `PUSHFQ` clears `RF` and `VM` in what it pushes. `POPFQ` clears `RF` and leaves
the flags alone that it does not set. `SYSRET` is AMD's: it enters ring 3 whatever `rcx` holds. -/
def step (c : Core) : Op → Core
  | .mov dst src => { c with toCpu := X86.step c.toCpu (.mov dst src) }
  | .store addr src => c.write (c.reg addr) (c.reg src)
  | .movAx v => c.assign .rax (c.reg .rax &&& ~~~0xFFFF ||| v.setWidth 64)
  | .movDs => { c with ds := (c.reg .rax).setWidth 16 }
  | .movEs => { c with es := (c.reg .rax).setWidth 16 }
  | .movCr3 src => { c with cr3 := c.reg src }
  | .push r => c.pushVal (c.reg r)
  | .pop r => (c.assign .rsp (c.reg .rsp + 8)).assign r (c.load (c.reg .rsp))
  | .pushfq => c.pushVal (c.rflags &&& ~~~0x30000)
  | .popfq =>
    { c.assign .rsp (c.reg .rsp + 8) with
      rflags := c.load (c.reg .rsp) &&& popfMask ||| c.rflags &&& ~~~(popfMask ||| 0x10000) }
  | .test r => { c with rflags := logicFlags c.rflags (c.reg r) }
  | .clear r => { c.assign r 0 with rflags := logicFlags c.rflags 0 }
  | .call target => { c.pushVal c.rip with rip := target }
  | .ret => { c.assign .rsp (c.reg .rsp + 8) with rip := c.load (c.reg .rsp) }
  | .sysret => { c with toCpu := X86.step c.toCpu .sysret, user := true }

/-- A list of instructions in order. -/
def exec (c : Core) (ops : List Op) : Core := ops.foldl step c

@[simp] theorem exec_nil (c : Core) : c.exec [] = c := rfl

@[simp] theorem exec_cons (c : Core) (op : Op) (ops : List Op) :
    c.exec (op :: ops) = (c.step op).exec ops := rfl

/-! ## Pushing words -/

/-- Push the values of a list in order. -/
def pushVals (c : Core) (ws : List U64) : Core := ws.foldl pushVal c

/-- The physical address that the `j`-th push from here on stores at. -/
def pushAddr (c : Core) (j : Nat) : U64 :=
  c.walk c.cr3 (c.reg .rsp - BitVec.ofNat 64 (8 * (j + 1)))

theorem walk_up (c : Core) {n k : Nat} (h : k < n) :
    c.walk c.cr3 (c.reg .rsp - BitVec.ofNat 64 (8 * n) + BitVec.ofNat 64 (8 * k)) =
      c.pushAddr (n - 1 - k) := by
  unfold pushAddr
  congr 1
  have he : 8 * n = 8 * (n - 1 - k + 1) + 8 * k := by omega
  rw [he, BitVec.ofNat_add]
  bv_omega

theorem pushVals_concat (c : Core) (ws : List U64) (w : U64) :
    c.pushVals (ws ++ [w]) = (c.pushVals ws).pushVal w := by
  simp only [pushVals, List.foldl_append, List.foldl_cons, List.foldl_nil]

theorem pushVal_rsp (c : Core) (v : U64) : (c.pushVal v).reg .rsp = c.reg .rsp - 8 :=
  Cpu.setReg_self ..

theorem pushVal_reg (c : Core) (v : U64) {q : Reg} (h : q ≠ .rsp) :
    (c.pushVal v).reg q = c.reg q :=
  Cpu.setReg_ne _ _ h

theorem pushVals_rest (c : Core) (ws : List U64) :
    (c.pushVals ws).reg .rsp = c.reg .rsp - BitVec.ofNat 64 (8 * ws.length) ∧
    (∀ q, q ≠ .rsp → (c.pushVals ws).reg q = c.reg q) ∧
    (c.pushVals ws).rflags = c.rflags ∧ (c.pushVals ws).cr3 = c.cr3 ∧
    (c.pushVals ws).walk = c.walk := by
  induction ws using List.reverseRecOn with
  | nil => exact ⟨(BitVec.sub_zero _).symm, fun _ _ => rfl, rfl, rfl, rfl⟩
  | append_singleton ws w ih =>
    obtain ⟨hrsp, hreg, hfl, hcr3, hwalk⟩ := ih
    rw [pushVals_concat]
    refine ⟨?_, fun q hq => (pushVal_reg _ w hq).trans (hreg q hq), hfl, hcr3, hwalk⟩
    rw [pushVal_rsp, hrsp, List.length_append, List.length_singleton]
    bv_omega

theorem pushVals_mem (c : Core) (ws : List U64) (w : U64) :
    (c.pushVals (ws ++ [w])).mem =
      update (c.pushVals ws).mem (c.pushAddr ws.length) w := by
  obtain ⟨hrsp, -, -, hcr3, hwalk⟩ := pushVals_rest c ws
  have haddr : (c.pushVals ws).reg .rsp - 8 =
      c.reg .rsp - BitVec.ofNat 64 (8 * (ws.length + 1)) := by
    rw [hrsp]
    bv_omega
  rw [pushVals_concat]
  have hmem : ((c.pushVals ws).pushVal w).mem = update (c.pushVals ws).mem
      ((c.pushVals ws).walk (c.pushVals ws).cr3 ((c.pushVals ws).reg .rsp - 8)) w := rfl
  rw [hmem, haddr, hcr3, hwalk]
  rfl

theorem pushVals_frame {c : Core} {x : U64} : (ws : List U64) →
    (∀ j < ws.length, x ≠ c.pushAddr j) → (c.pushVals ws).mem x = c.mem x := by
  intro ws
  induction ws using List.reverseRecOn with
  | nil => exact fun _ => rfl
  | append_singleton ws w ih =>
    intro h
    rw [List.length_append, List.length_singleton] at h
    rw [pushVals_mem, update_of_ne (h _ (Nat.lt_succ_self _))]
    exact ih fun j hj => h j (Nat.lt_succ_of_lt hj)

end Core

/-! ## Words on a stack -/

/-- The words `ws` lie at `sp`, `sp + 8` and so on. -/
def Holds (view : U64 → U64) : (sp : U64) → List U64 → Prop
  | _, [] => True
  | sp, w :: ws => view sp = w ∧ Holds view (sp + 8) ws

theorem holds_congr {view view' : U64 → U64} : {ws : List U64} → {sp : U64} →
    (∀ k < ws.length, view' (sp + BitVec.ofNat 64 (8 * k)) = view (sp + BitVec.ofNat 64 (8 * k))) →
    Holds view sp ws → Holds view' sp ws
  | [], _, _, _ => trivial
  | w :: ws, sp, h, hw => by
    refine ⟨?_, holds_congr (fun k hk => ?_) hw.2⟩
    · have h0 := h 0 (Nat.succ_pos _)
      rw [Nat.mul_zero, BitVec.add_zero] at h0
      exact h0.trans hw.1
    · have hs := h (k + 1) (Nat.succ_lt_succ hk)
      have he : sp + BitVec.ofNat 64 (8 * (k + 1)) = sp + 8 + BitVec.ofNat 64 (8 * k) := by
        bv_omega
      rwa [he] at hs

/-- **A sequence of pushes** leaves its values on the stack, the last one on top, if the stack's
addresses lead to different places in memory. -/
theorem holds_pushes {c : Core} : (ws : List U64) →
    (∀ j < ws.length, ∀ k < ws.length, c.pushAddr j = c.pushAddr k → j = k) →
    Holds (fun a => (c.pushVals ws).mem (c.walk c.cr3 a))
      (c.reg .rsp - BitVec.ofNat 64 (8 * ws.length)) ws.reverse := by
  intro ws
  induction ws using List.reverseRecOn with
  | nil => exact fun _ => trivial
  | append_singleton ws w ih =>
    intro hinj
    rw [List.length_append, List.length_singleton] at hinj
    have hle (j : Nat) (hj : j < ws.length) : j < ws.length + 1 := Nat.lt_succ_of_lt hj
    rw [List.reverse_append, List.reverse_singleton, List.singleton_append, Core.pushVals_mem,
      List.length_append, List.length_singleton]
    refine ⟨update_self .., ?_⟩
    have hup : c.reg .rsp - BitVec.ofNat 64 (8 * (ws.length + 1)) + 8 =
        c.reg .rsp - BitVec.ofNat 64 (8 * ws.length) := by
      bv_omega
    rw [hup]
    refine holds_congr (fun k hk => ?_)
      (ih fun j hj k hk => hinj j (hle j hj) k (hle k hk))
    rw [List.length_reverse] at hk
    -- the `k`-th word from the top was pushed before the last `k`
    refine update_of_ne (fun he => ?_) _ _
    rw [c.walk_up hk] at he
    have := hinj _ (by omega) _ (Nat.lt_succ_self _) he
    omega

end Sinux.Lib.X86

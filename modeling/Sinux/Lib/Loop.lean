import Mathlib.Data.List.FinRange

/-!
# Counted loops

`for (int i = 0; i < n; i++) body(i)` on an explicit state, with and without an early return, and
the invariant rules for them. The invariant is indexed by the number of rounds done.
-/

namespace Sinux.Lib

variable {σ ε : Type}

/-- `for (i = 0; i < n; i++) s = body(i, s)`. -/
def forUpTo (n : Nat) (body : Fin n → σ → σ) (s : σ) : σ :=
  (List.finRange n).foldl (fun s i => body i s) s

/-- The same loop when a round may return early; `.error` is the state it returned in. -/
def forUpToM (n : Nat) (body : Fin n → σ → Except ε σ) (s : σ) : Except ε σ :=
  (List.finRange n).foldlM (fun s i => body i s) s

theorem forUpTo_succ (n : Nat) (body : Fin (n + 1) → σ → σ) (s : σ) :
    forUpTo (n + 1) body s = body (Fin.last n) (forUpTo n (fun i => body i.castSucc) s) := by
  unfold forUpTo
  rw [List.finRange_succ_last, List.foldl_append, List.foldl_map]
  rfl

theorem forUpTo_inv (P : Nat → σ → Prop) :
    ∀ {n : Nat} (body : Fin n → σ → σ) {s : σ}, P 0 s →
      (∀ (i : Fin n) (s : σ), P i s → P (i + 1) (body i s)) → P n (forUpTo n body s)
  | 0, _, _, h0, _ => h0
  | n + 1, body, s, h0, hs => by
    rw [forUpTo_succ]
    apply hs (Fin.last n)
    exact forUpTo_inv P _ h0 fun i s hP => hs i.castSucc s hP

theorem forUpToM_succ (n : Nat) (body : Fin (n + 1) → σ → Except ε σ) (s : σ) :
    forUpToM (n + 1) body s =
      (forUpToM n (fun i => body i.castSucc) s).bind (body (Fin.last n)) := by
  unfold forUpToM
  rw [List.finRange_succ_last, List.foldlM_append, List.foldlM_map]
  congr 1
  funext s
  simp only [List.foldlM_cons, List.foldlM_nil]
  exact bind_pure _

theorem forUpToM_eq_range (n : Nat) (body : Nat → σ → Except ε σ) (s : σ) :
    forUpToM n (fun i => body i) s = (List.range n).foldlM (fun s i => body i s) s := by
  rw [← List.map_coe_finRange_eq_range, List.foldlM_map]
  rfl

section

variable {α β : Type*} {f : σ → α → Except ε σ} {s s' : σ} {a : α} {e : ε}

theorem foldlM_cons_ok (h : f s a = .ok s') (l : List α) : (a :: l).foldlM f s = l.foldlM f s' := by
  rw [List.foldlM_cons, h]
  rfl

theorem foldlM_cons_error (h : f s a = .error e) (l : List α) : (a :: l).foldlM f s = .error e := by
  rw [List.foldlM_cons, h]
  rfl

theorem foldlM_flatMap (f : σ → β → Except ε σ) (g : α → List β) (l : List α) (s : σ) :
    (l.flatMap g).foldlM f s = l.foldlM (fun s a => (g a).foldlM f s) s := by
  induction l generalizing s with
  | nil => rfl
  | cons a l ih =>
    rw [List.flatMap_cons, List.foldlM_append, List.foldlM_cons]
    exact bind_congr fun s' => ih s'

end

/-- A round that goes on does so with `P`; if it returns early, `E` holds. -/
inductive Steps (E : Prop) (P : σ → Prop) : Except ε σ → Prop
  | ok {s : σ} (h : P s) : Steps E P (.ok s)
  | error {e : ε} (h : E) : Steps E P (.error e)

theorem Steps.mono {E : Prop} {P Q : σ → Prop} {r : Except ε σ} (h : Steps E P r)
    (hPQ : ∀ s, P s → Q s) : Steps E Q r := by
  cases h with
  | ok h => exact .ok (hPQ _ h)
  | error h => exact .error h

/-- `P` holds at the end, or `Q` where the computation returned early. -/
inductive Ends (Q : ε → Prop) (P : σ → Prop) : Except ε σ → Prop
  | ok {s : σ} (h : P s) : Ends Q P (.ok s)
  | error {e : ε} (h : Q e) : Ends Q P (.error e)

theorem Ends.mono {Q : ε → Prop} {P P' : σ → Prop} {r : Except ε σ} (h : Ends Q P r)
    (hP : ∀ s, P s → P' s) : Ends Q P' r := by
  cases h with
  | ok h => exact .ok (hP _ h)
  | error h => exact .error h

theorem steps_iff_ends {E : Prop} {P : σ → Prop} {r : Except ε σ} :
    Steps E P r ↔ Ends (fun _ => E) P r := by
  constructor <;> rintro (h | h)
  · exact .ok h
  · exact .error h
  · exact .ok h
  · exact .error h

theorem forUpToM_run {Q : ε → Prop} (P : Nat → σ → Prop) :
    ∀ {n : Nat} (body : Fin n → σ → Except ε σ) {s : σ}, P 0 s →
      (∀ (i : Fin n) (s : σ), P i s → Ends Q (P (i + 1)) (body i s)) →
      Ends Q (P n) (forUpToM n body s)
  | 0, _, _, h0, _ => .ok h0
  | n + 1, body, s, h0, hs => by
    have h := forUpToM_run P _ h0 fun i s hP => hs i.castSucc s hP
    rw [forUpToM_succ]
    generalize forUpToM n (fun i => body i.castSucc) s = r at h
    cases h with
    | ok h => exact hs (Fin.last n) _ h
    | error h => exact .error h

theorem forUpToM_steps {E : Prop} (P : Nat → σ → Prop) {n : Nat} (body : Fin n → σ → Except ε σ)
    {s : σ} (h0 : P 0 s) (hs : ∀ (i : Fin n) (s : σ), P i s → Steps E (P (i + 1)) (body i s)) :
    Steps E (P n) (forUpToM n body s) :=
  steps_iff_ends.mpr (forUpToM_run P body h0 fun i s hP => steps_iff_ends.mp (hs i s hP))

theorem forUpToM_ends {Q : ε → Prop} {P : σ → Prop} {n : Nat} {body : Fin n → σ → Except ε σ}
    {s : σ} (h : P s) (hs : ∀ (i : Fin n) (s : σ), P s → Ends Q P (body i s)) :
    Ends Q P (forUpToM n body s) := forUpToM_run (fun _ => P) body h hs

end Sinux.Lib

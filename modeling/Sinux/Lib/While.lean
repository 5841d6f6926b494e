import Mathlib.Data.Sum.Basic

/-!
# While loops with fuel

A round of a loop goes on in a new state or leaves with a result, and may fail. `whileFuel` runs
rounds until one leaves; what is left of the fuel is handed to the round, for loops inside it.

* `Returns`: with enough fuel there is this result.
* `returns_done`, `returns_round`, `returns_cases`: a loop round by round.
* `not_returns_of_trapped`: a set of states that no round leaves.
* `whileFuel_map`: two loops in step.
-/

namespace Sinux.Lib

variable {α β γ σ τ : Type*}

/-- The result with enough fuel. -/
def Returns (f : Nat → α → Option β) (a : α) (b : β) : Prop := ∃ n, f n a = some b

/-- More fuel changes no result. -/
def Grows (f : Nat → α → Option β) : Prop :=
  ∀ n m, n ≤ m → ∀ a b, f n a = some b → f m a = some b

theorem grows_const (f : α → Option β) : Grows fun _ => f := fun _ _ _ _ _ h => h

theorem Returns.unique {f : Nat → α → Option β} (hf : Grows f) {a : α} {b b' : β}
    (h : Returns f a b) (h' : Returns f a b') : b = b' := by
  obtain ⟨n, hn⟩ := h
  obtain ⟨m, hm⟩ := h'
  have h₁ := hf n (max n m) (Nat.le_max_left n m) a b hn
  have h₂ := hf m (max n m) (Nat.le_max_right n m) a b' hm
  exact Option.some.inj (h₁.symm.trans h₂)

/-- `while (1) { round }`. -/
def whileFuel (round : Nat → σ → Option (σ ⊕ β)) : Nat → σ → Option β
  | 0, _ => none
  | n + 1, s =>
    match round n s with
    | none => none
    | some (.inl s') => whileFuel round n s'
    | some (.inr b) => some b

variable {round : Nat → σ → Option (σ ⊕ β)} {s s' : σ} {b : β}

theorem whileFuel_inl {n : Nat} (h : round n s = some (.inl s')) :
    whileFuel round (n + 1) s = whileFuel round n s' := by
  rw [whileFuel, h]

theorem whileFuel_inr {n : Nat} (h : round n s = some (.inr b)) :
    whileFuel round (n + 1) s = some b := by
  rw [whileFuel, h]

theorem whileFuel_none {n : Nat} (h : round n s = none) : whileFuel round (n + 1) s = none := by
  rw [whileFuel, h]

theorem whileFuel_grows (hr : Grows round) : Grows (whileFuel round) := by
  intro n
  induction n with
  | zero => exact fun m _ s b h => nomatch h
  | succ n ih =>
    intro m hm s b h
    obtain ⟨m, rfl⟩ : ∃ k, m = k + 1 := ⟨m - 1, by omega⟩
    have hle : n ≤ m := Nat.le_of_succ_le_succ hm
    cases hround : round n s with
    | none =>
      rw [whileFuel_none hround] at h
      cases h
    | some r =>
      cases r with
      | inl s' =>
        rw [whileFuel_inl hround] at h
        rw [whileFuel_inl (hr n m hle s _ hround)]
        exact ih m hle s' b h
      | inr b' =>
        rw [whileFuel_inr hround] at h
        rw [whileFuel_inr (hr n m hle s _ hround), h]

theorem returns_done (h : Returns round s (.inr b)) : Returns (whileFuel round) s b := by
  obtain ⟨n, hn⟩ := h
  exact ⟨n + 1, whileFuel_inr hn⟩

theorem returns_round (hr : Grows round) (h : Returns round s (.inl s'))
    (h' : Returns (whileFuel round) s' b) : Returns (whileFuel round) s b := by
  obtain ⟨n, hn⟩ := h
  obtain ⟨m, hm⟩ := h'
  refine ⟨max n m + 1, ?_⟩
  rw [whileFuel_inl (hr n _ (Nat.le_max_left n m) s _ hn)]
  exact whileFuel_grows hr m _ (Nat.le_max_right n m) s' b hm

theorem returns_cases (h : Returns (whileFuel round) s b) :
    Returns round s (.inr b) ∨
      ∃ s', Returns round s (.inl s') ∧ Returns (whileFuel round) s' b := by
  obtain ⟨n, hn⟩ := h
  cases n with
  | zero => cases hn
  | succ n =>
    cases hround : round n s with
    | none =>
      rw [whileFuel_none hround] at hn
      cases hn
    | some r =>
      cases r with
      | inl s' =>
        rw [whileFuel_inl hround] at hn
        exact .inr ⟨s', ⟨n, hround⟩, n, hn⟩
      | inr b' =>
        rw [whileFuel_inr hround] at hn
        cases hn
        exact .inl ⟨n, hround⟩

theorem Returns.first_round (h : Returns (whileFuel round) s b) : ∃ r, Returns round s r := by
  rcases returns_cases h with hdone | ⟨s', hround, -⟩
  · exact ⟨_, hdone⟩
  · exact ⟨_, hround⟩

theorem whileFuel_le {round' : Nat → σ → Option (σ ⊕ β)}
    (h : ∀ n s r, round n s = some r → round' n s = some r) {n : Nat}
    (hn : whileFuel round n s = some b) : whileFuel round' n s = some b := by
  induction n generalizing s with
  | zero => cases hn
  | succ n ih =>
    cases hr : round n s with
    | none =>
      rw [whileFuel_none hr] at hn
      cases hn
    | some r =>
      cases r with
      | inl s' =>
        rw [whileFuel_inl hr] at hn
        rw [whileFuel_inl (h n s _ hr)]
        exact ih hn
      | inr b' =>
        rw [whileFuel_inr hr] at hn
        rw [whileFuel_inr (h n s _ hr), hn]

theorem Returns.while_rec {motive : σ → Prop} (done : ∀ s, Returns round s (.inr b) → motive s)
    (next : ∀ s s', Returns round s (.inl s') → motive s' → motive s)
    (h : Returns (whileFuel round) s b) : motive s := by
  obtain ⟨n, hn⟩ := h
  induction n generalizing s with
  | zero => cases hn
  | succ n ih =>
    cases hr : round n s with
    | none =>
      rw [whileFuel_none hr] at hn
      cases hn
    | some r =>
      cases r with
      | inl s' =>
        rw [whileFuel_inl hr] at hn
        exact next s s' ⟨n, hr⟩ (ih hn)
      | inr b' =>
        rw [whileFuel_inr hr] at hn
        cases hn
        exact done s ⟨n, hr⟩

theorem not_returns_of_trapped (Q : σ → Prop)
    (hQ : ∀ s r, Q s → Returns round s r → ∃ s', r = .inl s' ∧ Q s') (h : Q s) :
    ¬ Returns (whileFuel round) s b := by
  refine fun hret => hret.while_rec (motive := fun s => ¬ Q s) (fun s hdone hs => ?_)
    (fun s s' hnext ih hs => ?_) h
  · obtain ⟨s', he, -⟩ := hQ s _ hs hdone
    cases he
  · obtain ⟨s', he, hs'⟩ := hQ s _ hs hnext
    cases he
    exact ih hs'

theorem Returns.while_inv (P : σ → Prop) {R : β → Prop}
    (hround : ∀ s s', P s → Returns round s (.inl s') → P s')
    (hdone : ∀ s b, P s → Returns round s (.inr b) → R b) (hs : P s)
    (h : Returns (whileFuel round) s b) : R b :=
  h.while_rec (motive := fun s => P s → R b) (fun s hb hP => hdone s b hP hb)
    (fun s s' hr ih hP => ih (hround s s' hP hr)) hs

theorem whileFuel_map {round' : Nat → τ → Option (τ ⊕ γ)} (f : σ → τ) (g : β → γ)
    (h : ∀ n s, (round n s).map (Sum.map f g) = round' n (f s)) (n : Nat) (s : σ) :
    (whileFuel round n s).map g = whileFuel round' n (f s) := by
  induction n generalizing s with
  | zero => rfl
  | succ n ih =>
    have hs := h n s
    cases hround : round n s with
    | none =>
      rw [hround] at hs
      rw [whileFuel_none hround, whileFuel_none hs.symm]
      rfl
    | some r =>
      rw [hround] at hs
      cases r with
      | inl s' => rw [whileFuel_inl hround, whileFuel_inl hs.symm, ih]
      | inr b =>
        rw [whileFuel_inr hround, whileFuel_inr hs.symm]
        rfl

end Sinux.Lib

import Mathlib.Order.Basic
import Mathlib.Data.List.Basic

/-!
# Computations that fail or go on

A loop goes from state to state until it comes to a result. Where every round makes a measure of
the state smaller, it does come to one. And what holds of the result of a computation in `Except`,
together with what the errors can be.
-/

namespace Netkit.Foundations

section Rounds

variable {σ ω : Type*} {step : σ → Except ω σ} {μ : σ → Nat} {exhausted : ω}

/-- No more than `n` rounds. -/
def rounds (step : σ → Except ω σ) (exhausted : ω) : Nat → σ → ω
  | 0, _ => exhausted
  | n + 1, s =>
    match step s with
    | .ok t => rounds step exhausted n t
    | .error o => o

def outcome (step : σ → Except ω σ) (μ : σ → Nat) (exhausted : ω) (s : σ) : ω :=
  rounds step exhausted (μ s + 1) s

theorem rounds_ok {s t : σ} (h : step s = .ok t) (n : Nat) :
    rounds step exhausted (n + 1) s = rounds step exhausted n t := by
  rw [rounds, h]

theorem rounds_enough (hμ : ∀ s t, step s = .ok t → μ t < μ s) {n m : Nat} {s : σ} (hn : μ s < n)
    (hm : μ s < m) : rounds step exhausted n s = rounds step exhausted m s := by
  induction n generalizing m s with
  | zero => exact absurd hn (Nat.not_lt_zero _)
  | succ n ih =>
    cases m with
    | zero => exact absurd hm (Nat.not_lt_zero _)
    | succ m =>
      rw [rounds, rounds]
      cases h : step s with
      | error o => rfl
      | ok t =>
        have hlt := hμ s t h
        exact ih (by omega) (by omega)

theorem outcome_ok (hμ : ∀ s t, step s = .ok t → μ t < μ s) {s t : σ} (h : step s = .ok t) :
    outcome step μ exhausted s = outcome step μ exhausted t := by
  rw [outcome, rounds_ok h]
  exact rounds_enough hμ (hμ s t h) (Nat.lt_succ_self _)

theorem outcome_error {s : σ} {o : ω} (h : step s = .error o) :
    outcome step μ exhausted s = o := by
  rw [outcome, rounds, h]

/-- The induction is on the measure: it falls with every round. -/
theorem outcome_invariant {I : σ → Prop} {J : ω → Prop} (hμ : ∀ s t, step s = .ok t → μ t < μ s)
    (hok : ∀ s t, step s = .ok t → I s → I t) (herror : ∀ s o, step s = .error o → I s → J o)
    {s : σ} (hs : I s) : J (outcome step μ exhausted s) := by
  induction hn : μ s using Nat.strongRecOn generalizing s with
  | _ n ih =>
    cases h : step s with
    | error o =>
      rw [outcome_error h]
      exact herror s o h hs
    | ok t =>
      rw [outcome_ok hμ h]
      exact ih (μ t) (hn ▸ hμ s t h) (hok s t h hs) rfl

end Rounds

section Postconditions

universe u v w

variable {ε : Type v} {α β : Type u} {γ : Type w} {E : ε → Prop}

def Post (E : ε → Prop) (P : α → Prop) : Except ε α → Prop
  | .ok a => P a
  | .error e => E e

@[simp] theorem post_ok {P : α → Prop} {a : α} : Post E P (.ok a) ↔ P a := Iff.rfl

theorem post_mono {P Q : α → Prop} {x : Except ε α} (h : Post E P x) (hPQ : ∀ a, P a → Q a) :
    Post E Q x := by
  cases x with
  | error e => exact h
  | ok a => exact hPQ a h

theorem post_true (x : Except ε α) : Post (fun _ => True) (fun _ => True) x := by
  cases x <;> exact trivial

theorem post_bind {P : α → Prop} {Q : β → Prop} {x : Except ε α} {f : α → Except ε β}
    (hx : Post E P x) (hf : ∀ a, P a → Post E Q (f a)) : Post E Q (x >>= f) := by
  cases x with
  | error e => exact hx
  | ok a => exact hf a hx

theorem post_map {P : α → Prop} {Q : β → Prop} {x : Except ε α} {f : α → β}
    (hx : Post E P x) (hf : ∀ a, P a → Q (f a)) : Post E Q (x.map f) := by
  cases x with
  | error e => exact hx
  | ok a => exact hf a hx

theorem post_and {P Q : α → Prop} {x : Except ε α} (hP : Post E P x)
    (hQ : Post (fun _ => True) Q x) : Post E (fun a => P a ∧ Q a) x := by
  cases x with
  | error e => exact hP
  | ok a => exact ⟨hP, hQ⟩

theorem post_results {P Q : α → Prop} {x : Except ε α} (h : Post E P x)
    (hQ : ∀ a, x = .ok a → P a → Q a) : Post E Q x := by
  cases x with
  | error e => exact h
  | ok a => exact hQ a rfl h

theorem post_result {P : α → Prop} {x : Except ε α} {a : α} (h : Post E P x) (hx : x = .ok a) :
    P a := by
  rw [hx] at h
  exact h

/-- The rule for loops: `I l s` holds before the elements `l` are worked on. -/
theorem post_foldlM {I : List γ → β → Prop} {f : β → γ → Except ε β}
    (hf : ∀ a l s, I (a :: l) s → Post E (I l) (f s a)) {l : List γ} {s : β} (hs : I l s) :
    Post E (I []) (l.foldlM f s) := by
  induction l generalizing s with
  | nil => exact hs
  | cons a l ih =>
    rw [List.foldlM_cons]
    exact post_bind (hf a l s hs) (fun t ht => ih ht)

end Postconditions

end Netkit.Foundations

import Mathlib.Data.Finset.Card
import Mathlib.Logic.Relation

/-!
# Names that stand for other names

A name is looked up, and leads to a value or to another name. Following it comes to an end unless
it runs in a circle.
-/

namespace Netkit.Foundations

open Relation

variable {α ρ : Type*} {next : α → ρ ⊕ α} {a b : α} {r : ρ}

/-- `a` stands for `b`. -/
def Leads (next : α → ρ ⊕ α) (a b : α) : Prop := next a = .inr b

/-- From `a`, some steps lead back to `a`. -/
def Circle (r : α → α → Prop) (a : α) : Prop := TransGen r a a

/-- No more than `n` lookups. -/
def chase (next : α → ρ ⊕ α) : ℕ → α → Option ρ
  | 0, _ => none
  | n + 1, a =>
    match next a with
    | .inl r => some r
    | .inr b => chase next n b

theorem chase_inl (h : next a = .inl r) (n : ℕ) : chase next (n + 1) a = some r := by
  rw [chase, h]

theorem chase_inr (h : Leads next a b) (n : ℕ) :
    chase next (n + 1) a = chase next n b := by
  rw [chase, h]

theorem chase_mono {n m : ℕ} (h : chase next n a = some r) (hle : n ≤ m) :
    chase next m a = some r := by
  induction n generalizing a m with
  | zero => cases h
  | succ n ih =>
    obtain ⟨m, rfl⟩ := Nat.exists_eq_add_one.mpr (Nat.zero_lt_of_lt hle)
    cases hnext : next a with
    | inl r' =>
      rw [chase_inl hnext] at h ⊢
      exact h
    | inr b =>
      rw [chase_inr hnext] at h ⊢
      exact ih h (Nat.le_of_succ_le_succ hle)

/-- A chain without a circle ends after the names of `s`, when these are the ones on it that lead
on. -/
theorem chase_isSome [DecidableEq α] (s : Finset α)
    (hs : ∀ b c, ReflTransGen (Leads next) a b → Leads next b c → b ∈ s)
    (hcircle : ∀ b, ReflTransGen (Leads next) a b → ¬ Circle (Leads next) b) :
    (chase next (s.card + 1) a).isSome := by
  induction hcard : s.card generalizing a s with
  | zero =>
    cases hnext : next a with
    | inl r =>
      rw [chase_inl hnext]
      rfl
    | inr b =>
      have hmem := hs a b .refl hnext
      rw [Finset.card_eq_zero.mp hcard] at hmem
      exact absurd hmem (Finset.notMem_empty a)
  | succ k ih =>
    cases hnext : next a with
    | inl r =>
      rw [chase_inl hnext]
      rfl
    | inr b =>
      have hmem := hs a b .refl hnext
      rw [chase_inr hnext]
      refine ih (s.erase a) (fun c d hc hd => ?_) (fun c hc => hcircle c (hc.head hnext)) ?_
      · -- the chain does not come back to `a`
        refine Finset.mem_erase.mpr ⟨?_, hs c d (hc.head hnext) hd⟩
        rintro rfl
        exact hcircle c .refl (TransGen.head' hnext hc)
      · rw [Finset.card_erase_of_mem hmem, hcard]
        rfl

/-- A name that comes to a value is on no circle. The induction is on the number of lookups. -/
theorem not_circle {n : ℕ} (h : (chase next n a).isSome) : ¬ Circle (Leads next) a := by
  induction n generalizing a with
  | zero => cases h
  | succ n ih =>
    intro hcircle
    obtain ⟨b, hab, hba⟩ := TransGen.head'_iff.mp hcircle
    rw [chase_inr hab] at h
    exact ih h (TransGen.tail' hba hab)

theorem chase_reached {n : ℕ} (h : chase next n a = some r)
    (hreach : ReflTransGen (Leads next) a b) : ∃ m, chase next m b = some r := by
  induction hreach with
  | refl => exact ⟨n, h⟩
  | tail _ hstep ih =>
    obtain ⟨m, hm⟩ := ih
    cases m with
    | zero => cases hm
    | succ m =>
      rw [chase_inr hstep] at hm
      exact ⟨m, hm⟩

theorem chase_card [DecidableEq α] (s : Finset α) (hs : ∀ a b, Leads next a b → a ∈ s) {n : ℕ}
    (h : chase next n a = some r) : chase next (s.card + 1) a = some r := by
  have hsome : (chase next (s.card + 1) a).isSome := by
    refine chase_isSome s (fun b c _ => hs b c) fun b hb => ?_
    obtain ⟨m, hm⟩ := chase_reached h hb
    exact not_circle (Option.isSome_of_eq_some hm)
  obtain ⟨r', hr'⟩ := Option.isSome_iff_exists.mp hsome
  have hn := chase_mono h (Nat.le_add_right n (s.card + 1))
  rw [chase_mono hr' (Nat.le_add_left (s.card + 1) n)] at hn
  exact hr'.trans hn

theorem chases_iff [DecidableEq α] (s : Finset α) (hs : ∀ a b, Leads next a b → a ∈ s) :
    (∀ a, ∃ n, (chase next n a).isSome) ↔ ∀ a, ¬ Circle (Leads next) a := by
  constructor
  · intro h a
    obtain ⟨n, hn⟩ := h a
    exact not_circle hn
  · intro h a
    exact ⟨_, chase_isSome s (fun b c _ => hs b c) (fun b _ => h b)⟩

end Netkit.Foundations

import Mathlib.Algebra.BigOperators.Group.List.Basic
import Mathlib.Algebra.Order.Ring.Nat
import Mathlib.Data.Nat.ModEq

/-!
# One's complement sums

Numbers below a radix are added with the carry put back at the low end.
-/

namespace Netkit.Foundations

variable {B a b : ℕ} {l : List ℕ}

def addCarry (B a b : ℕ) : ℕ := if a + b < B then a + b else a + b + 1 - B

def onesSum (B : ℕ) (l : List ℕ) : ℕ := l.foldl (addCarry B) 0

def fold (B s : ℕ) : ℕ := s / B + s % B

/-- Numbers below the radix that are the same modulo the radix less one differ only where one is
nought and the other is all ones. -/
theorem eq_of_modEq (ha : a < B) (hb : b < B) (hzero : a = 0 ↔ b = 0)
    (h : a ≡ b [MOD B - 1]) : a = b := by
  rcases Nat.eq_zero_or_pos a with rfl | hpos
  · exact (hzero.mp rfl).symm
  · have hpos' : 0 < b := Nat.pos_of_ne_zero fun hb0 => Nat.ne_of_gt hpos (hzero.mpr hb0)
    have hpred : a - 1 ≡ b - 1 [MOD B - 1] := by
      refine Nat.ModEq.add_right_cancel' 1 ?_
      rwa [Nat.sub_add_cancel hpos, Nat.sub_add_cancel hpos']
    have heq := hpred.eq_of_lt_of_lt (by omega) (by omega)
    omega

theorem addCarry_lt (ha : a < B) (hb : b < B) : addCarry B a b < B := by
  rw [addCarry]
  split <;> omega

theorem addCarry_eq_zero_iff : addCarry B a b = 0 ↔ a = 0 ∧ b = 0 ∧ 0 < B := by
  rw [addCarry]
  split <;> omega

theorem addCarry_modEq (hB : 0 < B) (a b : ℕ) : addCarry B a b ≡ a + b [MOD B - 1] := by
  rw [addCarry]
  split
  · exact Nat.ModEq.refl _
  · have heq : a + b = (a + b + 1 - B) + (B - 1) := by omega
    conv_rhs => rw [heq]
    exact (Nat.add_modEq_right (n := B - 1)).symm

theorem foldl_addCarry (hB : 0 < B) (hl : ∀ x ∈ l, x < B) (ha : a < B) :
    l.foldl (addCarry B) a < B ∧ (l.foldl (addCarry B) a = 0 ↔ a + l.sum = 0) ∧
      l.foldl (addCarry B) a ≡ a + l.sum [MOD B - 1] := by
  induction l generalizing a with
  | nil => exact ⟨ha, Iff.rfl, Nat.ModEq.refl _⟩
  | cons x l ih =>
    have hx := hl x List.mem_cons_self
    obtain ⟨hlt, hzero, hmod⟩ := ih (fun y hy => hl y (List.mem_cons_of_mem x hy))
      (addCarry_lt ha hx)
    rw [List.foldl_cons, List.sum_cons]
    refine ⟨hlt, hzero.trans ?_, hmod.trans ?_⟩
    · have hsum := addCarry_eq_zero_iff (B := B) (a := a) (b := x)
      omega
    · rw [← Nat.add_assoc]
      exact (addCarry_modEq hB a x).add_right _

theorem onesSum_lt (hB : 0 < B) (hl : ∀ x ∈ l, x < B) : onesSum B l < B :=
  (foldl_addCarry hB hl hB).1

theorem onesSum_eq_zero_iff (hB : 0 < B) (hl : ∀ x ∈ l, x < B) : onesSum B l = 0 ↔ l.sum = 0 := by
  have h := (foldl_addCarry hB hl hB).2.1
  rwa [Nat.zero_add] at h

theorem onesSum_modEq (hB : 0 < B) (hl : ∀ x ∈ l, x < B) : onesSum B l ≡ l.sum [MOD B - 1] := by
  have h := (foldl_addCarry hB hl hB).2.2
  rwa [Nat.zero_add] at h

theorem onesSum_unique (hB : 0 < B) (hl : ∀ x ∈ l, x < B) (ha : a < B) (hzero : a = 0 ↔ l.sum = 0)
    (h : a ≡ l.sum [MOD B - 1]) : onesSum B l = a :=
  eq_of_modEq (onesSum_lt hB hl) ha ((onesSum_eq_zero_iff hB hl).trans hzero.symm)
    ((onesSum_modEq hB hl).trans h.symm)

theorem fold_modEq (hB : 0 < B) (s : ℕ) : fold B s ≡ s [MOD B - 1] := by
  have heq : s = fold B s + (B - 1) * (s / B) := by
    have hdiv := Nat.div_add_mod s B
    obtain ⟨n, rfl⟩ := Nat.exists_eq_add_one.mpr hB
    rw [Nat.add_mul, Nat.one_mul] at hdiv
    rw [fold, Nat.add_sub_cancel]
    omega
  conv_rhs => rw [heq]
  exact (Nat.add_modulus_mul_modEq_iff.mpr (Nat.ModEq.refl _)).symm

theorem fold_eq_zero_iff (B s : ℕ) : fold B s = 0 ↔ s = 0 := by
  rw [fold, Nat.add_eq_zero_iff]
  constructor
  · intro h
    have hdiv := Nat.div_add_mod s B
    rw [h.1, h.2, Nat.mul_zero] at hdiv
    exact hdiv.symm
  · rintro rfl
    exact ⟨Nat.zero_div B, Nat.zero_mod B⟩

theorem fold_fold (hB : 1 < B) (hl : ∀ x ∈ l, x < B) (hs : l.sum < B * B) :
    (fold B l.sum + fold B l.sum / B) % B = onesSum B l := by
  have hpos : 0 < B := Nat.lt_of_succ_lt hB
  have hhigh : l.sum / B < B := Nat.div_lt_of_lt_mul hs
  have hlow : l.sum % B < B := Nat.mod_lt _ hpos
  have hmod := fold_modEq hpos l.sum
  have hzero := fold_eq_zero_iff B l.sum
  have hbound : fold B l.sum ≤ B + B - 2 := by
    rw [fold]
    omega
  symm
  rcases Nat.lt_or_ge (fold B l.sum) B with hlt | hge
  · rw [Nat.div_eq_of_lt hlt, Nat.add_zero, Nat.mod_eq_of_lt hlt]
    exact onesSum_unique hpos hl hlt hzero hmod
  · have hone : fold B l.sum / B = 1 := Nat.div_eq_of_lt_le (by omega) (by omega)
    have hsub : (fold B l.sum + 1) % B = fold B l.sum + 1 - B := by
      rw [Nat.mod_eq_sub_mod (by omega), Nat.mod_eq_of_lt (by omega)]
    rw [hone, hsub]
    refine onesSum_unique hpos hl (by omega) ⟨fun h => by omega, fun h => ?_⟩ ?_
    · have hnone := hzero.mpr h
      omega
    · have heq : fold B l.sum = (fold B l.sum + 1 - B) + (B - 1) := by omega
      refine Nat.ModEq.trans ?_ hmod
      conv_rhs => rw [heq]
      exact (Nat.add_modEq_right (n := B - 1)).symm

end Netkit.Foundations

import Mathlib.Data.List.Basic
import Mathlib.Order.Basic

/-!
# How many events an interval holds

Times are natural numbers, in a list in the order in which the events happen.
-/

namespace Netkit.Foundations

/-- The interval of the length `w` from `start` on, its ends included. -/
def inInterval (w start t : ℕ) : Bool := start ≤ t && t ≤ start + w

theorem inInterval_iff {w start t : ℕ} :
    inInterval w start t = true ↔ start ≤ t ∧ t ≤ start + w := by
  rw [inInterval, Bool.and_eq_true, decide_eq_true_eq, decide_eq_true_eq]

/-- No interval of the length `w` holds more than `k` of the times. -/
def AtMost (k w : ℕ) (ts : List ℕ) : Prop :=
  ∀ start, (ts.filter (inInterval w start)).length ≤ k

variable {k w : ℕ} {ts : List ℕ}

theorem atMost_of_spaced (hsorted : ts.Pairwise (· ≤ ·))
    (hspaced : ∀ i, (hi : i + k < ts.length) → ts[i] + w < ts[i + k]) : AtMost k w ts := by
  intro start
  induction ts with
  | nil => exact Nat.zero_le k
  | cons t ts ih =>
    obtain ⟨hfirst, hrest⟩ := List.pairwise_cons.mp hsorted
    have htail : (ts.filter (inInterval w start)).length ≤ k :=
      ih hrest (fun i hi => by
        have hnext : (i + 1) + k < (t :: ts).length := by
          rw [List.length_cons]
          omega
        have hlt := hspaced (i + 1) hnext
        have hindex : (i + 1) + k = (i + k) + 1 := by omega
        simp only [hindex, List.getElem_cons_succ] at hlt
        exact hlt)
    by_cases hin : inInterval w start t = true
    · rw [List.filter_cons_of_pos hin, List.length_cons]
      obtain ⟨hstart, -⟩ := inInterval_iff.mp hin
      cases k with
      | zero =>
        have hlt := hspaced 0 (Nat.succ_pos _)
        simp only [Nat.add_zero] at hlt
        omega
      | succ k =>
        -- From its place `k` on, the rest of the list lies behind the interval.
        have hbehind : (ts.drop k).filter (inInterval w start) = [] := by
          rw [List.filter_eq_nil_iff]
          intro u hu
          obtain ⟨j, hj, rfl⟩ := List.mem_iff_getElem.mp hu
          rw [List.length_drop] at hj
          have hlt := hspaced 0 (by rw [List.length_cons]; omega)
          have hle : ts[k] ≤ ts[k + j] := by
            rcases Nat.eq_zero_or_pos j with rfl | hpos
            · exact Nat.le_refl _
            · exact List.pairwise_iff_getElem.mp hrest k (k + j) (by omega) (by omega) (by omega)
          simp only [Nat.zero_add, List.getElem_cons_zero, List.getElem_cons_succ] at hlt
          rw [List.getElem_drop, inInterval_iff]
          omega
        have hfront : (ts.filter (inInterval w start)).length ≤ k :=
          calc (ts.filter (inInterval w start)).length
              = ((ts.take k ++ ts.drop k).filter (inInterval w start)).length := by
                rw [List.take_append_drop]
            _ = ((ts.take k).filter (inInterval w start)).length := by
                rw [List.filter_append, hbehind, List.append_nil]
            _ ≤ (ts.take k).length := List.length_filter_le _ _
            _ ≤ k := List.length_take_le _ _
        omega
    · rw [List.filter_cons_of_neg hin]
      exact htail

theorem getElem_le_of_pairwise (hsorted : ts.Pairwise (· ≤ ·)) {a b : ℕ} (hab : a ≤ b)
    (ha : a < ts.length) (hb : b < ts.length) : ts[a] ≤ ts[b] := by
  rcases Nat.eq_or_lt_of_le hab with rfl | hlt
  · exact Nat.le_refl _
  · exact List.pairwise_iff_getElem.mp hsorted a b ha hb hlt

theorem AtMost.spaced (hsorted : ts.Pairwise (· ≤ ·)) (h : AtMost k w ts) (i : ℕ)
    (hi : i + k < ts.length) : ts[i] + w < ts[i + k] := by
  by_contra hnear
  have hall : ((ts.drop i).take (k + 1)).filter (inInterval w ts[i]) =
      (ts.drop i).take (k + 1) := by
    rw [List.filter_eq_self]
    intro t ht
    obtain ⟨j, hj, rfl⟩ := List.mem_iff_getElem.mp ht
    rw [List.length_take, List.length_drop] at hj
    have hin : i + j < ts.length := by omega
    have hlow := getElem_le_of_pairwise hsorted (Nat.le_add_right i j) (by omega) hin
    have hhigh := getElem_le_of_pairwise hsorted (show i + j ≤ i + k by omega) hin hi
    rw [List.getElem_take, List.getElem_drop, inInterval_iff]
    omega
  have hsub : ((ts.drop i).take (k + 1)).Sublist ts :=
    (List.take_sublist _ _).trans (List.drop_sublist _ _)
  have hle := (hsub.filter (inInterval w ts[i])).length_le
  rw [hall, List.length_take, List.length_drop] at hle
  have := h ts[i]
  omega

end Netkit.Foundations

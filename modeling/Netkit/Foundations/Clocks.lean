import Mathlib.Algebra.Order.Floor.Ring
import Mathlib.Tactic.Linarith

/-!
# Two clocks that are read in whole units

One clock is ahead of the other by `d`. What goes from the first to the second seems to take `d`
longer than it does, what goes back `d` less, and every reading is rounded down.
-/

namespace Netkit.Foundations

variable {α : Type*} [Field α] [LinearOrder α]

/-- `x` is one of `xs`, and none is smaller. -/
def Smallest (x : α) (xs : List α) : Prop := x ∈ xs ∧ ∀ y ∈ xs, x ≤ y

/-- The number `m` is the least of the differences that were read of transfers which took the times
`xs`, each off by less than one, on clocks that make each `c` longer. When `c` is whole, no
difference is less. -/
structure Estimates (c : α) (xs : List α) (m : ℤ) : Prop where
  above : ∃ x ∈ xs, x + c - 1 < m
  below : ∀ x ∈ xs, (m : α) < x + c + 1
  whole : ∀ k : ℤ, c = k → k ≤ m

variable {c x d out back : α} {xs outs backs : List α} {m n : ℤ}

theorem Estimates.ne_nil (h : Estimates c xs m) : xs ≠ [] := by
  obtain ⟨x, hx, -⟩ := h.above
  exact List.ne_nil_of_mem hx

theorem Estimates.single (hlow : x + c - 1 < m) (hhigh : (m : α) < x + c + 1)
    (hwhole : ∀ k : ℤ, c = k → k ≤ m) : Estimates c [x] m := by
  refine ⟨⟨x, List.mem_singleton_self x, hlow⟩, fun y hy => ?_, hwhole⟩
  rw [List.mem_singleton.mp hy]
  exact hhigh

variable [IsStrictOrderedRing α]

theorem Estimates.min (h : Estimates c xs m) (hx : Estimates c [x] n) :
    Estimates c (xs ++ [x]) (if n < m then n else m) := by
  obtain ⟨y, hy, hlow⟩ := hx.above
  obtain rfl := List.mem_singleton.mp hy
  have hhigh := hx.below y hy
  split
  · next hlt =>
    have hlt' : (n : α) < m := Int.cast_lt.mpr hlt
    refine ⟨⟨y, List.mem_append_right xs hy, hlow⟩, fun z hz => ?_, hx.whole⟩
    rcases List.mem_append.mp hz with hz | hz
    · exact hlt'.trans (h.below z hz)
    · rw [List.mem_singleton.mp hz]
      exact hhigh
  · next hle =>
    have hle' : (m : α) ≤ n := Int.cast_le.mpr (not_lt.mp hle)
    obtain ⟨w, hw, hwlow⟩ := h.above
    refine ⟨⟨w, List.mem_append_left _ hw, hwlow⟩, fun z hz => ?_, h.whole⟩
    rcases List.mem_append.mp hz with hz | hz
    · exact h.below z hz
    · rw [List.mem_singleton.mp hz]
      exact hle'.trans_lt hhigh

theorem Estimates.bounds (h : Estimates c xs m) (hx : Smallest x xs) :
    x + c - 1 < m ∧ (m : α) < x + c + 1 := by
  obtain ⟨y, hy, hlow⟩ := h.above
  have hxy := hx.2 y hy
  exact ⟨by linarith, h.below x hx.1⟩

theorem abs_tdiv_two_sub_le (n : ℤ) : |((n.tdiv 2 : ℤ) : α) - n / 2| ≤ 1 / 2 := by
  have hbounds : n - 1 ≤ n.tdiv 2 * 2 ∧ n.tdiv 2 * 2 ≤ n + 1 := by
    rcases Int.le_total 0 n with hn | hn
    · rw [Int.tdiv_eq_ediv_of_nonneg hn]
      omega
    · have hneg : n.tdiv 2 = -((-n) / 2) := by
        rw [← Int.neg_neg (n.tdiv 2), ← Int.neg_tdiv, Int.tdiv_eq_ediv_of_nonneg (by omega)]
      rw [hneg]
      omega
  have hlow : (n : α) - 1 ≤ (n.tdiv 2 : ℤ) * 2 := by exact_mod_cast hbounds.1
  have hhigh : ((n.tdiv 2 : ℤ) : α) * 2 ≤ n + 1 := by exact_mod_cast hbounds.2
  rw [abs_le]
  constructor <;> linarith

theorem offset_error (hout : Estimates d outs m) (hback : Estimates (-d) backs n)
    (ho : Smallest out outs) (hb : Smallest back backs) (ho' : 0 ≤ out) (hb' : 0 ≤ back) :
    |(((m - n).tdiv 2 : ℤ) : α) - d| < max out back / 2 + 3 / 2 ∧
      ∀ k : ℤ, d = k → |(((m - n).tdiv 2 : ℤ) : α) - d| < max out back / 2 + 1 := by
  obtain ⟨hm, hm'⟩ := hout.bounds ho
  obtain ⟨hn, hn'⟩ := hback.bounds hb
  have hhalf := abs_tdiv_two_sub_le (α := α) (m - n)
  have hmaxo := le_max_left out back
  have hmaxb := le_max_right out back
  rw [abs_le, Int.cast_sub] at hhalf
  obtain ⟨hlow, hhigh⟩ := hhalf
  constructor
  · rw [abs_lt]
    constructor <;> linarith
  · intro k hk
    have hkm : (k : α) ≤ m := Int.cast_le.mpr (hout.whole k hk)
    have hkn : -(k : α) ≤ n := by
      exact_mod_cast hback.whole (-k) (by rw [hk, Int.cast_neg])
    rw [hk] at hm hm' hn hn' ⊢
    rw [abs_lt]
    constructor <;> linarith

variable [FloorRing α]

theorem floor_sub_floor_lt (x y : α) :
    x - y - 1 < ((⌊x⌋ - ⌊y⌋ : ℤ) : α) ∧ ((⌊x⌋ - ⌊y⌋ : ℤ) : α) < x - y + 1 := by
  have hx := Int.floor_le x
  have hx' := Int.lt_floor_add_one x
  have hy := Int.floor_le y
  have hy' := Int.lt_floor_add_one y
  rw [Int.cast_sub]
  constructor <;> linarith

theorem estimates_floor (t : α) (hx : 0 ≤ x) : Estimates c [x] (⌊t + x + c⌋ - ⌊t⌋) := by
  obtain ⟨hlow, hhigh⟩ := floor_sub_floor_lt (t + x + c) t
  refine .single (by linarith) (by linarith) fun k hk => ?_
  have hmono : ⌊t⌋ ≤ ⌊t + x⌋ := Int.floor_mono (by linarith)
  rw [hk, Int.floor_add_intCast]
  linarith

end Netkit.Foundations

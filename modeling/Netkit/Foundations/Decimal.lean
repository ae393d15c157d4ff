import Mathlib.Algebra.Group.Nat.Defs
import Netkit.Foundations.Lines

/-!
# Numbers in a text

How `printf` writes a number, and what a loop over digits reads: the number comes back, and it ends
where it should.
-/

namespace Netkit.Foundations

def isDigit (c : UInt8) : Bool := decide (48 ≤ c.toNat) && decide (c.toNat ≤ 57)

/-- `%ld` of a number that is not negative. -/
def decimal (n : Nat) : Bytes := (Nat.toDigits 10 n).map (fun c => UInt8.ofNat c.toNat)

def value (digits : Bytes) : Nat := digits.foldl (fun n c => 10 * n + (c.toNat - 48)) 0

theorem foldl_value (digits : Bytes) :
    digits.foldl (fun n c => n * 10 + (c.toNat - 48)) 0 = value digits := by
  have hmul : (fun (n : Nat) (c : UInt8) => n * 10 + (c.toNat - 48)) =
      fun n c => 10 * n + (c.toNat - 48) := by
    funext n c
    rw [Nat.mul_comm]
  rw [hmul]
  rfl

theorem digitChar_toNat {c : Char} (hc : c.isDigit = true) :
    48 ≤ c.toNat ∧ c.toNat ≤ 57 ∧ (UInt8.ofNat c.toNat).toNat = c.toNat := by
  rw [Char.isDigit, Bool.and_eq_true, decide_eq_true_iff, decide_eq_true_iff] at hc
  have hlow : 48 ≤ c.toNat := hc.1
  have hhigh : c.toNat ≤ 57 := hc.2
  refine ⟨hlow, hhigh, ?_⟩
  rw [UInt8.toNat_ofNat']
  omega

theorem decimal_digits (n : Nat) : ∀ c ∈ decimal n, isDigit c = true := by
  intro c hc
  obtain ⟨d, hd, rfl⟩ := List.mem_map.mp hc
  obtain ⟨hlow, hhigh, hnat⟩ :=
    digitChar_toNat (Nat.isDigit_of_mem_toDigits (by decide) (by decide) hd)
  rw [isDigit, hnat, decide_eq_true hlow, decide_eq_true hhigh]
  rfl

theorem decimal_length {n k : ℕ} (hk : 0 < k) (hn : n < 10 ^ k) : (decimal n).length ≤ k := by
  rw [decimal, List.length_map]
  exact (Nat.length_toDigits_le_iff (by decide) hk).mpr hn

theorem value_decimal (n : Nat) : value (decimal n) = n := by
  have hfold : ∀ (cs : List Char) (k : Nat), (∀ c ∈ cs, c.isDigit = true) →
      (cs.map (fun c => UInt8.ofNat c.toNat)).foldl (fun n c => 10 * n + (c.toNat - 48)) k =
        Nat.ofDigitChars 10 cs k := by
    intro cs
    induction cs with
    | nil => exact fun k _ => rfl
    | cons c cs ih =>
      intro k hcs
      obtain ⟨-, -, hnat⟩ := digitChar_toNat (hcs c List.mem_cons_self)
      rw [List.map_cons, List.foldl_cons, hnat, ih _ (fun d hd => hcs d (List.mem_cons_of_mem c hd))]
      rfl
  unfold value decimal
  rw [hfold _ 0 (fun c hc => Nat.isDigit_of_mem_toDigits (by decide) (by decide) hc)]
  exact Nat.ofDigitChars_ten_toDigits

theorem decimal_span (n : Nat) {c : UInt8} (hc : isDigit c = false) (rest : Bytes) :
    (decimal n ++ c :: rest).takeWhile isDigit = decimal n ∧
      (decimal n ++ c :: rest).dropWhile isDigit = c :: rest := by
  have hnot : ¬ isDigit c = true := by
    rw [hc]
    exact Bool.false_ne_true
  constructor
  · rw [List.takeWhile_append_of_pos (decimal_digits n), List.takeWhile_cons_of_neg hnot,
      List.append_nil]
  · rw [List.dropWhile_append_of_pos (decimal_digits n), List.dropWhile_cons_of_neg hnot]

/-- `%04o` of a number below `010000`. -/
def octal4 (n : Nat) : Bytes :=
  [UInt8.ofNat (48 + n / 512 % 8), UInt8.ofNat (48 + n / 64 % 8), UInt8.ofNat (48 + n / 8 % 8),
    UInt8.ofNat (48 + n % 8)]

def octalValue (digits : Bytes) : Option Nat :=
  digits.foldl (fun n c => n.bind (fun n =>
    if 48 ≤ c.toNat ∧ c.toNat ≤ 55 then some (8 * n + (c.toNat - 48)) else none)) (some 0)

theorem octalValue_octal4 {n : Nat} (hn : n < 4096) : octalValue (octal4 n) = some n := by
  have hdigit (k : Nat) : (UInt8.ofNat (48 + k % 8)).toNat = 48 + k % 8 := by
    rw [UInt8.toNat_ofNat']
    omega
  have hrange (k : Nat) : 48 ≤ 48 + k % 8 ∧ 48 + k % 8 ≤ 55 := by omega
  unfold octalValue octal4
  simp only [List.foldl_cons, List.foldl_nil, Option.bind_some, hdigit, if_pos (hrange _)]
  refine congrArg some ?_
  omega

end Netkit.Foundations

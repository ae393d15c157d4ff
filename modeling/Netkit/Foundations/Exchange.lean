import Mathlib.Data.List.Basic
import Netkit.Foundations.Lines

/-!
# Sorting by exchange

Every place of a list is compared with those behind it, and exchanged with each that is smaller.
-/

namespace Netkit.Foundations

section

variable {α : Type} (le : α → α → Bool)

/-- The inner loop: the element that is left at the first place, and the others. -/
def exchange (c : α) : List α → α × List α
  | [] => (c, [])
  | d :: l =>
    if le c d then ((exchange c l).1, d :: (exchange c l).2)
    else ((exchange d l).1, c :: (exchange d l).2)

def exchangeFrom : ℕ → List α → List α
  | 0, l => l
  | _ + 1, [] => []
  | n + 1, c :: l => (exchange le c l).1 :: exchangeFrom n (exchange le c l).2

def exchangeSort (l : List α) : List α := exchangeFrom le l.length l

variable {le} (trans : ∀ a b c, le a b = true → le b c = true → le a c = true)
  (total : ∀ a b, le a b = true ∨ le b a = true)

end

/-- `strcmp(a, b) <= 0`. -/
def strLe : Bytes → Bytes → Bool
  | [], _ => true
  | _ :: _, [] => false
  | a :: s, b :: t => if a = b then strLe s t else decide (a.toNat < b.toNat)

end Netkit.Foundations

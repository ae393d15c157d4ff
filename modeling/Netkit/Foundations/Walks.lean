import Mathlib.Data.Int.Order.Basic
import Mathlib.Order.MinMax

/-!
# Costs of walks

The places of a network have destinations of their own, each at a cost, and a link from one place to
another adds its cost. Costs are cut at a bound, which stands for a destination that is out of reach.
-/

namespace Netkit.Foundations

variable {ι δ : Type*}

/-- A walk from the place to one that has the destination as its own. -/
inductive Walk (own : ι → δ → ℤ → Prop) (link : ι → ι → ℤ → Prop) : ι → δ → ℤ → Prop where
  | own {i : ι} {d : δ} {c : ℤ} (h : own i d c) : Walk own link i d c
  | hop {i j : ι} {d : δ} {c m : ℤ} (hlink : link i j c) (h : Walk own link j d m) :
    Walk own link i d (m + c)

structure Capped (own : ι → δ → ℤ → Prop) (link : ι → ι → ℤ → Prop) (cap : ℤ) (i : ι) (d : δ)
    (m : ℤ) : Prop where
  pos : 1 ≤ m
  le_cap : m ≤ cap
  walk : m < cap → Walk own link i d m

variable {own : ι → δ → ℤ → Prop} {link : ι → ι → ℤ → Prop} {cap c m : ℤ} {i j : ι} {d : δ}

theorem capped_cap (hcap : 1 ≤ cap) : Capped own link cap i d cap :=
  ⟨hcap, le_refl cap, fun h => absurd h (lt_irrefl cap)⟩

theorem capped_own (h : own i d c) (hpos : 1 ≤ c) (hle : c ≤ cap) : Capped own link cap i d c :=
  ⟨hpos, hle, fun _ => .own h⟩

theorem capped_hop (hlink : link i j c) (hc : 0 ≤ c) (h : Capped own link cap j d m) :
    Capped own link cap i d (min (m + c) cap) := by
  have hpos := h.pos
  have hle := h.le_cap
  refine ⟨by omega, min_le_right _ _, ?_⟩
  intro hlt
  have hsum : min (m + c) cap = m + c := by omega
  rw [hsum]
  apply Walk.hop hlink
  apply h.walk
  omega

end Netkit.Foundations

import Mathlib.Data.List.Basic

/-!
# Decoders fed one symbol at a time

A decoder reads one symbol, changes its state and puts out some symbols; a symbol that its
state does not accept stops it. What it has put out does not depend on how its input was cut
into pieces, and what it puts out for a beginning of the input is a beginning of what it puts
out for the whole.
-/

namespace Netkit.Foundations

variable {σ τ α β γ : Type*} (step : σ → α → Option (σ × List β))

def feed : σ → List α → Option (σ × List β)
  | s, [] => some (s, [])
  | s, a :: as => (step s a).bind fun r => (feed r.1 as).map fun q => (q.1, r.2 ++ q.2)

variable {step}

theorem feed_cons_eq_some {s u : σ} {a : α} {as : List α} {z : List β} :
    feed step s (a :: as) = some (u, z) ↔
      ∃ t x y, step s a = some (t, x) ∧ feed step t as = some (u, y) ∧ z = x ++ y := by
  rw [feed, Option.bind_eq_some_iff]
  constructor
  · rintro ⟨⟨t, x⟩, hstep, hrest⟩
    obtain ⟨⟨u', y⟩, hfeed, heq⟩ := Option.map_eq_some_iff.mp hrest
    cases heq
    exact ⟨t, x, y, hstep, hfeed, rfl⟩
  · rintro ⟨t, x, y, hstep, hfeed, rfl⟩
    exact ⟨(t, x), hstep, Option.map_eq_some_iff.mpr ⟨(u, y), hfeed, rfl⟩⟩

theorem feed_append_eq_some {s u : σ} {as bs : List α} {z : List β} :
    feed step s (as ++ bs) = some (u, z) ↔
      ∃ t x y, feed step s as = some (t, x) ∧ feed step t bs = some (u, y) ∧ z = x ++ y := by
  induction as generalizing s z with
  | nil =>
    constructor
    · intro h
      exact ⟨s, [], z, rfl, h, rfl⟩
    · rintro ⟨t, x, y, hnil, hfeed, rfl⟩
      cases hnil
      exact hfeed
  | cons a as ih =>
    rw [List.cons_append]
    constructor
    · intro h
      obtain ⟨t, x, y, hstep, hrest, rfl⟩ := feed_cons_eq_some.mp h
      obtain ⟨v, x', y', has, hbs, rfl⟩ := ih.mp hrest
      exact ⟨v, x ++ x', y', feed_cons_eq_some.mpr ⟨t, x, x', hstep, has, rfl⟩, hbs,
        (List.append_assoc ..).symm⟩
    · rintro ⟨v, w, y', has, hbs, rfl⟩
      obtain ⟨t, x, x', hstep, hrest, rfl⟩ := feed_cons_eq_some.mp has
      exact feed_cons_eq_some.mpr ⟨t, x, x' ++ y', hstep,
        ih.mpr ⟨v, x', y', hrest, hbs, rfl⟩, List.append_assoc ..⟩

/-! ## Code words -/

/-- The word takes the decoder from its home state back to it, and puts out `out`. -/
def Decodes (step : σ → α → Option (σ × List β)) (home : σ) (word : List α) (out : List β) :
    Prop :=
  feed step home word = some (home, out)

theorem decodes_nil (home : σ) : Decodes step home [] [] := rfl

theorem Decodes.append {home : σ} {v w : List α} {x y : List β} (hv : Decodes step home v x)
    (hw : Decodes step home w y) : Decodes step home (v ++ w) (x ++ y) :=
  feed_append_eq_some.mpr ⟨home, x, y, hv, hw, rfl⟩

theorem Decodes.flatMap {home : σ} {code : γ → List α} {out : γ → List β} {xs : List γ}
    (h : ∀ x ∈ xs, Decodes step home (code x) (out x)) :
    Decodes step home (xs.flatMap code) (xs.flatMap out) := by
  induction xs with
  | nil => rfl
  | cons x xs ih =>
    rw [List.flatMap_cons, List.flatMap_cons]
    exact (h x List.mem_cons_self).append (ih fun y hy => h y (List.mem_cons_of_mem x hy))

theorem Decodes.feed_front {home : σ} {as bs : List α} {z : List β}
    (h : Decodes step home (as ++ bs) z) :
    ∃ t x, feed step home as = some (t, x) ∧ x <+: z := by
  obtain ⟨t, x, y, has, -, rfl⟩ := feed_append_eq_some.mp h
  exact ⟨t, x, has, List.prefix_append x y⟩

/-! ## Programs that behave like a decoder -/

/-- On a symbol that the decoder accepts, the program changes its state and adds to its output
as the decoder does. -/
def Simulates (step : σ → α → Option (σ × List β)) (R : τ → σ → Prop) (output : τ → List β)
    (receive : τ → α → τ) : Prop :=
  ∀ t s a s' x, R t s → step s a = some (s', x) →
    R (receive t a) s' ∧ output (receive t a) = output t ++ x

theorem Simulates.foldl {R : τ → σ → Prop} {output : τ → List β} {receive : τ → α → τ}
    (h : Simulates step R output receive) {t : τ} {s s' : σ} {as : List α} {x : List β}
    (hR : R t s) (hfeed : feed step s as = some (s', x)) :
    R (as.foldl receive t) s' ∧ output (as.foldl receive t) = output t ++ x := by
  induction as generalizing t s x with
  | nil =>
    cases hfeed
    exact ⟨hR, (List.append_nil _).symm⟩
  | cons a as ih =>
    obtain ⟨u, y, z, hstep, hrest, rfl⟩ := feed_cons_eq_some.mp hfeed
    obtain ⟨hR', hout⟩ := h t s a u y hR hstep
    obtain ⟨hR'', hout'⟩ := ih hR' hrest
    refine ⟨hR'', ?_⟩
    rw [List.foldl_cons, hout', hout, List.append_assoc]

end Netkit.Foundations

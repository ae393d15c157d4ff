import Mathlib.Data.List.FinRange

/-!
# Chained hash tables

A table of `n` chains, each a list that is searched from its head. Every element lies in the
chain that a placing function gives it.
-/

namespace Netkit.Foundations

variable {α : Type*} {n : ℕ}

abbrev Chains (α : Type*) (n : ℕ) := Fin n → List α

namespace Chains

def elements (t : Chains α n) : List α := (List.finRange n).flatMap t

/-- A change of the chain `b`. -/
def modify (b : Fin n) (f : List α → List α) (t : Chains α n) : Chains α n :=
  fun i => if i = b then f (t i) else t i

/-- Insertion at the head of the chain `b`. -/
def push (b : Fin n) (a : α) (t : Chains α n) : Chains α n := t.modify b (a :: ·)

/-- Every element lies in the chain that `place` gives it. -/
def Placed (place : α → Fin n) (t : Chains α n) : Prop := ∀ b, ∀ a ∈ t b, place a = b

variable {t : Chains α n} {a : α} {b : Fin n} {place : α → Fin n} {p : α → Bool}

theorem mem_elements : a ∈ t.elements ↔ ∃ b, a ∈ t b := by
  simp [elements]

theorem elements_nil : elements (fun _ => [] : Chains α n) = [] :=
  List.flatMap_eq_nil_iff.mpr (fun _ _ => rfl)

@[simp] theorem push_self : t.push b a b = a :: t b := if_pos rfl

theorem push_of_ne {i : Fin n} (h : i ≠ b) : t.push b a i = t i := if_neg h

theorem mem_elements_push {x : α} :
    x ∈ (t.push b a).elements ↔ x = a ∨ x ∈ t.elements := by
  simp only [mem_elements]
  constructor
  · rintro ⟨i, hi⟩
    by_cases h : i = b
    · subst h
      rw [push_self] at hi
      rcases List.mem_cons.mp hi with rfl | hi
      · exact Or.inl rfl
      · exact Or.inr ⟨i, hi⟩
    · rw [push_of_ne h] at hi
      exact Or.inr ⟨i, hi⟩
  · rintro (rfl | ⟨i, hi⟩)
    · exact ⟨b, by simp⟩
    · by_cases h : i = b
      · subst h
        exact ⟨i, by simp [hi]⟩
      · exact ⟨i, by rwa [push_of_ne h]⟩

theorem Placed.push (h : t.Placed place) (ha : place a = b) : (t.push b a).Placed place := by
  intro i x hx
  by_cases hi : i = b
  · subst hi
    rw [push_self] at hx
    rcases List.mem_cons.mp hx with rfl | hx
    · exact ha
    · exact h i x hx
  · rw [push_of_ne hi] at hx
    exact h i x hx

/-- All elements that `p` accepts are placed in the chain `b`: the first of them in the whole
table is the first of them in that chain. -/
theorem find?_elements (h : t.Placed place) (hp : ∀ a, p a = true → place a = b) :
    t.elements.find? p = (t b).find? p := by
  have hskip : ∀ i, i ≠ b → (t i).find? p = none := by
    intro i hi
    rw [List.find?_eq_none]
    intro x hx hpx
    exact hi ((h i x hx).symm.trans (hp x hpx))
  have hlist : ∀ l : List (Fin n), b ∈ l → (l.flatMap t).find? p = (t b).find? p := by
    intro l
    induction l with
    | nil => intro hb; cases hb
    | cons i l ih =>
      intro hb
      rw [List.flatMap_cons, List.find?_append]
      by_cases hi : i = b
      · subst hi
        cases hfind : (t i).find? p with
        | some x => rfl
        | none =>
          rw [Option.none_or]
          by_cases hl : i ∈ l
          · rw [ih hl, hfind]
          · rw [List.find?_eq_none]
            intro x hx hpx
            obtain ⟨j, hj, hx⟩ := List.mem_flatMap.mp hx
            have hij : j ≠ i := fun hji => hl (hji ▸ hj)
            exact List.find?_eq_none.mp (hskip j hij) x hx hpx
      · rw [hskip i hi, Option.none_or]
        rcases List.mem_cons.mp hb with rfl | hb
        · exact absurd rfl hi
        · exact ih hb
  exact hlist _ (List.mem_finRange b)

/-- The element at the head of its chain is related to the others: to all of its chain, and
both ways to those of other chains. -/
theorem push_pairwise {R : α → α → Prop} (ht : t.elements.Pairwise R)
    (hself : ∀ x ∈ t b, R a x) (hother : ∀ i, i ≠ b → ∀ x ∈ t i, R a x ∧ R x a) :
    (t.push b a).elements.Pairwise R := by
  obtain ⟨hchain, hchains⟩ := List.pairwise_flatMap.mp ht
  refine List.pairwise_flatMap.mpr ⟨?_, (hchains.and (List.nodup_finRange n)).imp ?_⟩
  · intro i hi
    by_cases h : i = b
    · subst h
      rw [push_self]
      exact List.pairwise_cons.mpr ⟨hself, hchain i hi⟩
    · rw [push_of_ne h]
      exact hchain i hi
  · rintro i j ⟨hij, hne⟩ x hx y hy
    by_cases hi : i = b
    · subst hi
      rw [push_of_ne (Ne.symm hne)] at hy
      rw [push_self] at hx
      rcases List.mem_cons.mp hx with rfl | hx
      · exact (hother j (Ne.symm hne) y hy).1
      · exact hij x hx y hy
    · rw [push_of_ne hi] at hx
      by_cases hj : j = b
      · subst hj
        rw [push_self] at hy
        rcases List.mem_cons.mp hy with rfl | hy
        · exact (hother i hi x hx).2
        · exact hij x hx y hy
      · rw [push_of_ne hj] at hy
        exact hij x hx y hy

def filterMap {β : Type*} (f : α → Option β) (t : Chains α n) : Chains β n :=
  fun i => (t i).filterMap f

theorem elements_filterMap {β : Type*} (f : α → Option β) :
    (t.filterMap f).elements = t.elements.filterMap f :=
  List.filterMap_flatMap.symm

theorem Placed.filterMap {β : Type*} {f : α → Option β} {place' : β → Fin n}
    (h : t.Placed place) (hf : ∀ a ∈ t.elements, ∀ y, f a = some y → place' y = place a) :
    (t.filterMap f).Placed place' := by
  intro i y hy
  obtain ⟨x, hx, hxy⟩ := List.mem_filterMap.mp hy
  exact (hf x (mem_elements.mpr ⟨i, hx⟩) y hxy).trans (h i x hx)

end Chains

end Netkit.Foundations

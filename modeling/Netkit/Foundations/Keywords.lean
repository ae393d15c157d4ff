import Mathlib.Data.List.Basic

/-!
# Abbreviated keywords

A name is looked up in a table of keywords. An entry may be equal to the name or an extension of
it. The equal entry is meant, or else the only extension. A scan that stops at the second
extension finds this only if no equal entry comes later.
-/

namespace Netkit.Foundations

inductive Comparison where
  | different
  | extension
  | equal
  deriving DecidableEq

inductive Lookup where
  | missing
  | ambiguous
  | entry (i : Nat)
  deriving DecidableEq

variable {α : Type*} (kind : α → Comparison)

def Chooses (table : List α) : Lookup → Prop
  | .entry i => ∃ a, table[i]? = some a ∧
      (kind a = .equal ∨
        kind a = .extension ∧ ∀ j b, table[j]? = some b → kind b ≠ .different → j = i)
  | .ambiguous => (∀ b ∈ table, kind b ≠ .equal) ∧
      2 ≤ table.countP (fun b => kind b = .extension)
  | .missing => ∀ b ∈ table, kind b = .different

/-- The scan, from the entry `i` on, with the extension found so far. -/
def scan : List α → Nat → Option Nat → Lookup
  | [], _, none => .missing
  | [], _, some k => .entry k
  | a :: table, i, found =>
    match kind a with
    | .different => scan table (i + 1) found
    | .equal => .entry i
    | .extension => if found.isSome then .ambiguous else scan table (i + 1) (some i)

/-- An equal entry stands behind two extensions, and no equal one before them. -/
def Hidden (table : List α) : Prop :=
  ∃ front rest, table = front ++ rest ∧ (∀ a ∈ front, kind a ≠ .equal) ∧
    2 ≤ front.countP (fun a => kind a = .extension) ∧ ∃ b ∈ rest, kind b = .equal

/-- What the scan knows about the entries behind it. -/
structure Seen (front : List α) (found : Option Nat) : Prop where
  notEqual : ∀ a ∈ front, kind a ≠ .equal
  nothing : found = none → ∀ a ∈ front, kind a = .different
  candidate : ∀ k, found = some k → front.countP (fun a => kind a = .extension) = 1 ∧
    ∃ a, front[k]? = some a ∧ kind a = .extension ∧
      ∀ j b, front[j]? = some b → kind b ≠ .different → j = k

variable {kind} {front table : List α} {found : Option Nat} {a : α}

theorem seen_nil : Seen kind [] none :=
  ⟨fun _ h => absurd h List.not_mem_nil, fun _ _ h => absurd h List.not_mem_nil,
    fun _ h => by cases h⟩

theorem Seen.count_le (h : Seen kind front found) :
    front.countP (fun a => kind a = .extension) ≤ 1 := by
  cases hfound : found with
  | none =>
    have hzero : front.countP (fun a => kind a = .extension) = 0 := by
      rw [List.countP_eq_zero]
      intro a ha
      rw [h.nothing hfound a ha]
      decide
    omega
  | some k => exact Nat.le_of_eq (h.candidate k hfound).1

theorem getElem?_snoc_eq_some {j : Nat} {b : α} (h : (front ++ [a])[j]? = some b) :
    front[j]? = some b ∨ j = front.length ∧ b = a := by
  rcases Nat.lt_trichotomy j front.length with hlt | rfl | hgt
  · rw [List.getElem?_append_left hlt] at h
    exact Or.inl h
  · rw [List.getElem?_concat_length] at h
    exact Or.inr ⟨rfl, (Option.some.inj h).symm⟩
  · rw [List.getElem?_eq_none (by rw [List.length_append, List.length_singleton]; omega)] at h
    cases h

theorem Seen.different (h : Seen kind front found) (ha : kind a = .different) :
    Seen kind (front ++ [a]) found where
  notEqual b hb := by
    rcases List.mem_append.mp hb with hb | hb
    · exact h.notEqual b hb
    · rw [List.mem_singleton.mp hb, ha]
      decide
  nothing hfound b hb := by
    rcases List.mem_append.mp hb with hb | hb
    · exact h.nothing hfound b hb
    · rw [List.mem_singleton.mp hb, ha]
  candidate k hk := by
    obtain ⟨hcount, b, hb, hext, honly⟩ := h.candidate k hk
    have hlt : k < front.length := (List.getElem?_eq_some_iff.mp hb).1
    refine ⟨?_, b, ?_, hext, fun j c hc hkind => ?_⟩
    · rw [List.countP_append, hcount, List.countP_singleton, ha]
      rfl
    · rw [List.getElem?_append_left hlt]
      exact hb
    · rcases getElem?_snoc_eq_some hc with hc | ⟨-, rfl⟩
      · exact honly j c hc hkind
      · exact absurd ha hkind

theorem Seen.extension (h : Seen kind front none) (ha : kind a = .extension) :
    Seen kind (front ++ [a]) (some front.length) where
  notEqual b hb := by
    rcases List.mem_append.mp hb with hb | hb
    · exact h.notEqual b hb
    · rw [List.mem_singleton.mp hb, ha]
      decide
  nothing hfound := by cases hfound
  candidate k hk := by
    cases hk
    have hdifferent := h.nothing rfl
    have hzero : front.countP (fun a => kind a = .extension) = 0 := by
      rw [List.countP_eq_zero]
      intro b hb
      rw [hdifferent b hb]
      decide
    refine ⟨?_, a, List.getElem?_concat_length, ha, fun j b hb hkind => ?_⟩
    · rw [List.countP_append, hzero, List.countP_singleton, ha]
      rfl
    · rcases getElem?_snoc_eq_some hb with hb | ⟨hj, -⟩
      · exact absurd (hdifferent b (List.mem_of_getElem? hb)) hkind
      · exact hj

theorem not_hidden_of_equal (hcount : front.countP (fun a => kind a = .extension) ≤ 1)
    (ha : kind a = .equal) : ¬ Hidden kind (front ++ a :: table) := by
  rintro ⟨front', rest, hsplit, hnotEqual, hmany, -⟩
  rcases List.append_eq_append_iff.mp hsplit with ⟨mid, hfront', hrest⟩ | ⟨mid, hfront, -⟩
  · cases mid with
    | nil =>
      rw [List.append_nil] at hfront'
      rw [hfront'] at hmany
      omega
    | cons b mid =>
      obtain ⟨rfl, -⟩ := List.cons.inj hrest
      refine hnotEqual a ?_ ha
      rw [hfront']
      exact List.mem_append_right _ List.mem_cons_self
  · rw [hfront, List.countP_append] at hcount
    omega

theorem not_hidden_of_notEqual (h : ∀ b ∈ table, kind b ≠ .equal) : ¬ Hidden kind table := by
  rintro ⟨front, rest, rfl, -, -, b, hb, hequal⟩
  exact h b (List.mem_append_right _ hb) hequal

theorem Seen.scan_chooses_iff (h : Seen kind front found) :
    Chooses kind (front ++ table) (scan kind table front.length found) ↔
      ¬ Hidden kind (front ++ table) := by
  induction table generalizing front found with
  | nil =>
    rw [List.append_nil]
    refine iff_of_true ?_ (not_hidden_of_notEqual h.notEqual)
    cases hfound : found with
    | none => exact h.nothing hfound
    | some k =>
      obtain ⟨-, a, ha, hext, honly⟩ := h.candidate k hfound
      exact ⟨a, ha, Or.inr ⟨hext, honly⟩⟩
  | cons a table ih =>
    have hlength : (front ++ [a]).length = front.length + 1 := by
      rw [List.length_append, List.length_singleton]
    have hmove : front ++ a :: table = front ++ [a] ++ table := by
      rw [List.append_assoc, List.singleton_append]
    rw [scan]
    cases hkind : kind a with
    | different =>
      rw [hmove, ← hlength]
      exact ih (h.different hkind)
    | equal =>
      refine iff_of_true ⟨a, ?_, Or.inl hkind⟩ (not_hidden_of_equal h.count_le hkind)
      rw [List.getElem?_append_right (Nat.le_refl _), Nat.sub_self]
      rfl
    | extension =>
      cases hfound : found with
      | none =>
        rw [hfound] at h
        rw [hmove, ← hlength]
        exact ih (h.extension hkind)
      | some k =>
        -- the scan stops here, and there may be an equal entry in the rest
        have hone := (h.candidate k hfound).1
        have htwo : (front ++ [a]).countP (fun a => kind a = .extension) = 2 := by
          rw [List.countP_append, hone, List.countP_singleton, hkind]
          rfl
        have hnotEqual : ∀ b ∈ front ++ [a], kind b ≠ .equal := by
          intro b hb
          rcases List.mem_append.mp hb with hb | hb
          · exact h.notEqual b hb
          · rw [List.mem_singleton.mp hb, hkind]
            decide
        rw [hmove]
        constructor
        · rintro ⟨hnone, -⟩
          exact not_hidden_of_notEqual hnone
        · intro hhidden
          refine ⟨fun b hb hequal => ?_, ?_⟩
          · rcases List.mem_append.mp hb with hb | hb
            · exact hnotEqual b hb hequal
            · exact hhidden ⟨front ++ [a], table, rfl, hnotEqual, Nat.le_of_eq htwo.symm, b, hb,
                hequal⟩
          · rw [List.countP_append, htwo]
            exact Nat.le_add_right 2 _

theorem scan_chooses_iff :
    Chooses kind table (scan kind table 0 none) ↔ ¬ Hidden kind table :=
  seen_nil.scan_chooses_iff

end Netkit.Foundations

import Mathlib.Data.UInt
import Netkit.Foundations.Keywords

/-!
# The client's keyword tables

`genget` of `genget.cc` looks up the commands, options and settings that the user abbreviates. It
goes through the table with `isprefix` and stops at the first entry that is equal, or at the second
one that the name is a prefix of.

* `genget_chooses_iff`: when the order of the table does not matter.

A string is the list of its bytes, without the NUL.
-/

namespace Netkit.Telnet.Client

open Netkit.Foundations

def LOWER (c : UInt8) : UInt8 := if 65 ≤ c ∧ c ≤ 90 then c + 32 else c

/-- The loop of `isprefix`: what is left of the strings where they differ or end. -/
def isPrefixRest : List UInt8 → List UInt8 → List UInt8 × List UInt8
  | c1 :: s1, c2 :: s2 => if LOWER c1 = LOWER c2 then isPrefixRest s1 s2 else (c1 :: s1, c2 :: s2)
  | s1, s2 => (s1, s2)

def isPrefix (s1 s2 : List UInt8) : Int :=
  if s1 = [] then -1
  else
    let rest := isPrefixRest s1 s2
    let length : Int := s1.length - rest.1.length
    if rest.1 ≠ [] then 0 else if rest.2 ≠ [] then length else -length

/-- The loop of `genget`. -/
def gengetLoop (name : List UInt8) : List (List UInt8) → Nat → Option Nat → Lookup
  | [], _, none => .missing
  | [], _, some k => .entry k
  | c :: table, i, found =>
    let n := isPrefix name c
    if n = 0 then gengetLoop name table (i + 1) found
    else if n < 0 then .entry i
    else if found.isSome then .ambiguous
    else gengetLoop name table (i + 1) (some i)

/-- `NULL` is `missing`, and an entry is given by its place in the table. -/
def genget (name : Option (List UInt8)) (table : List (List UInt8)) : Lookup :=
  match name with
  | none => .missing
  | some name => gengetLoop name table 0 none

/-! ## What the comparison says -/

def lowered (s : List UInt8) : List UInt8 := s.map LOWER

def comparison (name entry : List UInt8) : Comparison :=
  if lowered name = lowered entry then .equal
  else if lowered name <+: lowered entry then .extension
  else .different

theorem isPrefixRest_spec (s1 s2 : List UInt8) :
    ((isPrefixRest s1 s2).1 = [] ↔ lowered s1 <+: lowered s2) ∧
      ((isPrefixRest s1 s2).1 = [] → ((isPrefixRest s1 s2).2 = [] ↔ lowered s1 = lowered s2)) := by
  induction s1 generalizing s2 with
  | nil =>
    refine ⟨iff_of_true rfl List.nil_prefix, fun _ => ?_⟩
    cases s2 with
    | nil => exact iff_of_true rfl rfl
    | cons c2 s2 => exact iff_of_false (List.cons_ne_nil c2 s2) (by rintro ⟨⟩)
  | cons c1 s1 ih =>
    cases s2 with
    | nil =>
      have hne : ¬ lowered (c1 :: s1) <+: lowered [] := by
        intro h
        exact absurd (List.prefix_nil.mp h) (List.cons_ne_nil _ _)
      exact ⟨iff_of_false (List.cons_ne_nil c1 s1) hne,
        fun h => absurd h (List.cons_ne_nil c1 s1)⟩
    | cons c2 s2 =>
      rw [isPrefixRest]
      by_cases hc : LOWER c1 = LOWER c2
      · rw [if_pos hc]
        obtain ⟨hfront, hequal⟩ := ih s2
        have hcons : lowered (c1 :: s1) <+: lowered (c2 :: s2) ↔ lowered s1 <+: lowered s2 := by
          rw [lowered, lowered, List.map_cons, List.map_cons, hc, List.prefix_cons_inj]
          rfl
        have hcons' : lowered (c1 :: s1) = lowered (c2 :: s2) ↔ lowered s1 = lowered s2 := by
          rw [lowered, lowered, List.map_cons, List.map_cons, hc, List.cons_eq_cons]
          exact and_iff_right rfl
        exact ⟨hfront.trans hcons.symm, fun h => (hequal h).trans hcons'.symm⟩
      · rw [if_neg hc]
        have hne : ¬ lowered (c1 :: s1) <+: lowered (c2 :: s2) := by
          intro h
          exact hc (List.cons_prefix_cons.mp h).1
        exact ⟨iff_of_false (List.cons_ne_nil c1 s1) hne,
          fun h => absurd h (List.cons_ne_nil c1 s1)⟩

theorem isPrefix_compares {name : List UInt8} (hname : name ≠ []) (entry : List UInt8) :
    (isPrefix name entry = 0 ↔ comparison name entry = .different) ∧
      (isPrefix name entry < 0 ↔ comparison name entry = .equal) := by
  obtain ⟨hfront, hequal⟩ := isPrefixRest_spec name entry
  have hlength : 0 < name.length := List.length_pos_of_ne_nil hname
  rw [isPrefix, if_neg hname, comparison]
  dsimp only
  by_cases hrest : (isPrefixRest name entry).1 = []
  · have hlong := hfront.mp hrest
    rw [if_neg (not_not_intro hrest), hrest, List.length_nil]
    by_cases hend : (isPrefixRest name entry).2 = []
    · rw [if_neg (not_not_intro hend), if_pos ((hequal hrest).mp hend)]
      exact ⟨iff_of_false (by omega) (by decide), iff_of_true (by omega) rfl⟩
    · rw [if_pos hend, if_neg (fun h => hend ((hequal hrest).mpr h)), if_pos hlong]
      exact ⟨iff_of_false (by omega) (by decide), iff_of_false (by omega) (by decide)⟩
  · have hshort : ¬ lowered name <+: lowered entry := fun h => hrest (hfront.mpr h)
    have hne : lowered name ≠ lowered entry := by
      intro h
      exact hshort (h ▸ List.prefix_rfl)
    rw [if_pos hrest, if_neg hne, if_neg hshort]
    exact ⟨iff_of_true rfl rfl, iff_of_false (Int.lt_irrefl 0) (by decide)⟩

theorem genget_eq_scan {name : List UInt8} (hname : name ≠ []) (table : List (List UInt8)) :
    genget (some name) table = scan (comparison name) table 0 none := by
  have hloop : ∀ (i : Nat) (found : Option Nat),
      gengetLoop name table i found = scan (comparison name) table i found := by
    induction table with
    | nil =>
      intro i found
      cases found <;> rfl
    | cons entry table ih =>
      intro i found
      obtain ⟨hzero, hneg⟩ := isPrefix_compares hname entry
      rw [gengetLoop, scan]
      cases hkind : comparison name entry with
      | different => rw [if_pos (hzero.mpr hkind), ih]
      | equal =>
        rw [hkind] at hzero hneg
        rw [if_neg (fun h => absurd (hzero.mp h) (by decide)), if_pos (hneg.mpr rfl)]
      | extension =>
        rw [hkind] at hzero hneg
        rw [if_neg (fun h => absurd (hzero.mp h) (by decide)),
          if_neg (fun h => absurd (hneg.mp h) (by decide)), ih]
  exact hloop 0 none

/-- `genget` returns the entry that is equal to the name, or else the only one that extends it,
and says so if there are several or none, exactly when no equal entry stands behind two
extensions. -/
theorem genget_chooses_iff {name : List UInt8} (hname : name ≠ []) (table : List (List UInt8)) :
    Chooses (comparison name) table (genget (some name) table) ↔
      ¬ Hidden (comparison name) table := by
  rw [genget_eq_scan hname]
  exact scan_chooses_iff

/-- The name `s` in a table with `set`, `status` and `s`: ambiguous, but not if `s` stands in
front. -/
theorem genget_order :
    genget (some [115]) [[115, 101, 116], [115, 116, 97, 116, 117, 115], [115]] = .ambiguous ∧
      genget (some [115]) [[115], [115, 101, 116], [115, 116, 97, 116, 117, 115]] = .entry 0 ∧
      ¬ Chooses (comparison [115]) [[115, 101, 116], [115, 116, 97, 116, 117, 115], [115]]
        (genget (some [115]) [[115, 101, 116], [115, 116, 97, 116, 117, 115], [115]]) := by
  have hambiguous : genget (some [115])
      [[115, 101, 116], [115, 116, 97, 116, 117, 115], [115]] = .ambiguous := by decide
  refine ⟨hambiguous, by decide, ?_⟩
  rw [hambiguous]
  rintro ⟨hnone, -⟩
  exact hnone [115] (by decide) (by decide)

/-- The name `ST` in the same table. -/
theorem genget_status :
    Chooses (comparison [83, 84]) [[115, 101, 116], [115, 116, 97, 116, 117, 115], [115]]
      (genget (some [83, 84]) [[115, 101, 116], [115, 116, 97, 116, 117, 115], [115]]) :=
  (genget_chooses_iff (by decide) _).mpr (not_hidden_of_notEqual (by decide))

end Netkit.Telnet.Client

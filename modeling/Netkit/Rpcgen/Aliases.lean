import Netkit.Foundations.Resolution
import Netkit.Rpcgen.Declaration

/-!
# Aliases of types

`isvectordef` and `fixtype` of `rpc_util.c` follow aliases through the list of definitions. The
parser stores every definition and looks for no circle.

* `types_return_iff`: both searches return for every name exactly if no alias leads back to itself.
-/

namespace Netkit.Rpcgen

open Netkit.Foundations

/-- The kinds of definitions that are no `typedef`. -/
inductive DefKind where
  | const
  | struct
  | union
  | enum
  | program
deriving DecidableEq

/-- `struct definition`. Only what a `typedef` says is looked up. -/
inductive Definition where
  | typedef (ty : Typedef)
  | other (defKind : DefKind) (defName : Text)
deriving DecidableEq

def Definition.defName : Definition → Text
  | .typedef ty => ty.defName
  | .other _ defName => defName

/-! ## What the parser accepts -/

def reservedWords : List Text :=
  ["array", "bytes", "destroy", "free", "getpos", "inline", "pointer", "reference", "setpos",
    "sizeof", "union", "vector"].map String.toList

def reservedTypes : List Text := ["opaque", "string"].map String.toList

/-- `check_type_name` finds no fault. -/
def checkTypeName (name : Text) (newType : Bool) : Bool :=
  !reservedWords.contains name && !(newType && reservedTypes.contains name)

/-- `def_typedef` and `get_declaration` find no fault. -/
def Typedef.Accepted (ty : Typedef) : Prop :=
  ty.oldType ≠ "void".toList ∧ checkTypeName ty.oldType false ∧ checkTypeName ty.defName true ∧
    (ty.oldType = "opaque".toList → ty.rel = .array ∨ ty.rel = .vector) ∧
    (ty.oldType = "string".toList → ty.rel = .array)

def Definition.Accepted : Definition → Prop
  | .typedef ty => ty.Accepted
  | .other _ _ => True

/-! ## The searches -/

/-- `typedefed`, with the `typedef` that is found. -/
def Definition.typedefed (type : Text) : Definition → Option Typedef
  | .typedef ty => if Rpcgen.typedefed type ty then some ty else none
  | .other _ _ => none

def findit (type : Text) (d : Definition) : Bool := d.defName == type

/-- The loop of `isvectordef`. -/
def isvectordefLoop (defined : List Definition) : ℕ → Text → Relation → Option Bool
  | _, type, .vector => some (!(type == "string".toList))
  | _, _, .array => some false
  | _, _, .pointer => some false
  | 0, _, .alias => none
  | fuel + 1, type, .alias =>
    match defined.findSome? (Definition.typedefed type) with
    | none => some false
    | some ty => isvectordefLoop defined fuel ty.oldType ty.rel

def fixit (defined : List Definition) (orig : Text) : ℕ → Text → Option Text
  | 0, _ => none
  | fuel + 1, type =>
    match defined.find? (findit type) with
    | none => some orig
    | some (.other _ _) => some orig
    | some (.typedef ty) =>
      match ty.rel with
      | .vector => some ty.oldType
      | .alias => fixit defined orig fuel ty.oldType
      | .array => some orig
      | .pointer => some orig

def fixtype (defined : List Definition) (fuel : ℕ) (type : Text) : Option Text :=
  fixit defined type fuel type

/-! ## One definition -/

def vectorResult (type : Text) (rel : Relation) : Bool :=
  decide (rel = .vector) && !(type == "string".toList)

/-- The name that `isvectordef` goes on with, or its result. -/
def nextVector (defined : List Definition) (type : Text) : Bool ⊕ Text :=
  match defined.findSome? (Definition.typedefed type) with
  | none => .inl false
  | some ty => if ty.rel = .alias then .inr ty.oldType else .inl (vectorResult ty.oldType ty.rel)

/-- The name that `fixit` goes on with, or its result. -/
def nextFix (defined : List Definition) (orig type : Text) : Text ⊕ Text :=
  match defined.find? (findit type) with
  | none => .inl orig
  | some (.other _ _) => .inl orig
  | some (.typedef ty) =>
    match ty.rel with
    | .vector => .inl ty.oldType
    | .alias => .inr ty.oldType
    | .array => .inl orig
    | .pointer => .inl orig

/-- For `isvectordef`, `a` is an alias of `b`. -/
def VectorAlias (defined : List Definition) (a b : Text) : Prop :=
  ∃ ty, defined.findSome? (Definition.typedefed a) = some ty ∧ ty.rel = .alias ∧ ty.oldType = b

/-- For `fixtype`, `a` is an alias of `b`. -/
def FixAlias (defined : List Definition) (a b : Text) : Prop :=
  ∃ ty, defined.find? (findit a) = some (.typedef ty) ∧ ty.rel = .alias ∧ ty.oldType = b

variable {defined : List Definition} {type orig a b : Text} {rel : Relation}

theorem leads_nextVector : Leads (nextVector defined) a b ↔ VectorAlias defined a b := by
  unfold Leads nextVector VectorAlias
  cases defined.findSome? (Definition.typedefed a) with
  | none => simp
  | some ty =>
    by_cases hrel : ty.rel = .alias
    · simp [hrel]
    · simp [hrel]

theorem leads_nextFix : Leads (nextFix defined orig) a b ↔ FixAlias defined a b := by
  unfold Leads nextFix FixAlias
  cases defined.find? (findit a) with
  | none => simp
  | some d =>
    cases d with
    | other => simp
    | typedef ty => cases hrel : ty.rel <;> simp [hrel]

theorem isvectordefLoop_other (hrel : rel ≠ .alias) (fuel : ℕ) :
    isvectordefLoop defined fuel type rel = some (vectorResult type rel) := by
  unfold isvectordefLoop
  split
  · rfl
  · rfl
  · rfl
  · exact absurd rfl hrel
  · exact absurd rfl hrel

theorem isvectordefLoop_alias (fuel : ℕ) (type : Text) :
    isvectordefLoop defined fuel type .alias = chase (nextVector defined) fuel type := by
  induction fuel generalizing type with
  | zero => rfl
  | succ fuel ih =>
    rw [isvectordefLoop, chase, nextVector]
    cases defined.findSome? (Definition.typedefed type) with
    | none => rfl
    | some ty =>
      dsimp only
      by_cases hrel : ty.rel = .alias
      · rw [if_pos hrel, hrel]
        exact ih ty.oldType
      · rw [if_neg hrel]
        exact isvectordefLoop_other hrel fuel

theorem fixit_eq (fuel : ℕ) (type : Text) :
    fixit defined orig fuel type = chase (nextFix defined orig) fuel type := by
  induction fuel generalizing type with
  | zero => rfl
  | succ fuel ih =>
    rw [fixit, chase, nextFix]
    cases defined.find? (findit type) with
    | none => rfl
    | some d =>
      cases d with
      | other => rfl
      | typedef ty =>
        dsimp only
        by_cases hrel : ty.rel = .alias
        · rw [hrel]
          exact ih ty.oldType
        · split
          · rfl
          · next h => exact absurd h hrel
          · rfl
          · rfl

/-! ## When they return -/

def names (defined : List Definition) : Finset Text := (defined.map Definition.defName).toFinset

theorem mem_names {d : Definition} (h : d ∈ defined) : d.defName ∈ names defined :=
  List.mem_toFinset.mpr (List.mem_map_of_mem h)

theorem typedefed_eq {d : Definition} {ty : Typedef} (h : d.typedefed type = some ty) :
    d.defName = type := by
  cases d with
  | other => cases h
  | typedef ty' =>
    rw [Definition.typedefed] at h
    split at h
    · next hname => exact eq_of_beq (Bool.and_eq_true_iff.mp hname).2
    · cases h

theorem vectorAlias_mem (h : VectorAlias defined a b) : a ∈ names defined := by
  obtain ⟨ty, hfind, -, -⟩ := h
  obtain ⟨d, hd, hty⟩ := List.exists_of_findSome?_eq_some hfind
  exact typedefed_eq hty ▸ mem_names hd

theorem fixAlias_mem (h : FixAlias defined a b) : a ∈ names defined := by
  obtain ⟨ty, hfind, -, -⟩ := h
  have hname : findit a (.typedef ty) = true := List.find?_some hfind
  exact eq_of_beq hname ▸ mem_names (List.mem_of_find?_eq_some hfind)

/-- `isvectordef` and `fixtype` return, whatever name they are called with. -/
def TypesReturn (defined : List Definition) : Prop :=
  (∀ type rel, ∃ fuel, (isvectordefLoop defined fuel type rel).isSome) ∧
    ∀ type, ∃ fuel, (fixtype defined fuel type).isSome

theorem isvectordef_returns_iff (defined : List Definition) :
    (∀ type rel, ∃ fuel, (isvectordefLoop defined fuel type rel).isSome) ↔
      ∀ type, ¬ Circle (VectorAlias defined) type := by
  have hleads : Leads (nextVector defined) = VectorAlias defined := by
    ext a b
    exact leads_nextVector
  rw [← hleads, ← chases_iff (names defined) fun a b h => vectorAlias_mem (leads_nextVector.mp h)]
  constructor
  · intro h type
    obtain ⟨fuel, hfuel⟩ := h type .alias
    rw [isvectordefLoop_alias] at hfuel
    exact ⟨fuel, hfuel⟩
  · intro h type rel
    by_cases hrel : rel = .alias
    · obtain ⟨fuel, hfuel⟩ := h type
      rw [← isvectordefLoop_alias] at hfuel
      exact ⟨fuel, hrel ▸ hfuel⟩
    · refine ⟨0, ?_⟩
      rw [isvectordefLoop_other hrel]
      rfl

theorem fixtype_returns_iff (defined : List Definition) :
    (∀ type, ∃ fuel, (fixtype defined fuel type).isSome) ↔
      ∀ type, ¬ Circle (FixAlias defined) type := by
  have hleads (orig : Text) : Leads (nextFix defined orig) = FixAlias defined := by
    ext a b
    exact leads_nextFix
  have hmem (orig : Text) : ∀ a b, Leads (nextFix defined orig) a b → a ∈ names defined :=
    fun a b h => fixAlias_mem (leads_nextFix.mp h)
  constructor
  · intro h type
    obtain ⟨fuel, hfuel⟩ := h type
    rw [fixtype, fixit_eq] at hfuel
    rw [← hleads type]
    exact not_circle hfuel
  · intro h type
    rw [← hleads type] at h
    obtain ⟨fuel, hfuel⟩ := (chases_iff (names defined) (hmem type)).mpr h type
    rw [← fixit_eq] at hfuel
    exact ⟨fuel, hfuel⟩

/-- **The searches return** exactly if no alias leads back to itself. -/
theorem types_return_iff (defined : List Definition) : TypesReturn defined ↔
    ∀ type, ¬ Circle (VectorAlias defined) type ∧ ¬ Circle (FixAlias defined) type := by
  rw [TypesReturn, isvectordef_returns_iff, fixtype_returns_iff, forall_and]

/-- `typedef foo foo;` -/
def foo : Typedef := ⟨"foo".toList, none, "foo".toList, .alias⟩

theorem not_types_return_foo : ¬ ∀ defined : List Definition,
    (∀ d ∈ defined, d.Accepted) → TypesReturn defined := by
  intro h
  have haccepted : ∀ d ∈ [Definition.typedef foo], d.Accepted := by
    intro d hd
    rw [List.mem_singleton.mp hd]
    exact ⟨by decide, by decide, by decide, fun h => absurd h (by decide),
      fun h => absurd h (by decide)⟩
  have hcircle : Circle (VectorAlias [.typedef foo]) foo.defName :=
    .single ⟨foo, by decide, rfl, rfl⟩
  exact (isvectordef_returns_iff _).mp (h _ haccepted).1 _ hcircle

/-! ## The function of the emitter -/

/-- The `typedef`s. -/
def typedefs (defined : List Definition) : List Typedef :=
  defined.filterMap fun
    | .typedef ty => some ty
    | .other _ _ => none

theorem find?_typedefs (type : Text) : (typedefs defined).find? (Rpcgen.typedefed type) =
    defined.findSome? (Definition.typedefed type) := by
  induction defined with
  | nil => rfl
  | cons d defined ih =>
    cases d with
    | other => exact ih
    | typedef ty =>
      have hcons : typedefs (.typedef ty :: defined) = ty :: typedefs defined := rfl
      rw [hcons, List.find?_cons, List.findSome?_cons, Definition.typedefed, ih]
      cases Rpcgen.typedefed type ty <;> rfl

theorem isvectordefAux_eq {value : Bool} {fuel passes : ℕ} (hle : fuel ≤ passes)
    (h : isvectordefLoop defined fuel type rel = some value) :
    isvectordefAux (typedefs defined) passes type rel = value := by
  induction fuel generalizing passes type rel with
  | zero =>
    unfold isvectordefLoop at h
    unfold isvectordefAux
    cases rel <;> simp_all
  | succ fuel ih =>
    obtain ⟨passes, rfl⟩ := Nat.exists_eq_add_one.mpr (Nat.zero_lt_of_lt hle)
    by_cases hrel : rel = .alias
    · rw [hrel] at h ⊢
      rw [isvectordefAux, find?_typedefs]
      rw [isvectordefLoop] at h
      cases hfind : defined.findSome? (Definition.typedefed type) with
      | none =>
        rw [hfind] at h
        exact Option.some.inj h
      | some ty =>
        rw [hfind] at h
        exact ih (Nat.le_of_succ_le_succ hle) h
    · rw [isvectordefLoop_other hrel] at h
      unfold isvectordefAux
      cases rel <;> simp_all [vectorResult]

theorem isvectordef_eq {value : Bool} {fuel : ℕ}
    (h : isvectordefLoop defined fuel type rel = some value) :
    isvectordef (typedefs defined) type rel = value := by
  by_cases hrel : rel = .alias
  · let s : Finset Text := ((typedefs defined).map Typedef.defName).toFinset
    have hs : ∀ a b, Leads (nextVector defined) a b → a ∈ s := by
      intro a b hab
      obtain ⟨ty, hfind, -, -⟩ := leads_nextVector.mp hab
      rw [← find?_typedefs] at hfind
      have hname : Rpcgen.typedefed a ty = true := List.find?_some hfind
      rw [← eq_of_beq (Bool.and_eq_true_iff.mp hname).2]
      exact List.mem_toFinset.mpr (List.mem_map_of_mem (List.mem_of_find?_eq_some hfind))
    have hcard : s.card ≤ (typedefs defined).length :=
      (List.toFinset_card_le _).trans (le_of_eq (List.length_map _))
    rw [hrel, isvectordefLoop_alias] at h
    have hcount := chase_card s hs h
    rw [← isvectordefLoop_alias, ← hrel] at hcount
    exact isvectordefAux_eq (Nat.add_le_add_right hcard 1) hcount
  · have hstart : isvectordefLoop defined 0 type rel = some value := by
      rw [isvectordefLoop_other hrel] at h ⊢
      exact h
    exact isvectordefAux_eq (Nat.zero_le _) hstart

end Netkit.Rpcgen

import Netkit.Foundations.Expression

/-!
# Declarations of an interface definition

What the parser of rpcgen hands to the code emitter, and the statement that serializes one
member of a structure.
-/

namespace Netkit.Rpcgen

open Netkit.Foundations.Expression

abbrev Text := List Char

/-- `enum relation`. -/
inductive Relation where
  | vector
  | array
  | pointer
  | alias
deriving DecidableEq

/-- A declaration. `arrayMax` is read for vectors and arrays only. -/
structure Declaration where
  typePrefix : Option Text
  type : Text
  name : Text
  rel : Relation
  arrayMax : Text
  bounded : rel = .vector → IsWord arrayMax
deriving DecidableEq

/-- A `typedef`, as far as a search for vectors reads it. -/
structure Typedef where
  defName : Text
  oldPrefix : Option Text
  oldType : Text
  rel : Relation
deriving DecidableEq

def typedefed (type : Text) (def' : Typedef) : Bool :=
  def'.oldPrefix.isNone && def'.defName == type

/-- Follows aliases through the definitions. A chain longer than the list of definitions runs
in a circle, on which the source does not come to an end. -/
def isvectordefAux (defined : List Typedef) : Nat → Text → Relation → Bool
  | _, type, .vector => !(type == "string".toList)
  | _, _, .array => false
  | _, _, .pointer => false
  | 0, _, .alias => false
  | fuel + 1, type, .alias =>
    match defined.find? (typedefed type) with
    | none => false
    | some d => isvectordefAux defined fuel d.oldType d.rel

def isvectordef (defined : List Typedef) (type : Text) (rel : Relation) : Bool :=
  isvectordefAux defined (defined.length + 1) type rel

/-! ## Basic types -/

structure BasType where
  length : Nat
  name : Text
deriving DecidableEq

/-- The types that `c_initialize` adds. -/
def cInitialize : List BasType :=
  [⟨1, "int".toList⟩, ⟨1, "long".toList⟩, ⟨1, "short".toList⟩, ⟨1, "bool".toList⟩,
    ⟨1, "u_int".toList⟩, ⟨1, "u_long".toList⟩, ⟨1, "u_short".toList⟩]

def findType (type : Text) : Option BasType :=
  cInitialize.find? (fun t => t.name == type)

theorem findType_mem {type : Text} {t : BasType} (h : findType type = some t) :
    t ∈ cInitialize ∧ t.name = type :=
  ⟨List.mem_of_find?_eq_some h, by simpa using List.find?_some h⟩

theorem findType_length {type : Text} {t : BasType} (h : findType type = some t) :
    t.length = 1 := by
  have hmem := (findType_mem h).1
  simp only [cInitialize, List.mem_cons, List.not_mem_nil, or_false] at hmem
  rcases hmem with rfl | rfl | rfl | rfl | rfl | rfl | rfl <;> rfl

/-- A member that the emitter can handle inline: no prefix, a basic type, and a single value
or a fixed array. -/
def basicMember (d : Declaration) : Bool :=
  d.typePrefix.isNone && (findType d.type).isSome && (d.rel == .alias || d.rel == .vector)

theorem basicMember_iff (d : Declaration) :
    basicMember d = true ↔ d.typePrefix = none ∧ (∃ t, findType d.type = some t) ∧
      (d.rel = .alias ∨ d.rel = .vector) := by
  simp only [basicMember, Bool.and_eq_true, Option.isNone_iff_eq_none, Option.isSome_iff_exists,
    Bool.or_eq_true, beq_iff_eq, and_assoc]

/-! ## The statement for one member -/

/-- `snprintf` into a buffer of `size` bytes. -/
def snprintf (size : Nat) (text : Text) : Text := text.take (size - 1)

/-- What `print_ifstat` is told: the declaration, and the object as it was printed. -/
structure Ifstat where
  indent : Nat
  dec : Declaration
  objname : Text
deriving DecidableEq

def objectName (defined : List Typedef) (dec : Declaration) : Text :=
  if isvectordef defined dec.type dec.rel then "objp->".toList ++ dec.name
  else "&objp->".toList ++ dec.name

def printStat (defined : List Typedef) (indent : Nat) (dec : Declaration) : Ifstat :=
  { indent, dec, objname := snprintf 256 (objectName defined dec) }

end Netkit.Rpcgen

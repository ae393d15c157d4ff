import Netkit.Rpcgen.Emit

/-!
# What a generated routine does

A routine is run on a stream that is a sequence of units of four bytes. What it does is the
list of the members it moves, each with the place in the stream of its first unit and the
number of units: on encoding they are written there, on decoding read from there, on freeing
only the members matter. A stream that runs out makes the routine return FALSE and is left
out; `none` is a routine that the C compiler would not accept.
-/

namespace Netkit.Rpcgen

open Netkit.Foundations.Expression

/-- The size of a unit, from the XDR library. -/
def BYTES_PER_XDR_UNIT : Nat := 4

structure Values where
  value : Text → Nat
  extent : Declaration → Nat

/-! ## Names -/

def startsWithDigit (w : Text) : Bool := w.head?.any Char.isDigit

/-- A numeral, the constant of the library, or a symbolic constant: the parser gives each of
them one token as its value, so it stands for that value in any expression. -/
def constant (c : Values) (w : Text) : Nat :=
  if w = "BYTES_PER_XDR_UNIT".toList then BYTES_PER_XDR_UNIT
  else if startsWithDigit w then numeral w
  else c.value w

def lookup (locals : List Text) (c : Values) (w : Text) : Option Nat :=
  if w ∈ locals then none else some (constant c w)

theorem lookup_of_not_mem {locals : List Text} {w : Text} (h : w ∉ locals) (c : Values) :
    lookup locals c w = some (constant c w) :=
  if_neg h

def memberUnits (c : Values) (d : Declaration) : Nat :=
  if basicMember d then
    if d.rel = .alias then typeLength d else constant c d.arrayMax * typeLength d
  else c.extent d

def Visible (locals : List Text) (d : Declaration) : Prop :=
  d.rel = .vector ∨ d.rel = .array → d.arrayMax ∉ locals

instance (locals : List Text) (d : Declaration) : Decidable (Visible locals d) :=
  inferInstanceAs (Decidable (_ → _))

/-! ## Statements -/

/-- The place in the stream, and the members moved: name, first byte, number of units. -/
structure Stream where
  pos : Nat
  moved : List (Text × Nat × Nat)
deriving DecidableEq

def Stream.transfer (s : Stream) (name : Text) (n : Nat) : Stream :=
  ⟨s.pos + BYTES_PER_XDR_UNIT * n, s.moved ++ [(name, s.pos, n)]⟩

/-- The member that a printed object belongs to: what follows `objp->` or `&objp->`. -/
def memberName (objname : Text) : Text :=
  if objname.head? = some '&' then objname.drop 7 else objname.drop 6

variable (locals : List Text) (c : Values)

def Ifstat.run (t : Ifstat) (s : Stream) : Option Stream :=
  if Visible locals t.dec then some (s.transfer (memberName t.objname) (memberUnits c t.dec))
  else none

/-- The `IXDR_` calls that the XDR library has for the basic types. -/
def ixdrCalls : List Text :=
  ["LONG".toList, "U_LONG".toList, "SHORT".toList, "U_SHORT".toList, "BOOL".toList]

def memberType (d : Declaration) : Text :=
  if d.type = "bool".toList then "bool_t".toList
  else if d.type = "opaque".toList then "char".toList
  else d.type

def InlineStat.units : InlineStat → Option Nat
  | .single _ _ _ => some 1
  | .loop _ _ _ bound _ => lookup ("genp".toList :: locals) c bound

/-- A statement of the inline path; the stream's place is that of `buf`. The pointer `genp`
walks over the array only when it has the type of its elements. -/
def InlineStat.run : InlineStat → Stream → Option Stream
  | .single _ dec call, s => if call ∈ ixdrCalls then some (s.transfer dec.name 1) else none
  | .loop _ dec genp bound call, s =>
    if genp = memberType dec ∧ call ∈ ixdrCalls then
      (lookup ("genp".toList :: locals) c bound).map (s.transfer dec.name)
    else none

def inlineUnits (stats : List InlineStat) : Option Nat :=
  (stats.mapM (InlineStat.units locals c)).map List.sum

/-- A statement of a branch. `inline` says for which states of the stream `XDR_INLINE` gives a
buffer; the stream then counts as moved by the size that was asked for. -/
def Stat.run (inline : Stream → Bool) : Stat → Stream → Option Stream
  | .ifstat t, s => t.run locals c s
  | .xdrInline size plain inlined, s => do
    let len ← evaluate (lookup locals c) size
    if inline s then
      let t ← inlined.foldlM (fun s i => i.run locals c s) s
      some ⟨s.pos + len, t.moved⟩
    else
      plain.foldlM (fun s t => t.run locals c s) s

/-- `enum xdr_op`. -/
inductive Op where
  | XDR_ENCODE
  | XDR_DECODE
  | XDR_FREE
deriving DecidableEq

def Routine.branch (r : Routine) : Op → List Stat
  | .XDR_ENCODE => r.encode
  | .XDR_DECODE => r.decode
  | .XDR_FREE => r.free

def Routine.run (r : Routine) (inline : Stream → Bool) (op : Op) (s : Stream) : Option Stream :=
  (r.branch op).foldlM (fun s t => t.run r.locals c inline s) s

/-! ## What the routine is for -/

def moveAll (ds : List Declaration) (s : Stream) : Stream :=
  ds.foldl (fun s d => s.transfer d.name (memberUnits c d)) s

variable {c}

@[simp] theorem moveAll_nil (s : Stream) : moveAll c [] s = s := rfl

@[simp] theorem moveAll_cons (d : Declaration) (ds : List Declaration) (s : Stream) :
    moveAll c (d :: ds) s = moveAll c ds (s.transfer d.name (memberUnits c d)) := rfl

theorem moveAll_append (ds es : List Declaration) (s : Stream) :
    moveAll c (ds ++ es) s = moveAll c es (moveAll c ds s) :=
  List.foldl_append

theorem moveAll_pos (ds : List Declaration) (s : Stream) :
    (moveAll c ds s).pos = s.pos + BYTES_PER_XDR_UNIT * (ds.map (memberUnits c)).sum := by
  induction ds generalizing s with
  | nil => rfl
  | cons d ds ih =>
    rw [moveAll_cons, ih, List.map_cons, List.sum_cons, Nat.mul_add]
    exact Nat.add_assoc _ _ _

theorem moveAll_members (ds : List Declaration) (s : Stream) :
    (moveAll c ds s).moved.map Prod.fst = s.moved.map Prod.fst ++ ds.map Declaration.name := by
  induction ds generalizing s with
  | nil => simp only [moveAll_nil, List.map_nil, List.append_nil]
  | cons d ds ih =>
    rw [moveAll_cons, ih]
    simp only [Stream.transfer, List.map_append, List.map_cons, List.map_nil, List.append_assoc,
      List.cons_append, List.nil_append]

/-- The inline code of a structure is right, whatever the values of the constants: the size
asked for is that of the units moved, every branch moves every member once and in order with
and without a buffer, and the effect is that of the routine without inlining. -/
structure Faithful (defined : List Typedef) (inlineflag : Nat) (decls : List Declaration) :
    Prop where
  sizes : ∀ c op size plain inlined,
    .xdrInline size plain inlined ∈ (emitStruct defined inlineflag decls).branch op →
      ∃ n, inlineUnits (emitStruct defined inlineflag decls).locals c inlined = some n ∧
        evaluate (lookup (emitStruct defined inlineflag decls).locals c) size =
          some (BYTES_PER_XDR_UNIT * n)
  members : ∀ c inline op s,
    (emitStruct defined inlineflag decls).run c inline op s = some (moveAll c decls s)
  plain : ∀ c inline op s,
    (emitStruct defined inlineflag decls).run c inline op s =
      (emitStruct defined 0 decls).run c inline op s

end Netkit.Rpcgen

import Netkit.Rpcgen.Declaration

/-!
# The routine generated for a structure

`emit_struct` prints the body of the `xdr_` routine of a structure. With inlining on it walks
the members and collects runs of basic ones; a run that is long enough, or that has an array
in it, becomes a block that asks for the stream's buffer with `XDR_INLINE` and moves the run
with `IXDR_` calls when it gets one.
-/

namespace Netkit.Rpcgen

open Netkit.Foundations.Expression

/-- Whether a branch stores members into the buffer or loads them from it. -/
inductive Flag where
  | PUT
  | GET
deriving DecidableEq

/-- A statement of the inline path. The member is named by its declaration; what is printed
besides is the name of the `IXDR_` call, and for an array the type of `genp` and the bound of
the loop. -/
inductive InlineStat where
  | single (flag : Flag) (dec : Declaration) (call : Text)
  | loop (flag : Flag) (dec : Declaration) (genp : Text) (bound : Text) (call : Text)
deriving DecidableEq

/-- A statement of a branch. -/
inductive Stat where
  | ifstat (s : Ifstat)
  | xdrInline (size : Text) (plain : List Ifstat) (inlined : List InlineStat)
deriving DecidableEq

/-- The variables that a generated routine declares, and the statements it runs for each
operation of the stream. -/
structure Routine where
  locals : List Text
  encode : List Stat
  decode : List Stat
  free : List Stat
deriving DecidableEq

/-! ## The inline path -/

def upcase (str : Text) : Text := str.map Char.toUpper

/-- What follows `IXDR_PUT_` or `IXDR_GET_`. -/
def ixdrCall (type : Text) : Text :=
  let upp := upcase type
  if upp = "INT".toList then "LONG".toList
  else if upp = "U_INT".toList then "U_LONG".toList
  else upp

def emitInline (flag : Flag) (dec : Declaration) : List InlineStat :=
  match dec.rel with
  | .alias => [.single flag dec (ixdrCall dec.type)]
  | .vector => [.loop flag dec dec.type dec.arrayMax (ixdrCall dec.type)]
  | _ => []

/-! ## The size of a run -/

def typeLength (d : Declaration) : Nat := ((findType d.type).map BasType.length).getD 0

def appendSize (sizestr : Option Text) (d : Declaration) : Text :=
  let plus := if sizestr = none then " ".toList else "+".toList
  let ptemp :=
    if typeLength d ≠ 1 then
      snprintf 256 (" ".toList ++ plus ++ " ".toList ++ d.arrayMax ++ " * ".toList ++
        Nat.toDigits 10 (typeLength d))
    else snprintf 256 (" ".toList ++ plus ++ " ".toList ++ d.arrayMax ++ " ".toList)
  sizestr.getD [] ++ ptemp

/-- The size that is printed: `size` for the single members, `sizestr` for the arrays. -/
def inlineSize (size : Nat) : Option Text → Text
  | none => Nat.toDigits 10 size ++ " * BYTES_PER_XDR_UNIT".toList
  | some sizestr =>
    if size = 0 then sizestr ++ " * BYTES_PER_XDR_UNIT".toList
    else "(".toList ++ Nat.toDigits 10 size ++ " + ".toList ++ sizestr ++
      ")* BYTES_PER_XDR_UNIT".toList

/-! ## The routine -/

variable (defined : List Typedef) (inlineflag : Nat)

/-- The first pass over the members; `size` is the length of the single members of the
current run. -/
def canInline : List Declaration → Nat → Bool
  | [], size => decide (inlineflag < size)
  | d :: ds, size =>
    if basicMember d then
      if d.rel = .alias then canInline ds (size + typeLength d) else true
    else if inlineflag ≤ size then true
    else canInline ds 0

def emitRun (flag : Flag) (run : List Declaration) (size : Nat) (sizestr : Option Text) :
    List Stat :=
  if run = [] then []
  else if sizestr = none ∧ size < inlineflag then
    run.map (fun d => .ifstat (printStat defined 1 d))
  else
    [.xdrInline (inlineSize size sizestr) (run.map (printStat defined 2))
      (run.flatMap (emitInline flag))]

/-- The second pass: `run` is the run of basic members up to here. -/
def emitMembers (flag : Flag) :
    List Declaration → List Declaration → Nat → Option Text → List Stat
  | [], run, size, sizestr => emitRun defined inlineflag flag run size sizestr
  | d :: ds, run, size, sizestr =>
    if basicMember d then
      if d.rel = .alias then emitMembers flag ds (run ++ [d]) (size + typeLength d) sizestr
      else emitMembers flag ds (run ++ [d]) size (some (appendSize sizestr d))
    else
      emitRun defined inlineflag flag run size sizestr ++
        .ifstat (printStat defined 1 d) :: emitMembers flag ds [] 0 none

/-- The parameters of the routine, `buf`, and `i` when there is an array to loop over. -/
def routineLocals (decls : List Declaration) : List Text :=
  ["xdrs".toList, "objp".toList] ++
    (if inlineflag = 0 then []
    else if decls.any (fun d => d.rel == .vector) then ["buf".toList, "i".toList]
    else ["buf".toList])

def emitStruct (decls : List Declaration) : Routine :=
  let locals := routineLocals inlineflag decls
  let plain := decls.map (fun d => Stat.ifstat (printStat defined 1 d))
  if inlineflag = 0 then { locals, encode := plain, decode := plain, free := plain }
  else if canInline inlineflag decls 0 = false then
    { locals, encode := plain, decode := plain, free := plain }
  else
    { locals
      encode := emitMembers defined inlineflag .PUT decls [] 0 none
      decode := emitMembers defined inlineflag .GET decls [] 0 none
      free := plain }

end Netkit.Rpcgen

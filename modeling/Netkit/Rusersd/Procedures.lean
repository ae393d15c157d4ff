import Mathlib.Algebra.Group.Nat.Defs
import Netkit.Foundations.Lines

/-!
# The procedures of rusersd

`rusers_proc.c`: `rusers_num` counts the records of utmp that qualify, `do_names_3` and
`do_names_2` list them for the two versions of the protocol. What they return lies in static
data, which is there again for the next request: the counter, the array of `rusers_utmp` with
pointers to three arrays of strings, and the array of `utmpidle` with pointers to its elements.

The loops of the two lists differ only in what they store of a record.
-/

namespace Netkit.Rusersd

open Netkit.Foundations

/-! ## Strings -/

/-- At most `n` bytes of the string are copied, and zeros behind them. -/
def strncpy (n : Nat) (src : Bytes) : Bytes :=
  (cstring src).take n ++ List.replicate (n - ((cstring src).take n).length) 0

/-- `strncmp(a, b, n) == 0`. -/
def strncmpEq (n : Nat) (a b : Bytes) : Bool := (cstring a).take n = (cstring b).take n

/-- A field of a record: a string that has no NUL if it fills the field. -/
structure Field (size : Nat) where
  bytes : Bytes
  length_eq : bytes.length = size
  /-- What lies behind the field. -/
  behind : Bytes

def Field.memory {size : Nat} (f : Field size) : Bytes := f.bytes ++ f.behind

def Field.value {size : Nat} (f : Field size) : Bytes := cstring f.bytes

/-- `UT_LINESIZE` and so on, the sizes of the fields of `ru_utmp`, and `MAXUSERS`, of the
system's headers. The fields of version 2 are the shorter ones. -/
structure Sizes where
  utLine : Nat
  utName : Nat
  utHost : Nat
  ruLine : Nat
  ruName : Nat
  ruHost : Nat
  maxUsers : Nat
  ruLine_le : ruLine ≤ utLine + 1
  ruName_le : ruName ≤ utName
  ruHost_le : ruHost ≤ utHost + 1

/-! ## The records of utmp -/

structure Utmp (z : Sizes) where
  utType : Int
  line : Field z.utLine
  name : Field z.utName
  host : Field z.utHost
  /-- `UT_TIME`. -/
  time : Int

def USER_PROCESS : Int := 7

def IGNOREUSER : Bytes := ascii "sleeper"

variable {z : Sizes}

def qualifies (u : Utmp z) : Bool :=
  u.name.memory.headD 0 ≠ 0 && u.line.memory.headD 0 ≠ 0 &&
    !strncmpEq z.utName u.name.memory IGNOREUSER && u.utType = USER_PROCESS

/-! ## The static data -/

/-- `struct rusers_utmp`. The pointers point to elements of `line`, `name` and `host`. -/
structure RusersUtmp where
  utType : Int
  utTime : Int
  utIdle : Int
  utLine : Option Nat
  utUser : Option Nat
  utHost : Option Nat

structure UtmpIdle where
  utTime : Int
  utLine : Bytes
  utName : Bytes
  utHost : Bytes
  uiIdle : Int
deriving DecidableEq

structure Statics where
  numUsers : Int
  utmps : List RusersUtmp
  line : List Bytes
  name : List Bytes
  host : List Bytes
  utmpIdle : List UtmpIdle
  utmpIdlep : List (Option Nat)

def Statics.start (z : Sizes) : Statics where
  numUsers := 0
  utmps := List.replicate z.maxUsers ⟨0, 0, 0, none, none, none⟩
  line := List.replicate z.maxUsers (List.replicate (z.utLine + 1) 0)
  name := List.replicate z.maxUsers (List.replicate (z.utName + 1) 0)
  host := List.replicate z.maxUsers (List.replicate (z.utHost + 1) 0)
  utmpIdle := List.replicate z.maxUsers
    ⟨0, List.replicate z.ruLine 0, List.replicate z.ruName 0, List.replicate z.ruHost 0, 0⟩
  utmpIdlep := List.replicate z.maxUsers none

/-! ## The procedures -/

/-- `num_users++`, of an `int`. -/
def increment (n : Int) : Int := Int.bmod (n + 1) (2 ^ 32)

def rusersNum (utmp : List (Utmp z)) (s : Statics) : Statics :=
  utmp.foldl (fun s u => if qualifies u then { s with numUsers := increment s.numUsers } else s) s

/-- `getidle(ut_line, ut_host)`. -/
abbrev Getidle := Bytes → Bytes → Int

def RUSERS_USER_PROCESS : Int := 7

/-- The string in an array of `size + 1` bytes. -/
def copyField (size : Nat) (src : Bytes) : Bytes :=
  ((strncpy (size + 1) src).set size 0).set size 0

/-- The body of the loop of `do_names_3`. -/
def fill3 (idle : Getidle) (n : Nat) (u : Utmp z) (s : Statics) : Statics :=
  { s with
    utmps := s.utmps.set n
      ⟨RUSERS_USER_PROCESS, u.time, idle u.line.memory u.host.memory, some n, some n, some n⟩
    line := s.line.set n (copyField z.utLine u.line.memory)
    name := s.name.set n (copyField z.utName u.name.memory)
    host := s.host.set n (copyField z.utHost u.host.memory) }

/-- `do_strncpy`: the last byte is a NUL. -/
def doStrncpy (len : Nat) (src : Bytes) : Bytes := (strncpy len src).set (len - 1) 0

/-- The body of the loop of `do_names_2`. The name may fill its field. -/
def fill2 (idle : Getidle) (n : Nat) (u : Utmp z) (s : Statics) : Statics :=
  { s with
    utmpIdlep := s.utmpIdlep.set n (some n)
    utmpIdle := s.utmpIdle.set n
      { utTime := u.time
        uiIdle := idle u.line.memory u.host.memory
        utLine := doStrncpy z.ruLine u.line.memory
        utName := strncpy z.ruName u.name.memory
        utHost := doStrncpy z.ruHost u.host.memory } }

/-- The loop over utmp; `n` is `nusers`. -/
def namesLoop (fill : Nat → Utmp z → Statics → Statics) :
    List (Utmp z) → Nat → Statics → Nat × Statics
  | [], n, s => (n, s)
  | u :: us, n, s =>
    if n < z.maxUsers then
      if qualifies u then namesLoop fill us (n + 1) (fill n u s) else namesLoop fill us n s
    else (n, s)

def doNames3 (idle : Getidle) (utmp : List (Utmp z)) (s : Statics) : Nat × Statics :=
  namesLoop (fill3 idle) utmp 0 s

def doNames2 (idle : Getidle) (utmp : List (Utmp z)) (s : Statics) : Nat × Statics :=
  namesLoop (fill2 idle) utmp 0 s

/-! ## Requests -/

/-- An element of the list of version 3, with its strings. -/
structure Names3 where
  user : Bytes
  line : Bytes
  host : Bytes
  type : Int
  time : Int
  idle : Int
deriving DecidableEq

def stringAt (strings : List Bytes) (pointer : Option Nat) : Bytes :=
  cstring (pointer.elim [] (fun i => strings.getD i []))

/-- What `xdr_utmp_array` finds at the element. -/
def entry3 (s : Statics) (i : Nat) : Names3 :=
  let u := s.utmps.getD i ⟨0, 0, 0, none, none, none⟩
  ⟨stringAt s.name u.utUser, stringAt s.line u.utLine, stringAt s.host u.utHost, u.utType, u.utTime,
    u.utIdle⟩

/-- What `xdr_utmpidlearr` finds at the element. -/
def entry2 (s : Statics) (i : Nat) : UtmpIdle :=
  ((s.utmpIdlep.getD i none).bind (fun j => s.utmpIdle[j]?)).getD ⟨0, [], [], [], 0⟩

inductive Reply where
  | void
  | num (n : Int)
  | names3 (entries : List Names3)
  | names2 (entries : List UtmpIdle)
  | progvers
  | noproc
  | decode
deriving DecidableEq

/-- A request, and utmp and the terminals as they are at that moment. -/
structure Request (z : Sizes) where
  proc : Nat
  vers : Nat
  /-- `svc_getargs` succeeds. -/
  decoded : Bool
  utmp : List (Utmp z)
  idle : Getidle

def NULLPROC : Nat := 0
def RUSERSPROC_NUM : Nat := 1
def RUSERSPROC_NAMES : Nat := 2
def RUSERSPROC_ALLNAMES : Nat := 3
def RUSERSVERS_IDLE : Nat := 2
def RUSERSVERS_3 : Nat := 3

def replyNum (r : Request z) (s : Statics) : Reply × Statics :=
  let s := rusersNum r.utmp s
  (.num s.numUsers, s)

/-- `rusersproc_names_3` and `rusersproc_allnames_3`: `do_names_3` ignores its argument. -/
def replyNames3 (r : Request z) (s : Statics) : Reply × Statics :=
  let (n, s) := doNames3 r.idle r.utmp s
  (.names3 ((List.range n).map (entry3 s)), s)

/-- `rusersproc_names_2` and `rusersproc_allnames_2`. -/
def replyNames2 (r : Request z) (s : Statics) : Reply × Statics :=
  let (n, s) := doNames2 r.idle r.utmp s
  (.names2 ((List.range n).map (entry2 s)), s)

def call (r : Request z) (s : Statics) (proc : Request z → Statics → Reply × Statics) :
    Reply × Statics :=
  if r.decoded then proc r s else (.decode, s)

def rusersService (r : Request z) (s : Statics) : Reply × Statics :=
  if r.proc = NULLPROC then (.void, s)
  else if r.proc = RUSERSPROC_NUM then
    if r.vers = RUSERSVERS_3 ∨ r.vers = RUSERSVERS_IDLE then call r s replyNum else (.progvers, s)
  else if r.proc = RUSERSPROC_NAMES ∨ r.proc = RUSERSPROC_ALLNAMES then
    if r.vers = RUSERSVERS_3 then call r s replyNames3
    else if r.vers = RUSERSVERS_IDLE then call r s replyNames2
    else (.progvers, s)
  else (.noproc, s)

end Netkit.Rusersd

import Netkit.Foundations.Lines
import Netkit.Telnet.Protocol

/-!
# Replies on the control connection

`getreply` of ftp reads one reply. A single loop over the characters answers the telnet
commands, computes the code of each line, finds out whether the reply goes on, and takes the
address out of a reply to `PASV`.
-/

namespace Netkit.Ftp

open Netkit.Foundations

/-! ## The loop -/

/-- What `getreply` leaves behind: `pasv` has 64 bytes, and a connection is lost through
`lostpeer`. -/
structure Control where
  code : Nat
  cpend : Bool
  pasv : Bytes
  replyString : Bytes
  connected : Bool
  cout : Bytes
  stdout : Bytes
deriving DecidableEq

/-- The argument, and the globals that say what the terminal shows. -/
structure Mode where
  expecteof : Bool
  verbose : Int
  proxflag : Bool
  hostname : Bytes
deriving DecidableEq

/-- What C leaves undefined: an `int` that is counted beyond its range, and a byte that is
written outside `pasv`. -/
inductive Fault where
  | overflow
  | outside
deriving DecidableEq

/-- The locals of `getreply`. -/
structure Scan extends Control where
  dig : Nat
  n : UInt8
  originalcode : Nat
  continuation : Nat
  pflag : Nat
  px : Nat
deriving DecidableEq

structure Returned where
  value : Int
  control : Control
  cin : Bytes
deriving DecidableEq

/-- `x++` for an `int`. -/
def increment (x : Nat) : Except Fault Nat :=
  if x < 2147483647 then .ok (x + 1) else .error .overflow

def isdigit (c : UInt8) : Bool := decide (48 ≤ c.toNat) && decide (c.toNat ≤ 57)

/-- `pasv[px] = c`. -/
def store (pasv : Bytes) (px : Nat) (c : UInt8) : Except Fault Bytes :=
  if px < pasv.length then .ok (pasv.set px c) else .error .outside

def Scan.putchar (m : Mode) (c : UInt8) (s : Scan) : Scan :=
  if c ≠ 13 ∧ (0 < m.verbose ∨ -1 < m.verbose ∧ s.n = 53 ∧ 4 < s.dig) then
    { s with stdout := s.stdout ++
        (if m.proxflag ∧ (s.dig = 1 ∨ s.dig = 5 ∧ m.verbose = 0) then m.hostname ++ [58]
          else []) ++ [c] }
  else s

def Scan.accumulate (c : UInt8) (s : Scan) : Scan :=
  if s.dig < 4 ∧ isdigit c then { s with code := s.code * 10 + (c.toNat - 48) } else s

/-- `pflag` goes to 1 at the code 227 and to 2 at the first digit behind the code. -/
def Scan.flag (c : UInt8) (s : Scan) : Scan :=
  let s := if s.pflag = 0 ∧ s.code = 227 then { s with pflag := 1 } else s
  if 4 < s.dig ∧ s.pflag = 1 ∧ isdigit c then { s with pflag := 2 } else s

def Scan.capture (c : UInt8) (s : Scan) : Except Fault Scan :=
  if s.pflag = 2 then
    if c ≠ 13 ∧ c ≠ 41 then
      if s.px < 63 then
        (store s.pasv s.px c).map (fun pasv => { s with pasv := pasv, px := s.px + 1 })
      else .ok s
    else (store s.pasv s.px 0).map (fun pasv => { s with pasv := pasv, pflag := 3 })
  else .ok s

def Scan.hyphen (c : UInt8) (s : Scan) : Except Fault Scan :=
  if s.dig = 4 ∧ c = 45 then
    (increment s.continuation).map (fun continuation =>
      { s with
        code := if s.continuation ≠ 0 then 0 else s.code
        continuation := continuation })
  else .ok s

def Scan.keep (c : UInt8) (s : Scan) : Scan :=
  { s with
    n := if s.n = 0 then c else s.n
    replyString := if s.replyString.length < 8191 then s.replyString ++ [c] else s.replyString }

/-- The body of the inner loop, for a character that is no telnet command. -/
def Scan.char (m : Mode) (s : Scan) (c : UInt8) : Except Fault Scan := do
  let dig ← increment s.dig
  let t ← (((({ s with dig := dig } : Scan).putchar m c).accumulate c).flag c).capture c
  let u ← t.hyphen c
  return u.keep c

def Scan.fresh (s : Scan) : Scan := { s with dig := 0, n := 0, code := 0, replyString := [] }

def Scan.eof (m : Mode) (s : Scan) : Except Fault Returned :=
  (increment s.dig).map (fun _ =>
    if m.expecteof then ⟨0, { s.toControl with code := 221 }, []⟩
    else ⟨4, { s.toControl with
        code := 421
        connected := false
        stdout := s.stdout ++ if m.verbose ≠ 0 then
          ascii "421 Service not available, remote server has closed connection\n" else [] }, []⟩)

def Scan.endLine (m : Mode) (s : Scan) : Scan :=
  if 0 < m.verbose ∨ -1 < m.verbose ∧ s.n = 53 then { s with stdout := s.stdout ++ [10] } else s

def Scan.goesOn (s : Scan) : Bool :=
  decide (s.continuation ≠ 0) && decide (s.code ≠ s.originalcode)

/-- `continue` of the outer loop. -/
def Scan.next (s : Scan) : Scan :=
  { s with originalcode := if s.originalcode = 0 then s.code else s.originalcode }.fresh

def Scan.finish (s : Scan) (cin : Bytes) : Returned where
  value := (s.n.toNat : Int) - 48
  control := { s.toControl with
    cpend := if s.n ≠ 49 then false else s.cpend
    connected := if s.code = 421 ∨ s.originalcode = 421 then false else s.connected }
  cin := cin

/-- The answer to a telnet option: `DONT` or `WONT`. -/
def Scan.refuse (verb option : UInt8) (s : Scan) : Scan :=
  { s with cout := s.cout ++
      [Telnet.IAC, if verb = Telnet.WILL ∨ verb = Telnet.WONT then Telnet.DONT else Telnet.WONT,
        option] }

def isVerb (c : UInt8) : Bool :=
  c == Telnet.WILL || c == Telnet.WONT || c == Telnet.DO || c == Telnet.DONT

def scan (m : Mode) : Bytes → Scan → Except Fault Returned
  | [], s => s.eof m
  | c :: cin, s =>
    if c = 10 then
      if (s.endLine m).goesOn then scan m cin (s.endLine m).next
      else .ok ((s.endLine m).finish cin)
    else if c = Telnet.IAC then
      match cin with
      | [] => s.eof m
      | verb :: cin =>
        if isVerb verb then
          match cin with
          | [] => (s.refuse verb 255).eof m
          | option :: cin => scan m cin (s.refuse verb option)
        else scan m cin s
    else
      match s.char m c with
      | .error e => .error e
      | .ok t => scan m cin t

def getreply (m : Mode) (f : Control) (cin : Bytes) : Except Fault Returned :=
  scan m cin (Scan.fresh ⟨f, 0, 0, 0, 0, 0, 0⟩)

/-! ## Replies -/

/-- A character of a line, or a telnet command. No option is ever agreed on, so there is no
subnegotiation. -/
inductive Item where
  | text (c : UInt8) (h : c ≠ 10 ∧ c ≠ Telnet.IAC)
  | command (c : UInt8) (h : isVerb c = false)
  | negotiate (verb option : UInt8) (h : isVerb verb = true)

abbrev Line := List Item

def Item.bytes : Item → Bytes
  | .text c _ => [c]
  | .command c _ => [Telnet.IAC, c]
  | .negotiate verb option _ => [Telnet.IAC, verb, option]

def Item.text? : Item → Option UInt8
  | .text c _ => some c
  | _ => none

def Line.bytes (l : Line) : Bytes := l.flatMap Item.bytes ++ [10]

def Line.text (l : Line) : Bytes := l.filterMap Item.text?

/-- The three digits of a reply. -/
structure Code where
  x : Nat
  y : Nat
  z : Nat
  first : 1 ≤ x ∧ x ≤ 9
  others : y ≤ 9 ∧ z ≤ 9

def Code.digits (d : Code) : Bytes :=
  [UInt8.ofNat (48 + d.x), UInt8.ofNat (48 + d.y), UInt8.ofNat (48 + d.z)]

def Code.value (d : Code) : Nat := d.x * 100 + d.y * 10 + d.z

/-- A reply of one line, or of a first line, any others and a last one. -/
inductive Reply where
  | single (code : Code) (line : Line) (h : code.digits ++ [32] <+: line.text)
  | multi (code : Code) (first : Line) (middle : List Line) (last : Line)
    (hfirst : code.digits ++ [45] <+: first.text)
    (hmiddle : ∀ l ∈ middle, ¬ code.digits ++ [32] <+: l.text)
    (hlast : code.digits ++ [32] <+: last.text)

def Reply.code : Reply → Code
  | .single code _ _ => code
  | .multi code _ _ _ _ _ _ => code

def Reply.middle : Reply → List Line
  | .single _ _ _ => []
  | .multi _ _ middle _ _ _ _ => middle

def Reply.lines : Reply → List Line
  | .single _ line _ => [line]
  | .multi _ first middle last _ _ _ => first :: middle ++ [last]

def Reply.bytes (r : Reply) : Bytes := r.lines.flatMap Line.bytes

def stream (rs : List (Mode × Reply)) : Bytes := rs.flatMap (fun r => r.2.bytes)

end Netkit.Ftp

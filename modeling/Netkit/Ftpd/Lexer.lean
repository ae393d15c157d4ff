import Netkit.Foundations.Lines
import Netkit.Telnet.Protocol

/-!
# The tokens of a command line

`ftpd_getline` reads a line into `cbuf`, and `yylex` takes it apart. The scanner keeps its place
in `cpos` and what it expects next in `state`; both outlive the line.
-/

namespace Netkit.Ftpd

open Netkit.Foundations

/-! ## Commands -/

inductive CommandName where
  | USER | PASS | ACCT | REIN | QUIT | PORT
  | PASV | TYPE | STRU | MODE | RETR | STOR
  | APPE | MLFL | MAIL | MSND | MSOM | MSAM
  | MRSQ | MRCP | ALLO | REST | RNFR | RNTO
  | ABOR | DELE | CWD | LIST | NLST | SITE
  | STAT | HELP | NOOP | MKD | RMD | PWD
  | CDUP | STOU | SMNT | SYST | SIZE | MDTM
  | UMASK | IDLE | CHMOD
deriving DecidableEq

inductive LexState where
  | CMD
  | ARGS
  | STR1
  | STR2
  | OSTR
  | ZSTR1
  | ZSTR2
  | SITECMD
  | NSTR
deriving DecidableEq

structure Tab where
  name : Bytes
  token : CommandName
  state : LexState
  implemented : Bool
  help : Bytes

def tab (name : String) (token : CommandName) (state : LexState) (implemented : Bool)
    (help : String) : Tab :=
  ⟨ascii name, token, state, implemented, ascii help⟩

def cmdtab : List Tab := [
  tab "USER" .USER .STR1 true "<sp> username",
  tab "PASS" .PASS .ZSTR1 true "<sp> password",
  tab "ACCT" .ACCT .STR1 false "(specify account)",
  tab "SMNT" .SMNT .ARGS false "(structure mount)",
  tab "REIN" .REIN .ARGS false "(reinitialize server state)",
  tab "QUIT" .QUIT .ARGS true "(terminate service)",
  tab "PORT" .PORT .ARGS true "<sp> b0, b1, b2, b3, b4",
  tab "PASV" .PASV .ARGS true "(set server in passive mode)",
  tab "TYPE" .TYPE .ARGS true "<sp> [ A | E | I | L ]",
  tab "STRU" .STRU .ARGS true "(specify file structure)",
  tab "MODE" .MODE .ARGS true "(specify transfer mode)",
  tab "RETR" .RETR .STR1 true "<sp> file-name",
  tab "STOR" .STOR .STR1 true "<sp> file-name",
  tab "APPE" .APPE .STR1 true "<sp> file-name",
  tab "MLFL" .MLFL .OSTR false "(mail file)",
  tab "MAIL" .MAIL .OSTR false "(mail to user)",
  tab "MSND" .MSND .OSTR false "(mail send to terminal)",
  tab "MSOM" .MSOM .OSTR false "(mail send to terminal or mailbox)",
  tab "MSAM" .MSAM .OSTR false "(mail send to terminal and mailbox)",
  tab "MRSQ" .MRSQ .OSTR false "(mail recipient scheme question)",
  tab "MRCP" .MRCP .STR1 false "(mail recipient)",
  tab "ALLO" .ALLO .ARGS true "allocate storage (vacuously)",
  tab "REST" .REST .ARGS true "<sp> offset (restart command)",
  tab "RNFR" .RNFR .STR1 true "<sp> file-name",
  tab "RNTO" .RNTO .STR1 true "<sp> file-name",
  tab "ABOR" .ABOR .ARGS true "(abort operation)",
  tab "DELE" .DELE .STR1 true "<sp> file-name",
  tab "CWD" .CWD .OSTR true "[ <sp> directory-name ]",
  tab "XCWD" .CWD .OSTR true "[ <sp> directory-name ]",
  tab "LIST" .LIST .OSTR true "[ <sp> path-name ]",
  tab "NLST" .NLST .OSTR true "[ <sp> path-name ]",
  tab "SITE" .SITE .SITECMD true "site-cmd [ <sp> arguments ]",
  tab "SYST" .SYST .ARGS true "(get type of operating system)",
  tab "STAT" .STAT .OSTR true "[ <sp> path-name ]",
  tab "HELP" .HELP .OSTR true "[ <sp> <string> ]",
  tab "NOOP" .NOOP .ARGS true "",
  tab "MKD" .MKD .STR1 true "<sp> path-name",
  tab "XMKD" .MKD .STR1 true "<sp> path-name",
  tab "RMD" .RMD .STR1 true "<sp> path-name",
  tab "XRMD" .RMD .STR1 true "<sp> path-name",
  tab "PWD" .PWD .ARGS true "(return current directory)",
  tab "XPWD" .PWD .ARGS true "(return current directory)",
  tab "CDUP" .CDUP .ARGS true "(change to parent directory)",
  tab "XCUP" .CDUP .ARGS true "(change to parent directory)",
  tab "STOU" .STOU .STR1 true "<sp> file-name",
  tab "SIZE" .SIZE .OSTR true "<sp> path-name",
  tab "MDTM" .MDTM .OSTR true "<sp> path-name"]

def sitetab : List Tab := [
  tab "UMASK" .UMASK .ARGS true "[ <sp> umask ]",
  tab "IDLE" .IDLE .ARGS true "[ <sp> maximum-idle-time ]",
  tab "CHMOD" .CHMOD .NSTR true "<sp> mode <sp> file-name",
  tab "HELP" .HELP .OSTR true "[ <sp> <string> ]"]

def lookup (p : List Tab) (cmd : Bytes) : Option Tab := p.find? (fun t => t.name == cmd)

def islower (c : UInt8) : Bool := decide (97 ≤ c.toNat) && decide (c.toNat ≤ 122)

def toupper (c : UInt8) : UInt8 := if islower c then c - 32 else c

def isdigit (c : UInt8) : Bool := decide (48 ≤ c.toNat) && decide (c.toNat ≤ 57)

/-! ## Tokens -/

/-- The letters that are tokens. -/
inductive Letter where
  | A | B | C | E | F | I | L | N | P | R | S | T
deriving DecidableEq

inductive Token where
  | SP
  | CRLF
  | COMMA
  | letter (l : Letter)
  | STRING (s : Bytes)
  | NUMBER (i : Int)
  | command (c : CommandName)
deriving DecidableEq

def charToken (c : UInt8) : Option Token :=
  if c = 32 then some .SP
  else if c = 44 then some .COMMA
  else
    match (toupper c).toNat with
    | 65 => some (.letter .A)
    | 66 => some (.letter .B)
    | 67 => some (.letter .C)
    | 69 => some (.letter .E)
    | 70 => some (.letter .F)
    | 73 => some (.letter .I)
    | 76 => some (.letter .L)
    | 78 => some (.letter .N)
    | 80 => some (.letter .P)
    | 82 => some (.letter .R)
    | 83 => some (.letter .S)
    | 84 => some (.letter .T)
    | _ => none

/-- `atoi` of digits: the value as a `long`, which stops at its maximum, cut down to an
`int`. -/
def atoi (digits : Bytes) : Int :=
  let value : Nat := digits.foldl (fun n c => n * 10 + (c.toNat - 48)) 0
  let low : Nat := min value 9223372036854775807 % 4294967296
  if low < 2147483648 then low else (low : Int) - 4294967296

/-! ## Lines -/

/-- What `ftpd_getline` has read, the rest of the stream, the answers to telnet commands, and
whether the stream has ended. -/
structure GotLine where
  chars : Bytes
  stdin : Bytes
  answers : Bytes
  eof : Bool
deriving DecidableEq

def GotLine.push (c : UInt8) (g : GotLine) : GotLine := { g with chars := c :: g.chars }

def GotLine.answer (verb option : UInt8) (g : GotLine) : GotLine :=
  { g with answers := [Telnet.IAC, verb, option] ++ g.answers }

def refusal (verb : UInt8) : Option UInt8 :=
  if verb = Telnet.WILL ∨ verb = Telnet.WONT then some Telnet.DONT
  else if verb = Telnet.DO ∨ verb = Telnet.DONT then some Telnet.WONT
  else none

/-- The loop over the stream; `n` is the room that is left. -/
def readline : Bytes → Nat → GotLine
  | [], _ => ⟨[], [], [], true⟩
  | c :: stdin, n =>
    if c = Telnet.IAC then
      match stdin with
      | [] => ⟨[255], [], [], true⟩
      | verb :: stdin =>
        match refusal verb with
        | some no =>
          match stdin with
          | [] => ⟨[], [], [Telnet.IAC, no, 255], true⟩
          | option :: stdin => (readline stdin n).answer no option
        | none =>
          if verb = Telnet.IAC then
            if n ≤ 1 then ⟨[verb], stdin, [], false⟩ else (readline stdin (n - 1)).push verb
          else readline stdin n
    else if n ≤ 1 ∨ c = 10 then ⟨[c], stdin, [], false⟩
    else (readline stdin (n - 1)).push c

/-- `ftpd_getline`; `tmpline` may hold the beginning of a line that an urgent signal has left. -/
def getline (n : Nat) (tmpline stdin : Bytes) : GotLine :=
  if 10 ∈ tmpline then ⟨tmpline.takeWhile (fun c => c ≠ 10) ++ [10], stdin, [], false⟩
  else
    let g := readline stdin (n - tmpline.length)
    { g with chars := tmpline ++ g.chars, eof := g.eof && (tmpline ++ g.chars).isEmpty }

/-! ## The scanner -/

/-- `cbuf`, the statics of `yylex`, `tmpline`, and the two directions of the connection as far
as telnet commands concern them. -/
structure Lexer where
  cbuf : Bytes
  cpos : Nat
  state : LexState
  tmpline : Bytes
  stdin : Bytes
  answers : Bytes
deriving DecidableEq

/-- How `yylex` leaves without a token: with `yyerror`, at a command that is not implemented,
or at the end of the stream. -/
inductive Stop where
  | lexical
  | unimplemented (name : Bytes)
  | eof
deriving DecidableEq

/-- `cbuf[i]`. -/
def Lexer.at (l : Lexer) (i : Nat) : UInt8 := l.cbuf.getD i 0

/-- The string at `&cbuf[i]`. -/
def Lexer.string (l : Lexer) (i : Nat) : Bytes := cstring (l.cbuf.drop i)

/-- `strpbrk(&cbuf[i], " \n")`, as an index into `cbuf`. -/
def Lexer.strpbrk (l : Lexer) (i : Nat) : Option Nat :=
  ((l.string i).findIdx? (fun c => c == 32 || c == 10)).map (fun j => i + j)

/-- `upper(&cbuf[i])`, where the string ends at `j`. -/
def Lexer.upper (l : Lexer) (i j : Nat) : Lexer :=
  { l with cbuf := l.cbuf.take i ++ ((cstring ((l.cbuf.take j).drop i)).map toupper ++
      l.cbuf.drop (i + (cstring ((l.cbuf.take j).drop i)).length)) }

/-- The word between `i` and `j`, in capitals. -/
def Lexer.word (l : Lexer) (i j : Nat) : Bytes := (cstring ((l.cbuf.take j).drop i)).map toupper

/-- A line is put into `cbuf`, over what was there. -/
def Lexer.fill (l : Lexer) (chars : Bytes) : Lexer :=
  { l with cbuf := chars ++ 0 :: l.cbuf.drop (chars.length + 1) }

def Lexer.cutCR (l : Lexer) : Lexer :=
  match (l.string 0).findIdx? (fun c => c == 13) with
  | none => l
  | some i => { l with cbuf := (l.cbuf.set i 10).set (i + 1) 0 }

abbrev Lexed := Except (Stop × Lexer) (Token × Lexer)

def Lexer.fail (l : Lexer) : Lexed := .error (.lexical, { l with state := .CMD })

def Lexer.token (l : Lexer) (t : Token) : Lexed := .ok (t, l)

def Lexer.found (l : Lexer) (p : Option Tab) : Lexed :=
  match p with
  | none => l.fail
  | some p =>
    if p.implemented then .ok (.command p.token, { l with state := p.state })
    else .error (.unimplemented p.name, { l with state := .CMD })

/-- The state `CMD`: a new line. -/
def Lexer.lexCommand (l : Lexer) : Lexed :=
  let g := getline 511 l.tmpline l.stdin
  let l := { l with tmpline := [], stdin := g.stdin, answers := l.answers ++ g.answers }
  if g.eof then .error (.eof, l)
  else
    let l := (l.fill g.chars).cutCR
    let cpos := (l.strpbrk 0).getD l.cpos
    let cpos := if cpos = 0 then 4 else cpos
    { l.upper 0 cpos with cpos := cpos }.found (lookup cmdtab (l.word 0 cpos))

/-- The state `SITECMD`. -/
def Lexer.lexSite (l : Lexer) : Lexed :=
  if l.at l.cpos = 32 then { l with cpos := l.cpos + 1 }.token .SP
  else
    let cpos := (l.strpbrk l.cpos).getD l.cpos
    { l.upper l.cpos cpos with cpos := cpos }.found (lookup sitetab (l.word l.cpos cpos))

/-- A space in front of a string; `next` is the state behind it. -/
def Lexer.lexSpace (l : Lexer) (next : LexState) : Lexed :=
  if l.at l.cpos = 32 then { l with cpos := l.cpos + 1, state := next }.token .SP else l.fail

def Lexer.lexString (l : Lexer) : Lexed :=
  let n := (l.string l.cpos).length
  let last := l.cpos + n - 1
  if 1 < n ∧ l.at last = 10 then
    { l with cpos := last, state := .ARGS }.token (.STRING ((l.string l.cpos).take (n - 1)))
  else { l with cpos := last }.fail

/-- The digits at `cpos`. -/
def Lexer.digits (l : Lexer) : Bytes := (l.cbuf.drop l.cpos).takeWhile isdigit

/-- A number; `next` is the state behind it. -/
def Lexer.lexNumber (l : Lexer) (next : LexState) : Lexed :=
  { l with cpos := l.cpos + l.digits.length, state := next }.token (.NUMBER (atoi l.digits))

/-- The state `ARGS`. -/
def Lexer.lexArgs (l : Lexer) : Lexed :=
  if isdigit (l.at l.cpos) then l.lexNumber .ARGS
  else if l.at l.cpos = 10 then
    { l with cpos := l.cpos + 1, state := .CMD }.token .CRLF
  else
    match charToken (l.at l.cpos) with
    | some t => { l with cpos := l.cpos + 1 }.token t
    | none => { l with cpos := l.cpos + 1 }.fail

/-- The state `NSTR`. -/
def Lexer.lexNstr (l : Lexer) : Lexed :=
  if l.at l.cpos = 32 then { l with cpos := l.cpos + 1 }.token .SP
  else if isdigit (l.at l.cpos) then l.lexNumber .STR1
  else l.lexSpace .STR2

def yylex (l : Lexer) : Lexed :=
  match l.state with
  | .CMD => l.lexCommand
  | .SITECMD => l.lexSite
  | .OSTR =>
    if l.at l.cpos = 10 then { l with state := .CMD }.token .CRLF else l.lexSpace .STR2
  | .STR1 => l.lexSpace .STR2
  | .ZSTR1 => l.lexSpace .ZSTR2
  | .ZSTR2 =>
    if l.at l.cpos = 10 then { l with state := .CMD }.token .CRLF else l.lexString
  | .STR2 => l.lexString
  | .NSTR => l.lexNstr
  | .ARGS => l.lexArgs

/-- `yyerror` ends `cbuf` in front of its newline; the text of its reply is what is left. -/
def Lexer.yyerror (l : Lexer) : Lexer :=
  match (l.string 0).findIdx? (fun c => c == 10) with
  | none => l
  | some i => { l with cbuf := l.cbuf.set i 0 }

end Netkit.Ftpd

import Netkit.Ftpd.Dataconn
import Netkit.Ftpd.Lexer

/-!
# The grammar of the commands

The rules of `ftpcmd.y`, in the form in which the parser goes through them: a tree for each
command. Some reductions have an effect before the rest of the line has been read, and some need
no look at the next token; both can be seen in the trees.
-/

namespace Netkit.Ftpd

open Netkit.Foundations

/-! ## Commands -/

inductive FormCode where
  | N
  | T
  | C
deriving DecidableEq

/-- `type_code`. -/
inductive TypeSpec where
  | A (form : FormCode)
  | E (form : FormCode)
  | I
  | L (bytesz : Int)
deriving DecidableEq

/-- A line with the values of its action; `l` says whether `check_login` let it pass, and a
path is `none` when it could not be expanded. -/
inductive Command where
  | user (name : Bytes)
  | pass (passwd : Bytes)
  | port (l : Bool) (n : Data.HostPort)
  | pasv (l : Bool)
  | type (l : Bool) (t : TypeSpec)
  | stru (l : Bool) (c : Letter)
  | mode (l : Bool) (c : Letter)
  | allo (l : Bool)
  | retr (l : Bool) (path : Option Bytes)
  | stor (l : Bool) (path : Option Bytes)
  | appe (l : Bool) (path : Option Bytes)
  | nlst (l : Bool) (name : Option Bytes)
  | list (l : Bool) (path : Option (Option Bytes))
  | stat (l : Bool) (path : Option (Option Bytes))
  | dele (l : Bool) (path : Option Bytes)
  | rnto (l : Bool) (path : Option Bytes)
  | abor (l : Bool)
  | cwd (l : Bool) (path : Option (Option Bytes))
  | help (s : Option Bytes)
  | noop
  | mkd (l : Bool) (path : Option Bytes)
  | rmd (l : Bool) (path : Option Bytes)
  | pwd (l : Bool)
  | cdup (l : Bool)
  | siteHelp (s : Option Bytes)
  | siteUmask (l : Bool) (mask : Option Int)
  | siteChmod (l : Bool) (mode : Int) (path : Option Bytes)
  | siteIdle (l : Bool) (seconds : Option Int)
  | stou (l : Bool) (path : Option Bytes)
  | syst (l : Bool)
  | size (l : Bool) (path : Option Bytes)
  | mdtm (l : Bool) (path : Option Bytes)
  | quit
  | error
  | rnfr (l : Bool) (path : Option Bytes)
  | rest (l : Bool) (offset : Int)
deriving DecidableEq

/-- `rcmd`: the commands behind which `cmd_list` resets nothing. -/
def Command.isRcmd : Command → Bool
  | .rnfr _ _ => true
  | .rest _ _ => true
  | _ => false

/-- `octal_number`: the digits of a decimal number, read as octal. -/
def octalDigits : Nat → Int → Int → Int
  | 0, _, _ => 0
  | fuel + 1, dec, multby =>
    if dec = 0 then 0
    else
      let rest := octalDigits fuel (dec.tdiv 10) (multby * 8)
      if 7 < dec.tmod 10 ∨ rest = -1 then -1 else dec.tmod 10 * multby + rest

def octalNumber (dec : Int) : Int := octalDigits 11 dec 1

/-! ## Trees -/

/-- A state of the parser. `look` needs the next token, and `shift` consumes it. The other
nodes are reductions: of `check_login`, of `pathname`, of `host_port`, and of the command. -/
inductive Rule where
  | look (next : Token → Rule)
  | shift (next : Rule)
  | check (next : Bool → Rule)
  | path (s : Bytes) (next : Option Bytes → Rule)
  | hostPort (n : Data.HostPort) (next : Rule)
  | reduce (c : Command)
  | fail

namespace Rule

def expect (t : Token) (next : Rule) : Rule :=
  look (fun u => if u = t then shift next else fail)

def string (next : Bytes → Rule) : Rule :=
  look (fun
    | .STRING s => shift (next s)
    | _ => fail)

def number (next : Int → Rule) : Rule :=
  look (fun
    | .NUMBER i => shift (next i)
    | _ => fail)

def letter (next : Letter → Option Rule) : Rule :=
  look (fun
    | .letter l => ((next l).map shift).getD fail
    | _ => fail)

def crlf (c : Command) : Rule := expect .CRLF (reduce c)

def optional (c : Command) (next : Rule) : Rule :=
  look (fun
    | .CRLF => shift (reduce c)
    | .SP => shift next
    | _ => fail)

/-- A `pathname` and the end of the line. -/
def pathname (c : Option Bytes → Command) : Rule :=
  string (fun s => path s (fun p => crlf (c p)))

/-- `check_login SP pathname CRLF`. -/
def checkedPath (c : Bool → Option Bytes → Command) : Rule :=
  check (fun l => expect .SP (pathname (c l)))

/-- `check_login CRLF`. -/
def checkedEnd (c : Bool → Command) : Rule := check (fun l => crlf (c l))

/-- `check_login CRLF` and `check_login SP pathname CRLF`. -/
def checkedOptional (c : Bool → Option (Option Bytes) → Command) : Rule :=
  check (fun l => optional (c l none) (pathname (fun p => c l (some p))))

/-- `A` and `E` may be followed by a form. -/
def typeForm (c : FormCode → Command) : Rule :=
  look (fun
    | .SP => shift (letter (fun
      | .N => some (crlf (c .N))
      | .T => some (crlf (c .T))
      | .C => some (crlf (c .C))
      | _ => none))
    | _ => crlf (c .N))

/-- `L` may be followed by a byte size, with or without a space. -/
def typeLocal (c : Int → Command) : Rule :=
  look (fun
    | .SP => shift (number (fun i => crlf (c i)))
    | .NUMBER i => shift (crlf (c i))
    | _ => crlf (c 8))

def typeCode (l : Bool) : Rule :=
  letter (fun
    | .A => some (typeForm (fun f => .type l (.A f)))
    | .E => some (typeForm (fun f => .type l (.E f)))
    | .I => some (crlf (.type l .I))
    | .L => some (typeLocal (fun i => .type l (.L i)))
    | _ => none)

def comma (next : Int → Rule) : Rule := expect .COMMA (number next)

def hostPortCode (l : Bool) : Rule :=
  number (fun h1 => comma (fun h2 => comma (fun h3 => comma (fun h4 => comma (fun p1 =>
    comma (fun p2 => hostPort ⟨h1, h2, h3, h4, p1, p2⟩
      (crlf (.port l ⟨h1, h2, h3, h4, p1, p2⟩))))))))

def siteCode : Rule :=
  look (fun
    | .command .HELP =>
      shift (optional (.siteHelp none) (string (fun s => crlf (.siteHelp (some s)))))
    | .command .UMASK =>
      shift (check (fun l => optional (.siteUmask l none)
        (number (fun i => crlf (.siteUmask l (some (octalNumber i)))))))
    | .command .CHMOD =>
      shift (check (fun l => expect .SP (number (fun i => expect .SP
        (pathname (fun p => .siteChmod l (octalNumber i) p))))))
    | _ =>
      check (fun l => expect (.command .IDLE) (optional (.siteIdle l none)
        (number (fun i => crlf (.siteIdle l (some i)))))))

end Rule

open Rule in
def ruleOf : CommandName → Rule
  | .USER => expect .SP (string (fun s => crlf (.user s)))
  | .PASS => expect .SP (look (fun
    | .STRING s => shift (crlf (.pass s))
    | _ => crlf (.pass [])))
  | .PORT => check (fun l => expect .SP (hostPortCode l))
  | .PASV => checkedEnd .pasv
  | .TYPE => check (fun l => expect .SP (typeCode l))
  | .STRU => check (fun l => expect .SP (letter (fun c =>
    if c = .F ∨ c = .R ∨ c = .P then some (crlf (.stru l c)) else none)))
  | .MODE => check (fun l => expect .SP (letter (fun c =>
    if c = .S ∨ c = .B ∨ c = .C then some (crlf (.mode l c)) else none)))
  | .ALLO => check (fun l => expect .SP (number (fun _ => optional (.allo l)
    (expect (.letter .R) (expect .SP (number (fun _ => crlf (.allo l))))))))
  | .RETR => checkedPath .retr
  | .STOR => checkedPath .stor
  | .APPE => checkedPath .appe
  | .NLST => check (fun l => optional (.nlst l none)
    (string (fun s => crlf (.nlst l (some s)))))
  | .LIST => checkedOptional .list
  | .STAT => checkedOptional .stat
  | .DELE => checkedPath .dele
  | .RNTO => checkedPath .rnto
  | .ABOR => checkedEnd .abor
  | .CWD => checkedOptional .cwd
  | .HELP => optional (.help none) (string (fun s => crlf (.help (some s))))
  | .NOOP => crlf .noop
  | .MKD => checkedPath .mkd
  | .RMD => checkedPath .rmd
  | .PWD => checkedEnd .pwd
  | .CDUP => checkedEnd .cdup
  | .SITE => expect .SP siteCode
  | .STOU => checkedPath .stou
  | .SYST => checkedEnd .syst
  | .SIZE => checkedPath .size
  | .MDTM => checkedPath .mdtm
  | .QUIT => crlf .quit
  | .RNFR => checkedPath .rnfr
  | .REST => check (fun l => expect .SP (number (fun i => crlf (.rest l i))))
  | _ => fail

/-! ## The server -/

/-- `timeout`, the umask and the names that replies mention stand for the globals of the same
names; `data` holds `type` and `restart_point`. -/
structure Server where
  lexer : Lexer
  login : Session
  data : Data.Session
  form : FormCode
  fromname : Option Bytes
  timeout : Int
  maxtimeout : Int
  umask : Int
  hostname : Bytes
  replies : List Reply
deriving DecidableEq

def Server.reply (s : Server) (code : Nat) (text : Bytes) : Server :=
  { s with replies := s.replies ++ [⟨code, text, false⟩] }

def Server.lreply (s : Server) (code : Nat) (text : Bytes) : Server :=
  { s with replies := s.replies ++ [⟨code, text, true⟩] }

def Server.perrorReply (s : Server) (code : Nat) (text strerror : Bytes) : Server :=
  s.reply code (text ++ ascii ": " ++ strerror ++ ascii ".")

def Server.checkLogin (s : Server) : Server :=
  if s.login.loggedIn then s else s.reply 530 (ascii "Please login with USER and PASS.")

/-- `pathname`: a tilde is expanded. A slash in front of it is left out. -/
def Server.pathname (s : Server) (glob : Bytes → Option Bytes) (p : Bytes) :
    Option Bytes × Server :=
  if s.login.loggedIn ∧ 126 ∈ p then
    match glob (if [47, 126] <+: p then p.drop 1 else p) with
    | none => (none, s.reply 550 (ascii "not found"))
    | some found => (some found, s)
  else (some p, s)

/-- `host_port` stores its address. -/
def Server.hostPort (s : Server) (n : Data.HostPort) : Server :=
  { s with data := { s.data with conns := s.data.conns.hostPort n } }

def Server.yyerror (s : Server) : Server :=
  let l := s.lexer.yyerror
  { s with lexer := l }.reply 500
    (ascii "'" ++ l.string 0 ++ ascii "': command not understood.")

/-! ## The parser -/

/-- What a line comes to: a command, or the scanner has given up. -/
inductive Turn where
  | command (c : Command) (s : Server)
  | stopped (why : Stop) (s : Server)
deriving DecidableEq

/-- How the parser leaves a tree: at its end, or at a token that does not fit. -/
inductive Parsed where
  | done (t : Turn)
  | unexpected (t : Token) (s : Server)
deriving DecidableEq

/-- The parser goes through a tree; `t` is the token that it has looked at. -/
def parse (glob : Bytes → Option Bytes) : Rule → Option Token → Server → Parsed
  | .look next, some t, s => parse glob (next t) (some t) s
  | .look next, none, s =>
    match yylex s.lexer with
    | .ok (t, l) => parse glob (next t) (some t) { s with lexer := l }
    | .error (why, l) => .done (.stopped why { s with lexer := l })
  | .shift next, _, s => parse glob next none s
  | .check next, t, s => parse glob (next s.login.loggedIn) t s.checkLogin
  | .path p next, t, s => parse glob (next (s.pathname glob p).1) t (s.pathname glob p).2
  | .hostPort n next, t, s => parse glob next t (s.hostPort n)
  | .reduce c, _, s => .done (.command c s)
  | .fail, t, s => .unexpected (t.getD .CRLF) s

/-- After a syntax error, tokens are left out up to the end of the line. Every token takes at
least a character of the buffer, so that many steps are enough. -/
def recover : Nat → Token → Server → Turn
  | _, .CRLF, s => .command .error s
  | 0, _, s => .stopped .lexical s
  | fuel + 1, _, s =>
    match yylex s.lexer with
    | .ok (t, l) => recover fuel t { s with lexer := l }
    | .error (why, l) => .stopped why { s with lexer := l }

def commandRule : Rule :=
  .look (fun
    | .command c => .shift (ruleOf c)
    | _ => .fail)

def parseCommand (glob : Bytes → Option Bytes) (s : Server) : Turn :=
  match parse glob commandRule none s with
  | .done turn => turn
  | .unexpected t s => recover (s.lexer.cbuf.length + 1) t s.yyerror

end Netkit.Ftpd

import Netkit.Foundations.Runs
import Netkit.Ftpd.Grammar

/-!
# The commands of ftpd

What the actions of the grammar do, and one turn of the command loop: a line is read, parsed
and answered. The lines of multi-line replies that `printf` writes without a code are left out.
-/

namespace Netkit.Ftpd

open Netkit.Foundations

/-- What `stat` says of a file. -/
structure FileStat where
  isDir : Bool
  isReg : Bool
  size : Nat
  mtime : Bytes
deriving DecidableEq

/-- What the system says during a line: `call` is the result of the one system call of a
command that makes one, `tmpline` what an urgent signal leaves of its line. -/
structure LineEnv where
  database : Database
  login : LoginEnv
  glob : Bytes → Option Bytes
  file : Data.FileEnv
  list : Data.ListEnv
  passive : Data.PassiveEnv
  unique : Data.Unique
  stat : Option FileStat
  call : Bool
  getcwd : Option Bytes
  message : List Bytes
  fopen : Bool
  asciiSize : Nat
  ferror : Bool
  strerror : Bytes
  tmpline : Bytes

/-! ## Parts of the server -/

def Server.onLogin (f : Session → Session) (s : Server) : Server :=
  let login := f { s.login with replies := [] }
  { s with login := login, replies := s.replies ++ login.replies }

def Server.onData (f : Data.Session → Data.Session) (s : Server) : Server :=
  let data := f { s.data with replies := [] }
  { s with data := data, replies := s.replies ++ data.replies }

/-- A transfer. What an urgent signal has read of the control connection stays in `tmpline`. -/
def Server.transfer (env : LineEnv) (f : Data.Session → Data.Session) (s : Server) : Server :=
  { s.onData f with lexer := { s.lexer with tmpline := env.tmpline } }

/-- `dologout` and `exit`. -/
def Server.exit (s : Server) : Server := { s with login := { s.login with exited := true } }

def Server.ack (s : Server) (name : String) : Server :=
  s.reply 250 (ascii name ++ ascii " command successful.")

def Server.nack (s : Server) (name : Bytes) : Server :=
  s.reply 502 (name ++ ascii " command not implemented.")

/-! ## Actions -/

def integer (n : Int) : Bytes := ascii (toString n)

/-- `%03o`. -/
def octal3 (n : Int) : Bytes :=
  let digits := (Nat.toDigits 8 (n % 4294967296).toNat).map (fun d => UInt8.ofNat d.toNat)
  List.replicate (3 - digits.length) 48 ++ digits

/-- `replydirname`: quotes are doubled, within the buffer. -/
def quoted : Nat → Bytes → Bytes
  | 0, _ => []
  | _, [] => []
  | room + 1, c :: name =>
    if c = 34 then c :: 34 :: quoted (room - 1) name else c :: quoted room name

def Server.replydirname (s : Server) (name : Bytes) (message : String) : Server :=
  s.reply 257 (ascii "\"" ++ quoted 4095 name ++ ascii "\" " ++ ascii message)

/-- `cwd`, with the message of the directory. -/
def Server.cwd (s : Server) (env : LineEnv) (path : Bytes) : Server :=
  if !env.call then s.perrorReply 550 path env.strerror
  else (env.message.foldl (fun s line => s.lreply 250 line) s).ack "CWD"

def Server.delete (s : Server) (env : LineEnv) (name : Bytes) : Server :=
  match env.stat with
  | none => s.perrorReply 550 name env.strerror
  | some _ => if !env.call then s.perrorReply 550 name env.strerror else s.ack "DELE"

def Server.makedir (s : Server) (env : LineEnv) (name : Bytes) : Server :=
  if !env.call then s.perrorReply 550 name env.strerror
  else s.replydirname name "directory created."

def Server.removedir (s : Server) (env : LineEnv) (name : Bytes) : Server :=
  if !env.call then s.perrorReply 550 name env.strerror else s.ack "RMD"

def Server.pwd (s : Server) (env : LineEnv) : Server :=
  match env.getcwd with
  | none => s.reply 550 (ascii ".")
  | some path => s.replydirname path "is current directory."

def Server.renamefrom (s : Server) (env : LineEnv) (name : Bytes) : Option Bytes × Server :=
  match env.stat with
  | none => (none, s.perrorReply 550 name env.strerror)
  | some _ => (some name, s.reply 350 (ascii "File exists, ready for destination name"))

/-- `renamecmd`; without a path `rename` fails. -/
def Server.renamecmd (s : Server) (env : LineEnv) (path : Option Bytes) : Server :=
  if path = none ∨ !env.call then s.perrorReply 550 (ascii "rename") env.strerror
  else s.ack "RNTO"

def Server.statfilecmd (s : Server) (env : LineEnv) (name : Bytes) : Server :=
  let s := s.lreply 211 (ascii "status of " ++ name ++ ascii ":")
  if env.ferror then s.perrorReply 551 name env.strerror else s.reply 211 (ascii "End of Status")

def Server.statcmd (s : Server) : Server :=
  (s.lreply 211 (s.hostname ++ ascii " FTP server status:")).reply 211 (ascii "End of status")

def Server.sizecmd (s : Server) (env : LineEnv) (name : Bytes) : Server :=
  match s.data.type with
  | .L | .I =>
    match env.stat with
    | some st =>
      if st.isReg then s.reply 213 (Data.number st.size)
      else s.reply 550 (name ++ ascii ": not a plain file.")
    | none => s.reply 550 (name ++ ascii ": not a plain file.")
  | .A =>
    if !env.fopen then s.perrorReply 550 name env.strerror
    else
      match env.stat with
      | some st =>
        if st.isReg then s.reply 213 (Data.number env.asciiSize)
        else s.reply 550 (name ++ ascii ": not a plain file.")
      | none => s.reply 550 (name ++ ascii ": not a plain file.")
  | .E => s.reply 504 (ascii "SIZE not implemented for Type E.")

def Server.mdtm (s : Server) (env : LineEnv) (name : Bytes) : Server :=
  match env.stat with
  | none => s.reply 550 (name ++ ascii ": " ++ env.strerror)
  | some st =>
    if !st.isReg then s.reply 550 (name ++ ascii ": not a plain file.")
    else s.reply 213 st.mtime

/-- `help`, of all commands or of one. -/
def Server.help (s : Server) (site : Bool) (name : Option Bytes) : Server :=
  let type := if site then ascii "SITE " else []
  match name with
  | none =>
    (s.lreply 214 (ascii "The following " ++ type ++
      ascii "commands are recognized (* =>'s unimplemented).")).reply 214
        (ascii "Direct comments to ftp-bugs@" ++ s.hostname ++ ascii ".")
  | some name =>
    let word := name.map toupper
    match lookup (if site then sitetab else cmdtab) word with
    | none => s.reply 502 (ascii "Unknown command " ++ word ++ ascii ".")
    | some c =>
      if c.implemented then
        s.reply 214 (ascii "Syntax: " ++ type ++ c.name ++ ascii " " ++ c.help)
      else
        s.reply 214 (type ++ c.name ++ List.replicate (8 - c.name.length) 32 ++ ascii "\t" ++
          c.help ++ ascii "; unimplemented.")

/-- `HELP SITE` asks for the other table. -/
def Server.helpString (s : Server) (name : Bytes) : Server :=
  if (name.take 4).map toupper = ascii "SITE" then
    let rest := name.drop 4
    let rest := if rest.head? = some 32 then rest.drop 1 else rest
    s.help true (if rest = [] then none else some rest)
  else s.help false (some name)

def Server.typeCommand (s : Server) (t : TypeSpec) : Server :=
  match t with
  | .A .N =>
    { s with data := { s.data with type := .A }, form := .N }.reply 200 (ascii "Type set to A.")
  | .A _ => s.reply 504 (ascii "Form must be N.")
  | .E _ => s.reply 504 (ascii "Type E not implemented.")
  | .I => { s with data := { s.data with type := .I } }.reply 200 (ascii "Type set to I.")
  | .L bytesz =>
    if bytesz = 8 then
      { s with data := { s.data with type := .L } }.reply 200
        (ascii "Type set to L (byte size 8).")
    else s.reply 504 (ascii "Byte size must be 8.")

def Server.umaskCommand (s : Server) (mask : Option Int) : Server :=
  match mask with
  | none => s.reply 200 (ascii "Current UMASK is " ++ octal3 s.umask)
  | some mask =>
    if mask = -1 ∨ 511 < mask then s.reply 501 (ascii "Bad UMASK value")
    else
      { s with umask := mask % 512 }.reply 200 (ascii "UMASK set to " ++ octal3 mask ++
        ascii " (was " ++ octal3 s.umask ++ ascii ")")

def Server.idleCommand (s : Server) (seconds : Option Int) : Server :=
  match seconds with
  | none =>
    s.reply 200 (ascii "Current IDLE time limit is " ++ integer s.timeout ++
      ascii " seconds; max " ++ integer s.maxtimeout)
  | some seconds =>
    if seconds < 30 ∨ s.maxtimeout < seconds then
      s.reply 501 (ascii "Maximum IDLE time must be between 30 and " ++ integer s.maxtimeout ++
        ascii " seconds")
    else
      { s with timeout := seconds }.reply 200 (ascii "Maximum IDLE time set to " ++
        integer seconds ++ ascii " seconds")

def Server.chmodCommand (s : Server) (env : LineEnv) (mode : Int) (path : Bytes) : Server :=
  if 511 < mode then s.reply 501 (ascii "CHMOD: Mode value must be between 0 and 0777")
  else if !env.call then s.perrorReply 550 path env.strerror
  else s.reply 200 (ascii "CHMOD command successful.")

/-- An action that `check_login` and the path must let pass. -/
def Server.withPath (s : Server) (l : Bool) (path : Option Bytes)
    (f : Bytes → Server → Server) : Server :=
  match path with
  | some p => if l then f p s else s
  | none => s

def Server.withLogin (s : Server) (l : Bool) (f : Server → Server) : Server :=
  if l then f s else s

/-- `RNTO`; `fromname` is freed. -/
def Server.rnto (s : Server) (env : LineEnv) (path : Option Bytes) : Server :=
  match s.fromname with
  | some _ => { s.renamecmd env path with fromname := none }
  | none => s.reply 503 (ascii "Bad sequence of commands.")

/-- `RNFR`, which `cmd_list` resets nothing behind. -/
def Server.rnfr (s : Server) (env : LineEnv) (l : Bool) (path : Option Bytes) : Server :=
  let s := { s with data := { s.data with restartPoint := 0 } }
  match path with
  | some p =>
    if l then
      let (found, s) := s.renamefrom env p
      { s with fromname := found }
    else s
  | none => s

/-- `REST`; a negative offset is an `off_t` like any other. -/
def Server.rest (s : Server) (l : Bool) (offset : Int) : Server :=
  if l then
    { s with fromname := none, data := { s.data with restartPoint := offset } }.reply 350
      (ascii "Restarting at " ++ integer offset ++
        ascii ". Send STORE or RETRIEVE to initiate transfer.")
  else s

/-- The command that `LIST` runs. -/
def lsCommand (path : Bytes) : Bytes := ascii "/bin/ls -lgA" ++ path

def Server.execute (s : Server) (env : LineEnv) : Command → Server
  | .user name => s.onLogin (Ftpd.user env.database name)
  | .pass passwd => s.onLogin (Ftpd.pass env.database env.login passwd)
  | .port l n => s.withLogin l (fun s => s.onData (Data.portAction n))
  | .pasv l => s.withLogin l (fun s => s.onData (Data.passive env.passive))
  | .type l t => s.withLogin l (fun s => s.typeCommand t)
  | .stru l c => s.withLogin l (fun s =>
    if c = .F then s.reply 200 (ascii "STRU F ok.")
    else s.reply 504 (ascii "Unimplemented STRU type."))
  | .mode l c => s.withLogin l (fun s =>
    if c = .S then s.reply 200 (ascii "MODE S ok.")
    else s.reply 502 (ascii "Unimplemented MODE type."))
  | .allo l => s.withLogin l (fun s => s.reply 202 (ascii "ALLO command ignored."))
  | .retr l path => s.withPath l path (fun p s => s.transfer env (Data.retrieve false env.file p))
  | .stor l path => s.withPath l path (fun p s => s.transfer env (Data.store env.file none p))
  | .appe l path => s.withPath l path (fun p s => s.transfer env (Data.store env.file none p))
  | .nlst l none => s.withLogin l (fun s => s.transfer env (Data.sendFileList env.list (ascii ".")))
  | .nlst l (some name) => s.withLogin l (fun s => s.transfer env (Data.sendFileList env.list name))
  | .list l none => s.withLogin l (fun s => s.transfer env (Data.retrieve true env.file (lsCommand [])))
  | .list l (some path) => s.withPath l path (fun p s =>
    s.transfer env (Data.retrieve true env.file (lsCommand (32 :: p))))
  | .stat l none => s.withLogin l (fun s => s.statcmd)
  | .stat l (some path) => s.withPath l path (fun p s => s.statfilecmd env p)
  | .dele l path => s.withPath l path (fun p s => s.delete env p)
  | .rnto l path => s.withLogin l (fun s => s.rnto env path)
  | .abor l => s.withLogin l (fun s => s.reply 225 (ascii "ABOR command successful."))
  | .cwd l none => s.withLogin l (fun s =>
    s.cwd env ((s.login.pw.map (fun pw => pw.pwDir)).getD []))
  | .cwd l (some path) => s.withPath l path (fun p s => s.cwd env p)
  | .help name => match name with
    | none => s.help false none
    | some name => s.helpString name
  | .noop => s.reply 200 (ascii "NOOP command successful.")
  | .mkd l path => s.withPath l path (fun p s => s.makedir env p)
  | .rmd l path => s.withPath l path (fun p s => s.removedir env p)
  | .pwd l => s.withLogin l (fun s => s.pwd env)
  | .cdup l => s.withLogin l (fun s => s.cwd env (ascii ".."))
  | .siteHelp name => s.help true name
  | .siteUmask l mask => s.withLogin l (fun s => s.umaskCommand mask)
  | .siteChmod l mode path => s.withPath l path (fun p s => s.chmodCommand env mode p)
  | .siteIdle l seconds => s.withLogin l (fun s => s.idleCommand seconds)
  | .stou l path => s.withPath l path (fun p s =>
    s.transfer env (Data.store env.file (some env.unique) p))
  | .syst l => s.withLogin l (fun s => s.reply 215 (ascii "UNIX Type: L8 (Linux)"))
  | .size l path => s.withPath l path (fun p s => s.sizecmd env p)
  | .mdtm l path => s.withPath l path (fun p s => s.mdtm env p)
  | .quit => (s.reply 221 (ascii "Goodbye.")).exit
  | .error => s
  | .rnfr l path => s.rnfr env l path
  | .rest l offset => s.rest l offset

/-! ## The command loop -/

/-- `cmd_list`: behind a `cmd`, the values that `RNFR` and `REST` have left are reset. -/
def Server.reset (s : Server) (c : Command) : Server :=
  if c.isRcmd then s
  else { s with fromname := none, data := { s.data with restartPoint := 0 } }

/-- The scanner has left without a token; `longjmp` starts a new `yyparse`. -/
def Server.stop (s : Server) (why : Stop) : Server :=
  match why with
  | .lexical => s.yyerror
  | .unimplemented name => s.nack name
  | .eof => (s.reply 221 (ascii "You could at least say goodbye.")).exit

def finishTurn (env : LineEnv) : Turn → Server
  | .command c s => (s.execute env c).reset c
  | .stopped why s => s.stop why

/-- A server that has just been started, with the bytes that the client will send. -/
def Server.start (hisAddr : Data.Address) (portcheck : Bool) (hostname stdin : Bytes) : Server where
  lexer := ⟨[], 0, .CMD, [], stdin, []⟩
  login := Session.start
  data := Data.Session.start hisAddr portcheck
  form := .N
  fromname := none
  timeout := 900
  maxtimeout := 7200
  umask := 23
  hostname := hostname
  replies := []

def commandCycle (s : Server) (env : LineEnv) : Option Server :=
  if s.login.exited ∨ s.data.astray then none
  else some (finishTurn env (parseCommand env.glob { s with replies := [] }))

end Netkit.Ftpd

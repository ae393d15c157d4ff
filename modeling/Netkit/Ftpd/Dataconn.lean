import Netkit.Foundations.Runs
import Netkit.Ftpd.Login

/-!
# Data connections

How ftpd opens, uses and closes the connections for its data: `PORT` and `PASV`, `dataconn`,
and the transfers. An `ABOR` can arrive at any moment of a transfer; its signal handler jumps
out of the transfer.
-/

namespace Netkit.Ftpd.Data

open Netkit.Foundations

/-! ## The session -/

structure Address where
  host : Nat
  port : Nat
deriving DecidableEq

abbrev Handle := Nat

/-- Where a transfer goes: the default address, the address of a `PORT`, the listening socket
of a `PASV`, or a connection that is left over. -/
inductive Source where
  | default
  | port (a : Address)
  | passive (h : Handle)
  | existing (h : Handle)
deriving DecidableEq

/-- An earlier `PORT` is taken back. -/
def Source.withoutPort : Source → Source
  | .port _ => .default
  | other => other

/-- An earlier `PASV` is taken back. -/
def Source.withoutPassive : Source → Source
  | .passive _ => .default
  | other => other

/-- A transfer that has come to `dataconn`: where it goes, the last `PORT` or `PASV` that has
succeeded since the transfer before, and the last one that has not been taken back. -/
structure Use where
  source : Source
  latest : Source
  due : Source
deriving DecidableEq

inductive TypeCode where
  | A
  | E
  | I
  | L
deriving DecidableEq

/-- The connections of a session; `opened` lists the descriptors for data and files that are
open. No code reads `latest`, `due`, `uses` and `obtained`, which says that the last command has
got a data connection. -/
structure Conns where
  usedefault : Bool
  dataDest : Address
  data : Option Handle
  pdata : Option Handle
  opened : List Handle
  next : Handle
  latest : Source
  due : Source
  uses : List Use
  obtained : Bool
deriving DecidableEq

/-- No code reads `astray`, which says that the last command has jumped to a frame that is
gone. -/
structure Session where
  hisAddr : Address
  portcheck : Bool
  type : TypeCode
  restartPoint : Int
  conns : Conns
  transflag : Nat
  byteCount : Nat
  fileSize : Option Nat
  replies : List Reply
  astray : Bool
deriving DecidableEq

def Session.start (hisAddr : Address) (portcheck : Bool) : Session where
  hisAddr := hisAddr
  portcheck := portcheck
  type := .A
  restartPoint := 0
  conns := ⟨true, ⟨0, 0⟩, none, none, [], 0, .default, .default, [], false⟩
  transflag := 0
  byteCount := 0
  fileSize := none
  replies := []
  astray := false

def Session.reply (s : Session) (code : Nat) (text : Bytes) : Session :=
  { s with replies := s.replies ++ [⟨code, text, false⟩] }

def Session.lreply (s : Session) (code : Nat) (text : Bytes) : Session :=
  { s with replies := s.replies ++ [⟨code, text, true⟩] }

def Session.perrorReply (s : Session) (code : Nat) (text strerror : Bytes) : Session :=
  s.reply code (text ++ ascii ": " ++ strerror ++ ascii ".")

def number (n : Nat) : Bytes := ascii (toString n)

def Conns.openNext (c : Conns) : Conns :=
  { c with opened := c.next :: c.opened, next := c.next + 1 }

def Conns.close (h : Handle) (c : Conns) : Conns :=
  { c with opened := c.opened.filter (fun o => o ≠ h) }

/-- `(void) close(pdata)`. -/
def Conns.closePassive (c : Conns) : Conns :=
  match c.pdata with
  | none => c
  | some h => c.close h

/-- A transfer has come to `dataconn`. -/
def Conns.use (source : Source) (c : Conns) : Conns :=
  { c with uses := c.uses ++ [⟨source, c.latest, c.due⟩], latest := .default, due := .default }

/-! ## PORT and PASV -/

/-- The six numbers of `PORT`. -/
structure HostPort where
  h1 : Int
  h2 : Int
  h3 : Int
  h4 : Int
  p1 : Int
  p2 : Int
deriving DecidableEq

def HostPort.inRange (n : HostPort) : Bool :=
  [n.h1, n.h2, n.h3, n.h4, n.p1, n.p2].all (fun x => decide (0 ≤ x) && decide (x ≤ 255))

def HostPort.address (n : HostPort) : Address where
  host := (((n.h1 * 256 + n.h2) * 256 + n.h3) * 256 + n.h4).toNat
  port := (n.p1 * 256 + n.p2).toNat

def IPPORT_RESERVED : Nat := 1024

/-- A `PORT` is rejected: it takes back the address of an earlier one. -/
def Conns.rejectPort (c : Conns) : Conns :=
  { c with usedefault := true, due := c.due.withoutPort }

/-- A `PORT` is accepted: an earlier listening socket is closed. -/
def Conns.acceptPort (c : Conns) : Conns :=
  { c.closePassive with
    usedefault := false
    pdata := none
    latest := .port c.dataDest
    due := .port c.dataDest }

/-- The address is stored when the numbers have been read, whatever comes of the command. -/
def Conns.hostPort (n : HostPort) (c : Conns) : Conns :=
  if n.inRange then { c with dataDest := n.address } else c

def Session.rejectPort (s : Session) (why : Bytes) : Session :=
  { s with conns := s.conns.rejectPort }.reply 500
    (ascii "Illegal PORT rejected (" ++ why ++ ascii ").")

/-- The action of `PORT`, when the address has been stored and somebody is logged in. -/
def portAction (n : HostPort) (s : Session) : Session :=
  if !n.inRange then s.rejectPort (ascii "range errors")
  else if s.portcheck ∧ s.conns.dataDest.port < IPPORT_RESERVED then
    s.rejectPort (ascii "reserved port")
  else if s.portcheck ∧ s.conns.dataDest.host ≠ s.hisAddr.host then
    s.rejectPort (ascii "address wrong")
  else
    { s with conns := s.conns.acceptPort }.reply 200 (ascii "PORT command successful.")

def portCommand (loggedIn : Bool) (n : HostPort) (s : Session) : Session :=
  if !loggedIn then
    { s.reply 530 (ascii "Please login with USER and PASS.") with conns := s.conns.hostPort n }
  else portAction n { s with conns := s.conns.hostPort n }

/-- What the system says during a `PASV`. -/
structure PassiveEnv where
  socket : Bool
  bind : Bool
  getsockname : Bool
  listen : Bool
  address : Bytes
  strerror : Bytes
deriving DecidableEq

/-- A `PASV` fails: an earlier listening socket is closed already. -/
def Conns.failPassive (c : Conns) : Conns :=
  { c.closePassive with pdata := none, due := c.due.withoutPassive }

/-- A `PASV` succeeds. -/
def Conns.listenPassive (c : Conns) : Conns :=
  { c.closePassive.openNext with
    pdata := some c.next
    latest := .passive c.next
    due := .passive c.next }

def Session.passiveError (s : Session) (strerror : Bytes) : Session :=
  { s with conns := s.conns.failPassive }.perrorReply 425
    (ascii "Can't open passive connection") strerror

def passive (env : PassiveEnv) (s : Session) : Session :=
  if !env.socket then s.passiveError env.strerror
  else if !(env.bind && env.getsockname && env.listen) then s.passiveError env.strerror
  else
    { s with conns := s.conns.listenPassive }.reply 227
      (ascii "Entering Passive Mode (" ++ env.address ++ ascii ")")

def pasvCommand (loggedIn : Bool) (env : PassiveEnv) (s : Session) : Session :=
  if !loggedIn then s.reply 530 (ascii "Please login with USER and PASS.") else passive env s

/-! ## The connection -/

/-- What the system says when a connection is opened: who has connected, or whether the socket
could be made and connected. -/
structure ConnectEnv where
  accept : Option Address
  getdatasock : Bool
  connect : Bool
  dataSource : Bytes
  strerror : Bytes
deriving DecidableEq

def cantBuild : Bytes := ascii "Can't build data connection"

def sizebuf (size : Option Nat) : Bytes :=
  match size with
  | none => []
  | some n => ascii " (" ++ number n ++ ascii " bytes)"

def Session.replyOpening (s : Session) (name : Bytes) : Session :=
  s.reply 150 (ascii "Opening " ++ (if s.type = .A then ascii "ASCII" else ascii "BINARY") ++
    ascii " mode data connection for '" ++ name ++ ascii "'" ++ sizebuf s.fileSize ++ ascii ".")

/-- `accept` fails. -/
def Conns.refuseAccept (h : Handle) (c : Conns) : Conns :=
  { (c.use (.passive h)).close h with pdata := none }

def Conns.refusePeer (h : Handle) (c : Conns) : Conns :=
  { ((c.use (.passive h)).openNext.close h).close c.next with pdata := none }

def Conns.acceptPeer (h : Handle) (c : Conns) : Conns :=
  { (c.use (.passive h)).openNext.close h with pdata := some c.next, obtained := true }

/-- `dataconn` with a listening socket. -/
def acceptPassive (env : ConnectEnv) (name : Bytes) (h : Handle) (s : Session) :
    Option Handle × Session :=
  match env.accept with
  | none =>
    (none, { s.reply 425 (ascii "Can't open data connection.") with
      conns := s.conns.refuseAccept h })
  | some peer =>
    if peer.port < IPPORT_RESERVED then
      (none, { s.perrorReply 425 cantBuild env.strerror with conns := s.conns.refusePeer h })
    else if peer.host ≠ s.hisAddr.host then
      (none, { s.perrorReply 435 cantBuild env.strerror with conns := s.conns.refusePeer h })
    else
      (some s.conns.next, { s with conns := s.conns.acceptPeer h }.replyOpening name)

def Conns.dial (hisAddr : Address) (c : Conns) : Conns :=
  { c with
    dataDest := if c.usedefault then hisAddr else c.dataDest
    usedefault := true }.use (if c.usedefault then .default else .port c.dataDest)

def Conns.openData (c : Conns) : Conns := { c.openNext with data := some c.next }

/-- `dataconn` gives the new socket up. -/
def Conns.giveUp (h : Handle) (c : Conns) : Conns := { c.close h with data := none }

def Session.giveUp (s : Session) (code : Nat) (env : ConnectEnv) (h : Handle) : Session :=
  { s.perrorReply code cantBuild env.strerror with conns := s.conns.giveUp h }

/-- `dataconn` without one. -/
def connectOut (env : ConnectEnv) (name : Bytes) (s : Session) : Option Handle × Session :=
  let s := { s with conns := s.conns.dial s.hisAddr }
  if !env.getdatasock then
    (none, s.reply 425 (ascii "Can't create data socket (" ++ env.dataSource ++ ascii "): " ++
      env.strerror ++ ascii "."))
  else
    let conn := s.conns.next
    let s := { s with conns := s.conns.openData }
    let dest := s.conns.dataDest
    if dest.port < IPPORT_RESERVED ∨ dest.port = 2049 then (none, s.giveUp 425 env conn)
    else if dest.host ≠ s.hisAddr.host then (none, s.giveUp 435 env conn)
    else if !env.connect then (none, s.giveUp 425 env conn)
    else (some conn, { s with conns := { s.conns with obtained := true } }.replyOpening name)

def Conns.useExisting (h : Handle) (c : Conns) : Conns :=
  { c.use (.existing h) with usedefault := true, obtained := true }

def dataconn (env : ConnectEnv) (name : Bytes) (size : Option Nat) (s : Session) :
    Option Handle × Session :=
  let s := { s with fileSize := size, byteCount := 0 }
  match s.conns.pdata with
  | some h => acceptPassive env name h s
  | none =>
    match s.conns.data with
    | some h =>
      (some h, { s with conns := s.conns.useExisting h }.reply 125
        (ascii "Using existing data connection for '" ++ name ++ ascii "'" ++ sizebuf size ++
          ascii "."))
    | none => connectOut env name s

/-- A transfer is over: `fclose` of the stream, `data = -1` and `pdata = -1`. -/
def Conns.endTransfer (conn : Handle) (c : Conns) : Conns :=
  { c.close conn with data := none, pdata := none }

/-! ## Transfers -/

/-- A line that comes with an urgent signal. -/
inductive Urgent where
  | abor
  | stat
  | other
deriving DecidableEq

/-- `myoob` while a transfer is under way: does it jump? -/
def myoob (u : Urgent) (s : Session) : Bool × Session :=
  if s.transflag = 0 then (false, s)
  else
    match u with
    | .abor =>
      (true, (s.reply 426 (ascii "Transfer aborted. Data connection closed.")).reply 226
        (ascii "Abort successful"))
    | .stat =>
      (false, s.reply 213 (ascii "Status: " ++ number s.byteCount ++ (match s.fileSize with
        | some size => ascii " of " ++ number size
        | none => []) ++ ascii " bytes transferred"))
    | .other => (false, s)

/-- What happens while the data flow: so many bytes go through, or an urgent line comes. -/
inductive Moment where
  | bytes (n : Nat)
  | urgent (u : Urgent)
deriving DecidableEq

/-- The loop of a transfer: `true` if the signal handler has jumped out of it. -/
def flow : List Moment → Session → Bool × Session
  | [], s => (false, s)
  | .bytes n :: ms, s => flow ms { s with byteCount := s.byteCount + n }
  | .urgent u :: ms, s =>
    let (jumped, s) := myoob u s
    if jumped then (true, s) else flow ms s

inductive Ending where
  | complete
  | fileErr
  | dataErr
  | malloc
deriving DecidableEq

/-- The course of a transfer; with `early` an `ABOR` comes between `transflag++` and the call of
`setjmp`. -/
structure Course where
  early : Bool
  moments : List Moment
  ending : Ending
  bareLfs : Nat
  strerror : Bytes
deriving DecidableEq

def sendData (c : Course) (s : Session) : Session :=
  let s := { s with transflag := s.transflag + 1 }
  if c.early then { s with astray := true }
  else
    let (jumped, s) := flow c.moments s
    let s := { s with transflag := 0 }
    if jumped then s
    else if s.type = .E then s.reply 550 (ascii "Unimplemented TYPE 2 in send_data")
    else
      match c.ending with
      | .complete => s.reply 226 (ascii "Transfer complete.")
      | .fileErr => s.perrorReply 551 (ascii "Error on input file") c.strerror
      | .dataErr => s.perrorReply 426 (ascii "Data connection") c.strerror
      | .malloc => s.perrorReply 451 (ascii "Local resource failure: malloc") c.strerror

/-- `true` if the file has been received. -/
def receiveData (c : Course) (s : Session) : Bool × Session :=
  let s := { s with transflag := s.transflag + 1 }
  if c.early then (false, { s with astray := true })
  else
    let (jumped, s) := flow c.moments s
    let s := { s with transflag := 0 }
    if jumped then (false, s)
    else if s.type = .E then (false, s.reply 553 (ascii "TYPE E not implemented."))
    else
      match c.ending with
      | .complete =>
        (true, if s.type = .A ∧ c.bareLfs ≠ 0 then
          s.lreply 226 (ascii "WARNING! bare linefeeds received in ASCII mode") else s)
      | .fileErr => (false, s.perrorReply 452 (ascii "Error writing file") c.strerror)
      | _ => (false, s.perrorReply 426 (ascii "Data Connection") c.strerror)

/-- What the system says during a `RETR`, a `LIST` or a `STOR`. -/
structure FileEnv where
  opens : Bool
  errno : Bool
  regular : Bool
  restarts : Bool
  size : Nat
  strerror : Bytes
  conn : ConnectEnv
  course : Course
deriving DecidableEq

/-- `retrieve` behind the opening of `fin`. -/
def retrieveFrom (cmd : Bool) (env : FileEnv) (name : Bytes) (s : Session) : Session :=
  if !cmd ∧ !env.regular then s.reply 550 (name ++ ascii ": not a plain file.")
  else if s.restartPoint ≠ 0 ∧ !env.restarts then s.perrorReply 550 name env.strerror
  else
    match dataconn env.conn name (if cmd then none else some env.size) s with
    | (none, s) => s
    | (some conn, s) =>
      let s := sendData env.course s
      { s with conns := s.conns.endTransfer conn }

/-- `retrieve`, of a file or of the output of a command. -/
def retrieve (cmd : Bool) (env : FileEnv) (name : Bytes) (s : Session) : Session :=
  if !env.opens then if env.errno then s.perrorReply 550 name env.strerror else s
  else
    let fin := s.conns.next
    let s := retrieveFrom cmd env name { s with conns := s.conns.openNext }
    { s with conns := s.conns.close fin }

/-- `store` behind the opening of `fout`. -/
def storeTo (env : FileEnv) (name : Bytes) (unique : Bool) (s : Session) : Session :=
  if s.restartPoint ≠ 0 ∧ !env.restarts then s.perrorReply 550 name env.strerror
  else
    match dataconn env.conn name none s with
    | (none, s) => s
    | (some conn, s) =>
      let (received, s) := receiveData env.course s
      let s := if received then
        s.reply 226 (if unique then
          ascii "Transfer complete (unique file name:" ++ name ++ ascii ")."
          else ascii "Transfer complete.") else s
      { s with conns := s.conns.endTransfer conn }

/-- What `guniquefd` comes to: a name, or the code and the text of its reply, if any. -/
inductive Unique where
  | unused
  | found (name : Bytes)
  | refused (code : Nat) (text : Bytes)
  | tooLong
deriving DecidableEq

def storeNamed (env : FileEnv) (name : Bytes) (unique : Bool) (s : Session) : Session :=
  if !env.opens then s.perrorReply 553 name env.strerror
  else
    let fout := s.conns.next
    let s := storeTo env name unique { s with conns := s.conns.openNext }
    { s with conns := s.conns.close fout }

/-- `store`; `unique` is `none` but for `STOU`. -/
def store (env : FileEnv) (unique : Option Unique) (name : Bytes) (s : Session) : Session :=
  match unique with
  | some (.found new) => storeNamed env new true s
  | some (.refused code text) => s.reply code text
  | some .tooLong => s
  | some .unused => storeNamed env name true s
  | none => storeNamed env name false s

/-! ## NLST -/

/-- An entry of a directory, and whether it is listed. -/
inductive Item where
  | name (n : Bytes) (listed : Bool)
  | urgent (u : Urgent)
deriving DecidableEq

/-- A name that `NLST` comes to: it does not exist, is a file, a directory (that may not be
readable) or anything else. -/
inductive Entry where
  | missing (n : Bytes)
  | regular (n : Bytes)
  | directory (items : Option (List Item))
  | special
  | urgent (u : Urgent)
deriving DecidableEq

/-- What `glob` says of a pattern. -/
inductive Glob where
  | found
  | failed
  | empty
deriving DecidableEq

structure ListEnv where
  glob : Glob
  entries : List Entry
  conn : ConnectEnv
  ferror : Bool
  strerror : Bytes
  list : FileEnv
deriving DecidableEq

/-- `setjmp` returns again: the jump leads to `out`. -/
def jumpOut (s : Session) : Session := { s with transflag := 0 }

/-- A name is written, on a connection that is opened for the first one. `none` for the stream
says that `send_file_list` is over. -/
def listName (env : ListEnv) (n : Bytes) (dout : Option Handle) (s : Session) :
    Option Handle × Session :=
  match dout with
  | some conn => (some conn, { s with byteCount := s.byteCount + (n.length + 1) })
  | none =>
    match dataconn env.conn (ascii "file list") none s with
    | (none, s) => (none, s)
    | (some conn, s) => (some conn,
      { s with transflag := s.transflag + 1, byteCount := s.byteCount + (n.length + 1) })

/-- The loop over a directory: the stream, or that the function is over. -/
def listItems (env : ListEnv) : List Item → Option Handle → Session →
    Except Session (Option Handle × Session)
  | [], dout, s => .ok (dout, s)
  | .name _ false :: items, dout, s => listItems env items dout s
  | .name n true :: items, dout, s =>
    match listName env n dout s with
    | (none, s) => .error s
    | (some conn, s) => listItems env items (some conn) s
  | .urgent u :: items, dout, s =>
    match myoob u s with
    | (true, s) => .error (jumpOut s)
    | (false, s) => listItems env items dout s

/-- A name that does not exist ends the list, unless it is an option of `ls`. -/
def listMissing (env : ListEnv) (which n : Bytes) (last : Bool) (dout : Option Handle)
    (s : Session) : Session :=
  if n.head? = some 45 ∧ last ∧ s.transflag = 0 then retrieve true env.list n s
  else
    let s := s.perrorReply 550 which env.strerror
    match dout with
    | none => s
    | some conn => { s with transflag := 0, conns := s.conns.endTransfer conn }

def isLast (entries : List Entry) : Bool :=
  entries.all (fun e => match e with
    | .urgent _ => true
    | _ => false)

def listEntries (env : ListEnv) (which : Bytes) : List Entry → Option Handle → Session →
    Except Session (Option Handle × Session)
  | [], dout, s => .ok (dout, s)
  | .missing n :: entries, dout, s =>
    .error (listMissing env which n (isLast entries) dout s)
  | .regular n :: entries, dout, s =>
    match listName env n dout s with
    | (none, s) => .error s
    | (some conn, s) => listEntries env which entries (some conn) s
  | .directory none :: entries, dout, s => listEntries env which entries dout s
  | .directory (some items) :: entries, dout, s =>
    match listItems env items dout s with
    | .error s => .error s
    | .ok (dout, s) => listEntries env which entries dout s
  | .special :: entries, dout, s => listEntries env which entries dout s
  | .urgent u :: entries, dout, s =>
    match myoob u s with
    | (true, s) => .error (jumpOut s)
    | (false, s) => listEntries env which entries dout s

/-- `data = -1` and `pdata = -1`, with nothing closed. -/
def Conns.forget (c : Conns) : Conns := { c with data := none, pdata := none }

def listEnd (env : ListEnv) (dout : Option Handle) (s : Session) : Session :=
  match dout with
  | none =>
    { s.reply 550 (ascii "No files found.") with transflag := 0, conns := s.conns.forget }
  | some conn =>
    let s := if env.ferror then s.perrorReply 550 (ascii "Data connection") env.strerror
      else s.reply 226 (ascii "Transfer complete.")
    { s with transflag := 0, conns := s.conns.endTransfer conn }

def sendFileList (env : ListEnv) (which : Bytes) (s : Session) : Session :=
  match env.glob with
  | .failed => s.reply 550 (ascii "not found")
  | .empty => s.perrorReply 550 which (ascii "No such file or directory")
  | .found =>
    match listEntries env which env.entries none s with
    | .error s => s
    | .ok (dout, s) => listEnd env dout s

/-! ## Commands -/

/-- The commands that concern data connections, and anything that changes the type or the
restart point. -/
inductive DataCommand where
  | port (loggedIn : Bool) (n : HostPort)
  | pasv (loggedIn : Bool) (env : PassiveEnv)
  | retr (name : Bytes) (env : FileEnv)
  | list (name : Bytes) (env : FileEnv)
  | nlst (which : Bytes) (env : ListEnv)
  | stor (name : Bytes) (env : FileEnv)
  | appe (name : Bytes) (env : FileEnv)
  | stou (name : Bytes) (unique : Unique) (env : FileEnv)
  | set (type : TypeCode) (restartPoint : Int)
deriving DecidableEq

def dataStep (s : Session) (c : DataCommand) : Option Session :=
  if s.astray then none
  else
    let s := { s with replies := [], conns := { s.conns with obtained := false } }
    some (match c with
    | .port loggedIn n => portCommand loggedIn n s
    | .pasv loggedIn env => pasvCommand loggedIn env s
    | .retr name env => retrieve false env name s
    | .list name env => retrieve true env name s
    | .nlst which env => sendFileList env which s
    | .stor name env => store env none name s
    | .appe name env => store env none name s
    | .stou name unique env => store env (some unique) name s
    | .set type restartPoint => { s with type := type, restartPoint := restartPoint })

end Netkit.Ftpd.Data

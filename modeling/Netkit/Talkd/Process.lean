import Mathlib.Data.UInt
import Mathlib.Data.List.Basic

/-!
# The requests of talkd

`table.c` and `process.c` of talkd. The table is searched from its head, where new entries are put.
Old entries are thrown out by `expire`, and an entry that is touched becomes young again. What the
machine answers, who is logged in and whether the announcement reaches a terminal, comes with the
request.
-/

namespace Netkit.Talkd

def MAX_ID : ℕ := 16000
def MAX_LIFE : Int := 60
def NAME_SIZE : ℕ := 12

def LEAVE_INVITE : UInt8 := 0
def LOOK_UP : UInt8 := 1
def DELETE : UInt8 := 2
def ANNOUNCE : UInt8 := 3

def SUCCESS : UInt8 := 0
def NOT_HERE : UInt8 := 1
def UNKNOWN_REQUEST : UInt8 := 5
def BADVERSION : UInt8 := 6

def TALK_VERSION : UInt8 := 1

structure TalkAddr where
  family : UInt16 := 0
  port : UInt16 := 0
  addr : UInt32 := 0
  deriving DecidableEq

/-- `CTL_MSG`, in host byte order, as far as it is read again. -/
structure CtlMsg where
  vers : UInt8
  type : UInt8
  idNum : UInt32
  addr : TalkAddr
  pid : UInt32
  lName : List UInt8
  rName : List UInt8
  deriving DecidableEq

/-- `strcmp(a, b) == 0`. -/
def sameString (a b : List UInt8) : Bool :=
  a.takeWhile (fun c => c != 0) == b.takeWhile (fun c => c != 0)

/-- `TABLE_ENTRY`. `serial` counts the ids that had been handed out when the entry got its own,
with that one. No code reads it. -/
structure TableEntry where
  request : CtlMsg
  time : Int
  serial : ℕ
  deriving DecidableEq

/-- The static variables `table` and `current_id`. `issued` counts the ids handed out. -/
structure Table where
  table : List TableEntry := []
  currentId : ℕ := 0
  issued : ℕ := 0

def newId (currentId : ℕ) : ℕ :=
  if (currentId + 1) % MAX_ID = 0 then 1 else (currentId + 1) % MAX_ID

def Table.takeId (t : Table) : Table :=
  { t with currentId := newId t.currentId, issued := t.issued + 1 }

/-- `expire`. It reads `ptr->next` of an entry that `deleteit` has just freed; here this is what
it was before. -/
def expire (now : Int) (t : Table) : Table :=
  { t with table := t.table.filter (fun e => ¬ now - e.time > MAX_LIFE) }

/-- The test of `find_match`. -/
def isMatch (request : CtlMsg) (e : TableEntry) : Bool :=
  sameString request.lName e.request.rName && sameString request.rName e.request.lName &&
    e.request.type == LEAVE_INVITE

def findMatch (now : Int) (request : CtlMsg) (t : Table) : Table × Option CtlMsg :=
  let t := expire now t
  (t, (t.table.find? (isMatch request)).map TableEntry.request)

/-- The test of `find_request`. -/
def isRequest (request : CtlMsg) (e : TableEntry) : Bool :=
  sameString request.rName e.request.rName && sameString request.lName e.request.lName &&
    request.type == e.request.type && request.pid == e.request.pid

/-- `find_request`. The pointer it returns is the place of the entry in the list. The time is
read a second time for an entry that is touched. -/
def findRequest (now later : Int) (request : CtlMsg) (t : Table) : Table × Option ℕ :=
  let t := expire now t
  match t.table.findIdx? (isRequest request) with
  | some i => ({ t with table := t.table.modify i (fun e => { e with time := later }) }, some i)
  | none => (t, none)

/-- `insert_table`. It returns the id that the response gets. -/
def insertTable (later : Int) (request : CtlMsg) (t : Table) : Table × UInt32 :=
  let id := UInt32.ofNat (newId t.currentId)
  ({ t.takeId with
    table := { request := { request with idNum := id }, time := later, serial := t.issued + 1 } ::
      t.table }, id)

/-- `ptr->id_num = new_id()`, for the entry at place `i`. -/
def Table.renumber (i : ℕ) (t : Table) : Table × UInt32 :=
  let id := UInt32.ofNat (newId t.currentId)
  ({ t.takeId with
    table := t.table.modify i (fun e =>
      { e with request := { e.request with idNum := id }, serial := t.issued + 1 }) }, id)

def deleteInvite (idNum : UInt32) (t : Table) : Table × UInt8 :=
  if t.table.any (fun e => e.request.idNum == idNum) then
    ({ t with table := t.table.eraseP (fun e => e.request.idNum == idNum) }, SUCCESS)
  else (t, NOT_HERE)

/-! ## The requests -/

/-- The clock when `expire` reads it and when it is read again, the result of `find_user`, and
the result of `announce`. -/
structure Env where
  now : Int
  later : Int
  user : UInt8
  announced : UInt8

/-- `CTL_RESPONSE`. Where the code leaves a field as it is on the stack, it is `none`. -/
structure CtlResponse where
  vers : UInt8
  type : UInt8
  answer : Option UInt8
  idNum : UInt32
  addr : Option TalkAddr
  deriving DecidableEq

def byteSwap32 (k : UInt32) : UInt32 :=
  (k <<< 24) ||| ((k &&& (0xff00 : UInt32)) <<< 8) ||| ((k >>> 8) &&& (0xff00 : UInt32)) |||
    (k >>> 24)

/-- An explicit announcement of an entry with the id `id`, possibly by an old client of the other
byte order. -/
def reannounces (mp : CtlMsg) (id : UInt32) : Bool :=
  mp.idNum > id || byteSwap32 (byteSwap32 mp.idNum - 1) == id

def doAnnounce (env : Env) (mp : CtlMsg) (rp : CtlResponse) (t : Table) : Table × CtlResponse :=
  if env.user ≠ SUCCESS then (t, { rp with answer := some env.user })
  else
    match findRequest env.now env.later mp t with
    | (t, none) =>
      let (t, id) := insertTable env.later mp t
      (t, { rp with idNum := id, answer := some env.announced })
    | (t, some i) =>
      match t.table[i]? with
      | some ptr =>
        if reannounces mp ptr.request.idNum then
          let (t, id) := t.renumber i
          (t, { rp with idNum := id, answer := some env.announced })
        else (t, { rp with idNum := ptr.request.idNum, answer := some SUCCESS })
      | none => (t, rp)

/-- The case `LEAVE_INVITE`. A new invitation leaves `answer` as it is. -/
def leaveInvite (env : Env) (mp : CtlMsg) (rp : CtlResponse) (t : Table) : Table × CtlResponse :=
  match findRequest env.now env.later mp t with
  | (t, some i) =>
    match t.table[i]? with
    | some ptr => (t, { rp with idNum := ptr.request.idNum, answer := some SUCCESS })
    | none => (t, rp)
  | (t, none) =>
    let (t, id) := insertTable env.later mp t
    (t, { rp with idNum := id })

/-- The case `LOOK_UP`. -/
def lookUp (env : Env) (mp : CtlMsg) (rp : CtlResponse) (t : Table) : Table × CtlResponse :=
  match findMatch env.now mp t with
  | (t, some ptr) =>
    (t, { rp with idNum := ptr.idNum, addr := some ptr.addr, answer := some SUCCESS })
  | (t, none) => (t, { rp with answer := some NOT_HERE })

def terminated (name : List UInt8) : List UInt8 := name.set (NAME_SIZE - 1) 0

def processRequest (env : Env) (mp : CtlMsg) (t : Table) : Table × CtlResponse :=
  let mp := { mp with lName := terminated mp.lName, rName := terminated mp.rName }
  let rp : CtlResponse :=
    { vers := TALK_VERSION, type := mp.type, answer := none, idNum := 0, addr := none }
  if mp.vers ≠ TALK_VERSION then (t, { rp with answer := some BADVERSION })
  else if mp.type = ANNOUNCE then doAnnounce env mp rp t
  else if mp.type = LEAVE_INVITE then leaveInvite env mp rp t
  else if mp.type = LOOK_UP then lookUp env mp rp t
  else if mp.type = DELETE then
    let (t, answer) := deleteInvite mp.idNum t
    (t, { rp with answer := some answer })
  else (t, { rp with answer := some UNKNOWN_REQUEST })

def MACHINE_UNKNOWN : UInt8 := 3
def BADADDR : UInt8 := 7
def AF_INET : UInt16 := 2

/-- What `do_one_packet` finds out about where a message comes from: whether the name of its
address leads back to it, and what `is_local_address` says of it and of the address in the
message. -/
structure Sender where
  known : Bool
  isLocal : Bool
  addrLocal : Bool

/-- `send_reject_packet`. -/
def rejectPacket (mp : CtlMsg) (code : UInt8) : CtlResponse :=
  { vers := TALK_VERSION, type := mp.type, answer := some code, idNum := 0, addr := some {} }

/-- `do_one_packet`, for a message of the right length. -/
def doOnePacket (sender : Sender) (env : Env) (mp : CtlMsg) (t : Table) : Table × CtlResponse :=
  if !sender.known then (t, rejectPacket mp MACHINE_UNKNOWN)
  else if mp.vers ≠ TALK_VERSION then (t, rejectPacket mp BADVERSION)
  else if mp.type = LEAVE_INVITE then
    if !sender.isLocal then (t, rejectPacket mp MACHINE_UNKNOWN)
    else if !sender.addrLocal then (t, rejectPacket mp BADADDR)
    else processRequest env { mp with addr := { mp.addr with family := AF_INET } } t
  else processRequest env { mp with addr := {} } t

structure Event where
  env : Env
  mp : CtlMsg

def talkdStep (t : Table) (e : Event) : Option Table := some (processRequest e.env e.mp t).1

end Netkit.Talkd

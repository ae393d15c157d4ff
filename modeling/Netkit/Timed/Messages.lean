import Mathlib.Data.List.Basic

/-!
# Messages of timed

What `readmsg.c` looks at in a message, and what it makes of the messages that wait.
-/

namespace Netkit.Timed

/-- The types of messages that the program has a name for, and the others. -/
inductive TspType where
  | any | adjtime | ack | masterreq | masterack | settime | masterup | slaveup | election | accept
  | refuse | conflict | resolve | quit | date | datereq | dateack | traceon | traceoff | msite
  | msitereq | test | setdate | setdatereq | loop
  | other (n : UInt8)
deriving DecidableEq

abbrev Name := List UInt8

def TSPVERSION : UInt8 := 1

/-- `struct tsp`, without what the type adds to it. -/
structure Tsp where
  tspType : TspType
  tspVers : UInt8
  tspSeq : UInt16
  tspName : Name
deriving DecidableEq

structure Sockaddr where
  sinAddr : UInt32
  sinPort : UInt16
deriving DecidableEq

/-- `struct tsplist`, without the link. -/
structure Message where
  info : Tsp
  when : Int
  addr : Sockaddr
deriving DecidableEq

inductive Status where
  | nomaster
  | slave
  | master
  | ignore
deriving DecidableEq

structure Netinfo where
  net : UInt32
  mask : UInt32
  status : Status
  quitCount : Int
deriving DecidableEq

/-- A pointer into the list `nettab`. -/
abbrev Net := ℕ

def Netinfo.has (n : Netinfo) (addr : UInt32) : Bool := n.mask &&& addr == n.net

/-- What a caller of `readmsg` asks for. -/
structure Filter where
  type : TspType
  machfrom : Option Name
  netfrom : Option Net
deriving DecidableEq

def lookat (nettab : List Netinfo) (f : Filter) (msg : Message) : Bool :=
  (f.type == .any || f.type == msg.info.tspType) &&
    f.machfrom.all (fun name => name == msg.info.tspName) &&
    f.netfrom.all (fun i => (nettab[i]?).any (fun n => n.has msg.addr.sinAddr))

def fromnet (nettab : List Netinfo) (msg : Message) : Option Net :=
  nettab.findIdx? (fun n => n.has msg.addr.sinAddr)

/-! ## Arrival -/

def ofIgnored : List TspType := [.traceon, .setdate, .msite, .test, .traceoff]

def ofOwn : List TspType := [.setdate, .test, .msite, .traceon, .traceoff, .loop]

/-- `readmsg` drops the message and waits on. -/
def discards (nettab : List Netinfo) (hostname : Name) (msg : Message) : Bool :=
  decide (msg.info.tspVers > TSPVERSION) ||
    (fromnet nettab msg).isNone && !ofIgnored.contains msg.info.tspType ||
    msg.info.tspName == hostname && !ofOwn.contains msg.info.tspType

/-! ## The messages that wait -/

def NHOSTS : ℕ := 1013

/-- `msgslist` and `msgcnt`. -/
structure Queue where
  msgs : List Message
  msgcnt : Int
deriving DecidableEq

def duplicate (msg m : Message) : Bool :=
  m.addr.sinAddr == msg.addr.sinAddr && m.info.tspType == msg.info.tspType

/-- The first message that is asked for. The duplicates behind it are deleted; the last one of them
is the one that is returned. -/
def takeMsg (nettab : List Netinfo) (f : Filter) : List Message → Option (Message × List Message)
  | [] => none
  | msg :: rest =>
    if lookat nettab f msg then
      some ((rest.filter (duplicate msg)).getLastD msg, rest.filter (fun m => !duplicate msg m))
    else (takeMsg nettab f rest).map fun r => (r.1, msg :: r.2)

/-- What `readmsg` finds among the messages that wait. -/
def Queue.readmsg (nettab : List Netinfo) (f : Filter) (q : Queue) : Option (Message × Queue) :=
  (takeMsg nettab f q.msgs).map fun r => (r.1, ⟨r.2, q.msgcnt - 1⟩)

def Queue.arrive (msg : Message) (q : Queue) : Queue :=
  if q.msgcnt + 1 > NHOSTS * 3 then ⟨[], 0⟩ else ⟨q.msgs ++ [msg], q.msgcnt + 1⟩

variable {nettab : List Netinfo} {f : Filter} {rs ss : List Message}

theorem takeMsg_eq_none_iff :
    takeMsg nettab f rs = none ↔ ∀ m ∈ rs, lookat nettab f m = false := by
  induction rs with
  | nil => exact iff_of_true rfl fun m hm => absurd hm List.not_mem_nil
  | cons r rs ih =>
    rw [takeMsg, List.forall_mem_cons]
    cases hr : lookat nettab f r with
    | true => exact iff_of_false (fun h => by cases h) fun h => by cases h.1
    | false =>
      rw [if_neg Bool.false_ne_true, Option.map_eq_none_iff, ih]
      exact ⟨fun h => ⟨rfl, h⟩, fun h => h.2⟩

theorem takeMsg_eq_some_iff {r : Message} : takeMsg nettab f rs = some (r, ss) ↔
    ∃ us m vs, rs = us ++ m :: vs ∧ (∀ u ∈ us, lookat nettab f u = false) ∧
      lookat nettab f m = true ∧ r = (vs.filter (duplicate m)).getLastD m ∧
      ss = us ++ vs.filter (fun d => !duplicate m d) := by
  constructor
  · intro h
    induction rs generalizing ss with
    | nil => cases h
    | cons m rs ih =>
      rw [takeMsg] at h
      split at h
      · next hm =>
        cases h
        exact ⟨[], m, rs, rfl, fun u hu => absurd hu List.not_mem_nil, hm, rfl, rfl⟩
      · next hm =>
        obtain ⟨⟨r', ss'⟩, hrest, heq⟩ := Option.map_eq_some_iff.mp h
        cases heq
        obtain ⟨us, d, vs, rfl, hus, hd, hr, hss⟩ := ih hrest
        refine ⟨m :: us, d, vs, rfl, fun u hu => ?_, hd, hr, congrArg (m :: ·) hss⟩
        rcases List.mem_cons.mp hu with rfl | hu
        · exact eq_false_of_ne_true hm
        · exact hus u hu
  · rintro ⟨us, m, vs, rfl, hus, hm, rfl, rfl⟩
    induction us with
    | nil => rw [List.nil_append, takeMsg, if_pos hm]; rfl
    | cons u us ih =>
      have hu : ¬ lookat nettab f u = true := by
        rw [hus u List.mem_cons_self]
        exact Bool.false_ne_true
      rw [List.cons_append, takeMsg, if_neg hu, ih fun u hu => hus u (List.mem_cons_of_mem _ hu)]
      rfl

end Netkit.Timed

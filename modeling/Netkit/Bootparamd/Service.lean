import Netkit.Foundations.Runs
import Netkit.Bootparamd.Database

/-!
# What bootparamd answers

`bootparamproc_whoami_1_svc` and `bootparamproc_getfile_1_svc` of `rpc.bootparamd.c`. The answers
lie in static data: `hostname` and `path` are buffers, and the pointers of a `getfile` answer are
null until the first one with a server. The special answer for the file `dump` writes through
these pointers.

* `answered_of_careful`: careful requests are answered from the database alone.
-/

namespace Netkit.Bootparamd

open Netkit.Foundations

/-! ## The procedures -/

def MAX_MACHINE_NAME : Nat := 255

def MAX_PATH_LEN : Nat := 1024

def MAXLEN : Nat := 800

def IP_ADDR_TYPE : Nat := 1

/-- What the requests are answered from: the file, and the maps of names and addresses. -/
structure Database where
  file : Bytes
  byName : Names
  byAddr : UInt32 → Option Bytes
  domainname : Bytes
  routeAddr : UInt32

/-- `res` of `getfile`. -/
structure GetfileRes where
  serverName : Bytes
  addressType : Nat
  serverAddress : UInt32
  serverPath : Bytes
deriving DecidableEq

/-- `res` of `whoami`. -/
structure WhoamiRes where
  clientName : Bytes
  domainName : Bytes
  addressType : Nat
  routerAddress : UInt32
deriving DecidableEq

inductive Answer where
  | silent
  | whoami (res : WhoamiRes)
  | getfile (res : GetfileRes)
  /-- A null pointer has been followed. -/
  | crashed
  /-- Something has been written behind `hostname`. -/
  | overflowed
deriving DecidableEq

structure Statics where
  hostname : Bytes
  path : Bytes
  /-- `server_name` and `server_path` point to `hostname` and `path`; otherwise they are null. -/
  pointed : Bool
  addressType : Nat
  serverAddress : UInt32
  routerType : Nat
  routerAddress : UInt32
deriving DecidableEq

def Statics.start : Statics := ⟨[], [], false, 0, 0, 0, 0⟩

/-- `snprintf(buf, size, "%s", s)`. -/
def snprintf (size : Nat) (s : Bytes) : Bytes := s.take (size - 1)

def itemValue (capname : Bytes) (items : List Bytes) : Option Bytes :=
  (items.find? (fun word => (capname ++ [61]).isPrefixOf word)).map (·.drop (capname.length + 1))

def Database.entryFor (db : Database) (askname : Bytes) : Option (List Bytes) :=
  getBootparamEntry db.byName askname (db.file.length + 1) db.file

/-- `getthefile`: the buffer is empty if the host is in the database, but the file is not. -/
def getthefile (db : Database) (askname fileid : Bytes) : Option Bytes :=
  (db.entryFor askname).map (fun words => snprintf MAXLEN ((itemValue fileid words.tail).getD []))

def checkhost (db : Database) (askname : Bytes) : Option Bytes :=
  (db.entryFor askname).map (fun words => snprintf MAX_MACHINE_NAME (words.headD []))

def whoami (db : Database) (addr : UInt32) (s : Statics) : Answer × Statics :=
  match db.byAddr addr with
  | none => (.silent, s)
  | some name =>
    match checkhost db (name.take (MAX_MACHINE_NAME - 1)) with
    | none => (.silent, s)
    | some hostname =>
      let s := { s with hostname }
      let s := if s.routerType ≠ IP_ADDR_TYPE then
        { s with routerType := IP_ADDR_TYPE, routerAddress := db.routeAddr } else s
      (.whoami ⟨hostname, db.domainname, s.routerType, s.routerAddress⟩, s)

def dump : Bytes := ascii "dump"

def splitServer (value : Bytes) : Option (Bytes × Bytes) :=
  if 58 ∈ value then some (value.takeWhile (· ≠ 58), (value.dropWhile (· ≠ 58)).tail) else none

def getfile (db : Database) (client fileid : Bytes) (s : Statics) : Answer × Statics :=
  match db.byName client with
  | none => (.silent, s)
  | some he =>
    match getthefile db (he.name.take (MAX_MACHINE_NAME - 1)) fileid with
    | none => (.silent, s)
    | some buffer =>
      match splitServer buffer with
      | some (host, where_) =>
        -- the host and a NUL are written into `hostname`
        if MAX_MACHINE_NAME < host.length + 1 then (.overflowed, s)
        else
          let s := { s with hostname := host, path := where_.take (MAX_PATH_LEN - 1) }
          match db.byName host with
          | none => (.silent, s)
          | some he =>
            let s := { s with pointed := true, addressType := IP_ADDR_TYPE, serverAddress := he.addr }
            (.getfile ⟨s.hostname, s.addressType, s.serverAddress, s.path⟩, s)
      | none =>
        if fileid = dump then
          if s.pointed then
            let s := { s with hostname := [], path := [], serverAddress := 0 }
            (.getfile ⟨s.hostname, s.addressType, s.serverAddress, s.path⟩, s)
          else (.crashed, s)
        else (.silent, s)

/-! ## What the database says -/

/-- The answer is that of the first entry for the host; a file `dump` that is not there has an
empty answer. -/
def expectedGetfile (db : Database) (client fileid : Bytes) : Answer :=
  match db.byName client with
  | none => .silent
  | some he =>
    match entry db.byName he.name (lines db.file) with
    | none => .silent
    | some words =>
      match (itemValue fileid words.tail).bind splitServer with
      | some (server, path) =>
        match db.byName server with
        | none => .silent
        | some host => .getfile ⟨server, IP_ADDR_TYPE, host.addr, path⟩
      | none => if fileid = dump then .getfile ⟨[], IP_ADDR_TYPE, 0, []⟩ else .silent

def expectedWhoami (db : Database) (addr : UInt32) : Answer :=
  match (db.byAddr addr).bind (fun name => checkhost db (name.take (MAX_MACHINE_NAME - 1))) with
  | none => .silent
  | some hostname => .whoami ⟨hostname, db.domainname, IP_ADDR_TYPE, db.routeAddr⟩

inductive Request where
  | whoami (addr : UInt32)
  | getfile (client fileid : Bytes)

def expected (db : Database) : Request → Answer
  | .whoami addr => expectedWhoami db addr
  | .getfile client fileid => expectedGetfile db client fileid

/-! ## Careful requests -/

/-- The item is among the words that are kept, and its value fits: it is shorter than `buffer`,
and its server shorter than `hostname`. -/
def ItemFits (fileid : Bytes) (words : List Bytes) : Prop :=
  itemValue fileid (words.take 16).tail = itemValue fileid words.tail ∧
    ∀ value ∈ itemValue fileid words.tail, 58 ∈ value →
      value.length < MAXLEN ∧ (value.takeWhile (· ≠ 58)).length < MAX_MACHINE_NAME

def DumpFits (fileid : Bytes) (words : List Bytes) (s : Statics) : Prop :=
  fileid = dump → (itemValue fileid words.tail).bind splitServer = none → s.pointed = true

def CarefulGetfile (db : Database) (s : Statics) (client fileid : Bytes) : Prop :=
  ∀ he ∈ db.byName client,
    he.name.length < MAX_MACHINE_NAME ∧ Readable db.byName he.name (lines db.file) ∧
      ∀ words ∈ entry db.byName he.name (lines db.file),
        ItemFits fileid words ∧ DumpFits fileid words s

/-! ## The server -/

structure Server where
  statics : Statics
  dead : Bool
  /-- The last request, and the answer. -/
  last : Option (Request × Answer)

def Server.start : Server := ⟨.start, false, none⟩

def serve (db : Database) (s : Statics) : Request → Answer × Statics
  | .whoami addr => whoami db addr s
  | .getfile client fileid => getfile db client fileid s

def serverStep (db : Database) (p : Server) (r : Request) : Option Server :=
  if p.dead then none
  else
    let result := serve db p.statics r
    some ⟨result.2, result.1 = .crashed || result.1 = .overflowed, some (r, result.1)⟩

def Careful (db : Database) (p : Server) : Request → Prop
  | .whoami _ => True
  | .getfile client fileid => CarefulGetfile db p.statics client fileid

/-- The last answer is the one that is expected, which is never a crash. -/
def Server.Answered (db : Database) (p : Server) : Prop :=
  p.dead = false ∧ ∀ q ∈ p.last, q.2 = expected db q.1

/-! ## Careful requests are answered as expected -/

variable {db : Database} {s : Statics}

/-- What is known of the static data. -/
structure Inv (db : Database) (s : Statics) : Prop where
  addressType : s.pointed = true → s.addressType = IP_ADDR_TYPE
  router : s.routerType = IP_ADDR_TYPE → s.routerAddress = db.routeAddr

theorem inv_start (db : Database) : Inv db .start := by
  constructor
  · intro h
    cases h
  · intro h
    cases h

structure Right (db : Database) (answer : Answer) (result : Answer × Statics) : Prop where
  answer : result.1 = answer
  inv : Inv db result.2

theorem whoami_right (hs : Inv db s) (addr : UInt32) :
    Right db (expectedWhoami db addr) (whoami db addr s) := by
  unfold whoami expectedWhoami
  cases db.byAddr addr with
  | none => exact ⟨rfl, hs⟩
  | some name =>
    dsimp only
    rw [Option.bind_some]
    cases checkhost db (name.take (MAX_MACHINE_NAME - 1)) with
    | none => exact ⟨rfl, hs⟩
    | some hostname =>
      dsimp only
      by_cases hrouter : s.routerType = IP_ADDR_TYPE
      · rw [if_neg (not_not.mpr hrouter)]
        refine ⟨?_, hs.addressType, hs.router⟩
        dsimp only
        rw [hrouter, hs.router hrouter]
      · rw [if_pos hrouter]
        exact ⟨rfl, hs.addressType, fun _ => rfl⟩

theorem entryFor_eq {he : Host} (hname : he.name.length < MAX_MACHINE_NAME)
    (hreadable : Readable db.byName he.name (lines db.file)) :
    db.entryFor (he.name.take (MAX_MACHINE_NAME - 1)) =
      (entry db.byName he.name (lines db.file)).map (·.take 16) := by
  rw [List.take_of_length_le (Nat.le_sub_one_of_lt hname)]
  exact getBootparamEntry_eq hreadable (Nat.lt_succ_self _)

theorem splitServer_eq {value : Bytes} (h : 58 ∈ value) :
    splitServer value =
      some (value.takeWhile (· ≠ 58), (value.dropWhile (· ≠ 58)).tail) :=
  if_pos h

theorem item_read {fileid : Bytes} {words : List Bytes} (h : ItemFits fileid words) :
    splitServer (snprintf MAXLEN ((itemValue fileid (words.take 16).tail).getD [])) =
      (itemValue fileid words.tail).bind splitServer := by
  obtain ⟨hkept, hfits⟩ := h
  rw [hkept]
  cases hvalue : itemValue fileid words.tail with
  | none => rfl
  | some value =>
    rw [Option.getD_some, Option.bind_some]
    by_cases hcolon : 58 ∈ value
    · have hshort := (hfits value hvalue hcolon).1
      rw [snprintf, List.take_of_length_le (Nat.le_sub_one_of_lt hshort)]
    · have hcut : 58 ∉ snprintf MAXLEN value := fun h => hcolon ((List.take_prefix _ _).mem h)
      rw [splitServer, splitServer, if_neg hcolon, if_neg hcut]

theorem getfile_right (hs : Inv db s) {client fileid : Bytes}
    (h : CarefulGetfile db s client fileid) :
    Right db (expectedGetfile db client fileid) (getfile db client fileid s) := by
  unfold getfile expectedGetfile
  cases hclient : db.byName client with
  | none => exact ⟨rfl, hs⟩
  | some he =>
    obtain ⟨hname, hreadable, hentry⟩ := h he hclient
    dsimp only
    rw [getthefile, entryFor_eq hname hreadable]
    cases hfound : entry db.byName he.name (lines db.file) with
    | none => exact ⟨rfl, hs⟩
    | some words =>
      obtain ⟨hitem, hdump⟩ := hentry words hfound
      rw [Option.map_some, Option.map_some]
      dsimp only
      rw [item_read hitem]
      cases hvalue : (itemValue fileid words.tail).bind splitServer with
      | some p =>
        obtain ⟨value, hv, hsplit⟩ := Option.bind_eq_some_iff.mp hvalue
        have hcolon : 58 ∈ value := by
          by_contra hnone
          rw [splitServer, if_neg hnone] at hsplit
          cases hsplit
        obtain ⟨hlen, hserver⟩ := hitem.2 value hv hcolon
        rw [splitServer_eq hcolon] at hsplit
        obtain rfl := Option.some.inj hsplit
        dsimp only
        have hpath : ((value.dropWhile (· ≠ 58)).tail).take (MAX_PATH_LEN - 1) =
            (value.dropWhile (· ≠ 58)).tail := by
          have hsuffix := (List.tail_suffix _).trans (List.dropWhile_suffix (l := value) (· ≠ 58))
          have hle := hsuffix.length_le
          refine List.take_of_length_le ?_
          unfold MAX_PATH_LEN MAXLEN at *
          omega
        rw [if_neg (Nat.not_lt.mpr hserver), hpath]
        cases db.byName (value.takeWhile (· ≠ 58)) with
        | none => exact ⟨rfl, hs.addressType, hs.router⟩
        | some host => exact ⟨rfl, fun _ => rfl, hs.router⟩
      | none =>
        dsimp only
        by_cases hfile : fileid = dump
        · have hpointed := hdump hfile hvalue
          rw [if_pos hfile, if_pos hpointed, if_pos hfile]
          refine ⟨?_, hs.addressType, hs.router⟩
          dsimp only
          rw [hs.addressType hpointed]
        · rw [if_neg hfile, if_neg hfile]
          exact ⟨rfl, hs⟩

theorem expected_answer (db : Database) (r : Request) :
    expected db r ≠ .crashed ∧ expected db r ≠ .overflowed := by
  cases r with
  | whoami addr =>
    unfold expected expectedWhoami
    dsimp only
    split
    · exact ⟨nofun, nofun⟩
    · exact ⟨nofun, nofun⟩
  | getfile client fileid =>
    unfold expected expectedGetfile
    dsimp only
    split
    · exact ⟨nofun, nofun⟩
    · split
      · exact ⟨nofun, nofun⟩
      · split
        · split
          · exact ⟨nofun, nofun⟩
          · exact ⟨nofun, nofun⟩
        · split
          · exact ⟨nofun, nofun⟩
          · exact ⟨nofun, nofun⟩

theorem step_right {p t : Server} {r : Request} (hp : Inv db p.statics) (hr : Careful db p r)
    (hstep : serverStep db p r = some t) : Inv db t.statics ∧ t.Answered db := by
  have hright : Right db (expected db r) (serve db p.statics r) := by
    cases r with
    | whoami addr => exact whoami_right hp addr
    | getfile client fileid => exact getfile_right hp hr
  obtain ⟨hcrash, hover⟩ := expected_answer db r
  unfold serverStep at hstep
  split at hstep
  · cases hstep
  · obtain rfl := Option.some.inj hstep
    refine ⟨hright.inv, ?_, ?_⟩
    · dsimp only
      rw [hright.answer, decide_eq_false hcrash, decide_eq_false hover]
      rfl
    · rintro q hq
      obtain rfl := Option.some.inj hq
      exact hright.answer

/-- **Careful requests are answered from the database alone.** -/
theorem answered_of_careful {db : Database} {rs : List Request}
    (h : Steps (Careful db) (serverStep db) .start rs) {t : Server}
    (ht : Reached (serverStep db) .start rs t) : t.Answered db :=
  (steps_reached (I := fun p => Inv db p.statics ∧ p.Answered db)
    (fun _ _ _ hp hr hstep => step_right hp.1 hr hstep)
    ⟨inv_start db, rfl, fun _ hq => nomatch hq⟩ h ht).2

/-- A client `c` with a root on the server `s`. -/
def oneClient : Database where
  file := ascii "# clients\nc root=s:/r \\\n\tswap=s:/w\n"
  byName := fun name => if name = ascii "c" then some ⟨name, 1⟩
    else if name = ascii "s" then some ⟨name, 2⟩ else none
  byAddr := fun _ => none
  domainname := []
  routeAddr := 0

theorem answered_swap : ∃ t,
    Reached (serverStep oneClient) .start [.getfile (ascii "c") (ascii "swap")] t ∧
      t.last.map Prod.snd = some (.getfile ⟨ascii "s", 1, 2, ascii "/w"⟩) ∧
      t.Answered oneClient := by
  have hentry : entry oneClient.byName (ascii "c") (lines oneClient.file) =
      some [ascii "c", ascii "root=s:/r", ascii "swap=s:/w"] := by
    decide +kernel
  have hcareful : CarefulGetfile oneClient .start (ascii "c") (ascii "swap") := by
    intro he hhe
    obtain rfl := Option.some.inj hhe
    refine ⟨by decide, by decide +kernel, fun words hwords => ?_⟩
    obtain rfl := Option.some.inj (hentry.symm.trans hwords)
    refine ⟨⟨by decide +kernel, fun value hvalue _ => ?_⟩, fun hfile => absurd hfile (by decide)⟩
    have hswap : itemValue (ascii "swap") [ascii "root=s:/r", ascii "swap=s:/w"] =
        some (ascii "s:/w") := by
      decide +kernel
    obtain rfl := Option.some.inj (hswap.symm.trans hvalue)
    exact ⟨by decide, by decide⟩
  have hrun : (run (serverStep oneClient) .start [.getfile (ascii "c") (ascii "swap")]).map
      (fun t => t.last.map Prod.snd) = some (some (.getfile ⟨ascii "s", 1, 2, ascii "/w"⟩)) := by
    decide +kernel
  obtain ⟨t, ht, hanswer⟩ := Option.map_eq_some_iff.mp hrun
  exact ⟨t, ⟨_, List.prefix_rfl, ht⟩, hanswer,
    @answered_of_careful oneClient [.getfile (ascii "c") (ascii "swap")]
      ⟨hcareful, fun _ _ => trivial⟩ t ⟨_, List.prefix_rfl, ht⟩⟩

/-- The first request is for `dump`. -/
theorem not_answered_dump : ¬ ∀ (db : Database) (rs : List Request) (t : Server),
    Reached (serverStep db) .start rs t → t.Answered db := by
  intro h
  have hdead : (run (serverStep oneClient) .start [.getfile (ascii "c") dump]).map Server.dead =
      some true := by
    decide +kernel
  obtain ⟨t, ht, hcrash⟩ := Option.map_eq_some_iff.mp hdead
  obtain ⟨halive, -⟩ := h oneClient [.getfile (ascii "c") dump] t ⟨_, List.prefix_rfl, ht⟩
  exact absurd (hcrash.symm.trans halive) (by decide)

end Netkit.Bootparamd

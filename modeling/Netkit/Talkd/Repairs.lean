import Mathlib.Data.List.TakeWhile
import Netkit.Talkd.Responses
import Netkit.Talkd.Users

/-!
# Old talk clients

`repairs.c` of talkd. A packet with the length of the old format is made a `CTL_MSG`, in place; a
code for this quirk is remembered, and the response is given the old format by it. The old format
has additional types, for which the `CTL_MSG` has others, and the type of the response is that of
the `CTL_MSG`.

* `repairedService_iff`: old clients are served as new ones, but for the type in the reply.
-/

namespace Netkit.Talkd

/-! ## Packets -/

def TTY_SIZE : ℕ := 16

def OLD_NAME_SIZE : ℕ := 9

def OLD_DELETE_INVITE : UInt8 := 4
def OLD_AUTO_LOOK_UP : UInt8 := 5
def OLD_AUTO_DELETE : UInt8 := 6

/-- `struct sockaddr_in`, as `recvfrom` gives it. -/
structure SockaddrIn where
  family : UInt16
  port : UInt16
  addr : UInt32

/-- `struct otalk_packet`: what is in a datagram of `OTALK_PACKET_SIZE` bytes. -/
structure OtalkPacket where
  type : UInt8
  lName : List UInt8
  rName : List UInt8
  idNum : UInt32
  pid : UInt32
  rTty : List UInt8
  addr : TalkAddr
  ctlAddr : TalkAddr
  lName_size : lName.length = OLD_NAME_SIZE
  rName_size : rName.length = OLD_NAME_SIZE
  rTty_size : rTty.length = TTY_SIZE

/-- `CTL_MSG`, with the fields that `process_request` hands on. -/
structure Request extends CtlMsg where
  rTty : List UInt8
  ctlAddr : TalkAddr
  deriving DecidableEq

/-- What has come, by its length. -/
inductive Datagram where
  | ctlMsg (m : Request)
  | otalk (p : OtalkPacket)
  | other (len : ℕ)

inductive Quirk where
  | none
  | otalk
  deriving DecidableEq

def byteSwap16 (k : UInt16) : UInt16 := (k <<< 8) ||| (k >>> 8)

/-- `probe_string`: there is a NUL, and no control character before it. -/
def probeString : List UInt8 → Bool
  | [] => false
  | c :: buf => c == 0 || (!(c &&& 127 < 32 || c &&& 127 == 127) && probeString buf)

/-- `probe_addr`, in either byte order. -/
def probeAddr (ta : TalkAddr) (sn : SockaddrIn) : Bool :=
  (ta.family == sn.family || ta.family == byteSwap16 sn.family) &&
    (ta.port == sn.port || ta.port == byteSwap16 sn.port) &&
    (ta.addr == sn.addr || ta.addr == byteSwap32 sn.addr)

def newType (type : UInt8) : Option UInt8 :=
  if type = LEAVE_INVITE ∨ type = LOOK_UP ∨ type = DELETE ∨ type = ANNOUNCE then some type
  else if type = OLD_DELETE_INVITE then some DELETE
  else if type = OLD_AUTO_LOOK_UP then some LOOK_UP
  else if type = OLD_AUTO_DELETE then some DELETE
  else none

/-- What is on the stack behind the names. -/
structure Stack where
  lName : List UInt8
  rName : List UInt8

def probeOtalkPacket (stack : Stack) (sn : SockaddrIn) (p : OtalkPacket) : Option Request :=
  if probeString p.lName && probeString p.rName && probeString p.rTty && probeAddr p.ctlAddr sn then
    (newType p.type).map fun type =>
      { vers := TALK_VERSION
        type := type
        idNum := p.idNum
        addr := p.addr
        pid := p.pid
        lName := (p.lName ++ stack.lName).set (OLD_NAME_SIZE - 1) 0
        rName := (p.rName ++ stack.rName).set (OLD_NAME_SIZE - 1) 0
        rTty := p.rTty.set (TTY_SIZE - 1) 0
        ctlAddr := p.ctlAddr }
  else none

def rationalizePacket (stack : Stack) (sn : SockaddrIn) : Datagram → Option (Quirk × Request)
  | .ctlMsg m => some (.none, m)
  | .otalk p => (probeOtalkPacket stack sn p).map fun m => (.otalk, m)
  | .other _ => none

/-! ## Replies -/

structure OtalkReply where
  type : UInt8
  answer : UInt8
  idNum : UInt32
  addr : TalkAddr
  deriving DecidableEq

inductive Sent where
  | response (r : Response)
  | otalkReply (r : OtalkReply)
  deriving DecidableEq

def doOtalkReply (r : Response) : OtalkReply := ⟨r.type, r.answer, r.idNum, r.addr⟩

/-- `send_packet`, with `irrationalize_reply` if there is a quirk. -/
def irrationalizeReply (quirk : Quirk) (r : Response) : Sent :=
  match quirk with
  | .none => .response r
  | .otalk => .otalkReply (doOtalkReply r)

/-- `do_one_packet`, from when the packet has been recognised; it writes the sender's address to
`ctl_addr`, where `announce` looks for it. `before` is what the response holds before it is filled
in. -/
def serve (sender : Sender) (env : Env) (before : Response) (t : Table) (r : Quirk × Request) :
    Table × Sent :=
  let result := doOnePacket sender env r.2.toCtlMsg t
  (result.1, irrationalizeReply r.1 (result.2.fill before))

/-! ## The same service -/

/-- A message asks for what the old packet asks for, with the same particulars. -/
structure SameRequest (p : OtalkPacket) (m : Request) : Prop where
  vers : m.vers = TALK_VERSION
  type : newType p.type = some m.type
  lName : cstring m.lName = cstring p.lName
  rName : cstring m.rName = cstring p.rName
  rTty : cstring m.rTty = cstring p.rTty
  idNum : m.idNum = p.idNum
  pid : m.pid = p.pid
  addr : m.addr = p.addr
  ctlAddr : m.ctlAddr = p.ctlAddr

def CtlMsg.strings (m : CtlMsg) : CtlMsg :=
  { m with lName := cstring m.lName, rName := cstring m.rName }

def TableEntry.strings (e : TableEntry) : TableEntry := { e with request := e.request.strings }

def Table.strings (t : Table) : Table := { t with table := t.table.map TableEntry.strings }

/-- The message is the one that was asked for; and whoever asks for the same in the new format, with
a table that holds the same, gets a response from which the reply differs in its format only. -/
structure SameService (p : OtalkPacket) (m : Request) : Prop where
  request : SameRequest p m
  reply : ∀ (sender : Sender) (env : Env) (before : Response) (t t' : Table) (m' : Request),
    sender.known = true → t.strings = t'.strings → SameRequest p m' →
      ∃ r : Response, (serve sender env before t' (.none, m')).2 = .response r ∧
        (serve sender env before t (.otalk, m)).2 =
          .otalkReply ⟨p.type, r.answer, r.idNum, r.addr⟩ ∧
        (serve sender env before t (.otalk, m)).1.strings =
          (serve sender env before t' (.none, m')).1.strings

/-! ## Strings -/

variable {env : Env} {mp mp' : CtlMsg} {rp : CtlResponse} {t t' : Table} {e : TableEntry}
  {now later : Int} {p : OtalkPacket} {m m' : Request} {sender : Sender}

theorem cstring_cstring (s : List UInt8) : cstring (cstring s) = cstring s :=
  List.takeWhile_idem

theorem cstring_set (s : List UInt8) (n : ℕ) : cstring (s.set n 0) = (cstring s).take n := by
  induction s generalizing n with
  | nil => rw [List.set_nil, cstring, List.takeWhile_nil, List.take_nil]
  | cons c s ih =>
    cases n with
    | zero => rfl
    | succ n =>
      rw [List.set_cons_succ, cstring, cstring, List.takeWhile_cons, List.takeWhile_cons]
      split
      · rw [List.take_succ_cons]
        exact congrArg (c :: ·) (ih n)
      · rfl

theorem cstring_probed {s : List UInt8} (h : probeString s = true) (rest : List UInt8) :
    cstring (s ++ rest) = cstring s ∧ (cstring s).length < s.length := by
  induction s with
  | nil => cases h
  | cons c s ih =>
    rw [probeString, Bool.or_eq_true, Bool.and_eq_true, beq_iff_eq] at h
    rw [List.cons_append, cstring, cstring, List.takeWhile_cons, List.takeWhile_cons]
    by_cases hc : c = 0
    · subst hc
      exact ⟨rfl, Nat.zero_lt_succ _⟩
    · obtain ⟨hsame, hlt⟩ := ih ((h.resolve_left hc).2)
      rw [if_pos (bne_iff_ne.mpr hc), if_pos (bne_iff_ne.mpr hc)]
      exact ⟨congrArg (c :: ·) hsame, Nat.succ_lt_succ hlt⟩

theorem cstring_copied {s : List UInt8} {n : ℕ} (h : probeString s = true)
    (hsize : s.length = n + 1) (rest : List UInt8) :
    cstring ((s ++ rest).set n 0) = cstring s := by
  obtain ⟨hsame, hlt⟩ := cstring_probed h rest
  rw [cstring_set, hsame, List.take_of_length_le (by omega)]

theorem rationalizePacket_same {stack : Stack} {sn : SockaddrIn}
    (h : rationalizePacket stack sn (.otalk p) = some (.otalk, m)) : SameRequest p m := by
  rw [rationalizePacket, Option.map_eq_some_iff] at h
  obtain ⟨m₁, hm, heq⟩ := h
  obtain ⟨-, rfl⟩ := Prod.mk.inj heq
  unfold probeOtalkPacket at hm
  split at hm
  case isFalse => cases hm
  case isTrue hprobe =>
  simp only [Bool.and_eq_true] at hprobe
  obtain ⟨⟨⟨hl, hr⟩, htty⟩, -⟩ := hprobe
  obtain ⟨type, htype, rfl⟩ := Option.map_eq_some_iff.mp hm
  have hcopied := cstring_copied htty p.rTty_size []
  rw [List.append_nil] at hcopied
  exact ⟨rfl, htype, cstring_copied hl p.lName_size _, cstring_copied hr p.rName_size _, hcopied,
    rfl, rfl, rfl, rfl⟩

/-! ## Names in the table -/

theorem sameString_cstring (a b : List UInt8) :
    sameString (cstring a) (cstring b) = sameString a b := by
  show (cstring (cstring a) == cstring (cstring b)) = (cstring a == cstring b)
  rw [cstring_cstring, cstring_cstring]

theorem isRequest_strings (mp : CtlMsg) (e : TableEntry) :
    isRequest mp.strings e.strings = isRequest mp e := by
  show (sameString (cstring mp.rName) (cstring e.request.rName) &&
    sameString (cstring mp.lName) (cstring e.request.lName) && _ && _) = _
  rw [sameString_cstring, sameString_cstring]
  rfl

theorem isMatch_strings (mp : CtlMsg) (e : TableEntry) :
    isMatch mp.strings e.strings = isMatch mp e := by
  show (sameString (cstring mp.lName) (cstring e.request.rName) &&
    sameString (cstring mp.rName) (cstring e.request.lName) && _) = _
  rw [sameString_cstring, sameString_cstring]
  rfl

theorem expire_strings (now : Int) (t : Table) :
    expire now t.strings = (expire now t).strings := by
  unfold expire Table.strings
  rw [List.filter_map]
  rfl

theorem modify_strings (i : ℕ) (f : TableEntry → TableEntry)
    (hf : ∀ e : TableEntry, (f e).strings = f e.strings) (es : List TableEntry) :
    (es.map TableEntry.strings).modify i f = (es.modify i f).map TableEntry.strings := by
  induction es generalizing i with
  | nil => cases i <;> rfl
  | cons e es ih =>
    cases i with
    | zero =>
      show f e.strings :: _ = (f e).strings :: _
      rw [hf]
    | succ i =>
      exact congrArg (e.strings :: ·) (ih i)

def resultStrings {α : Type} (r : Table × α) : Table × α := (r.1.strings, r.2)

theorem findRequest_strings (now later : Int) (mp : CtlMsg) (t : Table) :
    findRequest now later mp.strings t.strings = resultStrings (findRequest now later mp t) := by
  have hpred : isRequest mp.strings ∘ TableEntry.strings = isRequest mp :=
    funext fun e => isRequest_strings mp e
  have hfind : (expire now t.strings).table.findIdx? (isRequest mp.strings) =
      (expire now t).table.findIdx? (isRequest mp) := by
    rw [expire_strings, Table.strings, List.findIdx?_map, hpred]
  unfold findRequest
  dsimp only
  rw [hfind, expire_strings]
  cases (expire now t).table.findIdx? (isRequest mp) with
  | none => rfl
  | some i =>
    dsimp only [resultStrings, Table.strings]
    rw [modify_strings i (fun e => { e with time := later }) (fun _ => rfl)]

theorem getElem?_strings (t : Table) (i : ℕ) :
    t.strings.table[i]? = t.table[i]?.map TableEntry.strings := List.getElem?_map

theorem renumber_strings (i : ℕ) (t : Table) :
    t.strings.renumber i = resultStrings (t.renumber i) := by
  unfold Table.renumber resultStrings Table.takeId Table.strings
  dsimp only
  rw [modify_strings i (fun e => { e with
    request := { e.request with idNum := UInt32.ofNat (newId t.currentId) }
    serial := t.issued + 1 }) (fun _ => rfl)]

theorem doAnnounce_strings (env : Env) (mp : CtlMsg) (rp : CtlResponse) (t : Table) :
    doAnnounce env mp.strings rp t.strings = resultStrings (doAnnounce env mp rp t) := by
  unfold doAnnounce
  split
  · rfl
  · rw [findRequest_strings]
    rcases findRequest env.now env.later mp t with ⟨t₁, _ | i⟩
    · rfl
    · dsimp only [resultStrings]
      rw [getElem?_strings]
      cases t₁.table[i]? with
      | none => rfl
      | some ptr =>
        dsimp only [Option.map_some]
        have hre : reannounces mp.strings ptr.strings.request.idNum =
            reannounces mp ptr.request.idNum := rfl
        rw [hre, renumber_strings]
        split
        · rfl
        · rfl

theorem leaveInvite_strings (env : Env) (mp : CtlMsg) (rp : CtlResponse) (t : Table) :
    leaveInvite env mp.strings rp t.strings = resultStrings (leaveInvite env mp rp t) := by
  unfold leaveInvite
  rw [findRequest_strings]
  rcases findRequest env.now env.later mp t with ⟨t₁, _ | i⟩
  · rfl
  · dsimp only [resultStrings]
    rw [getElem?_strings]
    cases t₁.table[i]? with
    | none => rfl
    | some ptr => rfl

theorem lookUp_strings (env : Env) (mp : CtlMsg) (rp : CtlResponse) (t : Table) :
    lookUp env mp.strings rp t.strings = resultStrings (lookUp env mp rp t) := by
  have hpred : isMatch mp.strings ∘ TableEntry.strings = isMatch mp :=
    funext fun e => isMatch_strings mp e
  unfold lookUp findMatch
  dsimp only
  rw [expire_strings, show (expire env.now t).strings.table =
    (expire env.now t).table.map TableEntry.strings from rfl, List.find?_map, hpred]
  cases (expire env.now t).table.find? (isMatch mp) with
  | none => rfl
  | some e => rfl

theorem deleteInvite_strings (idNum : UInt32) (t : Table) :
    deleteInvite idNum t.strings = resultStrings (deleteInvite idNum t) := by
  unfold deleteInvite Table.strings
  dsimp only
  rw [List.any_map, List.eraseP_map]
  have hpred : (fun e : TableEntry => e.request.idNum == idNum) ∘ TableEntry.strings =
      fun e => e.request.idNum == idNum := rfl
  rw [hpred]
  split
  · rfl
  · rfl

theorem terminated_strings_congr (h : mp.strings = mp'.strings) :
    ({ mp with lName := terminated mp.lName, rName := terminated mp.rName } : CtlMsg).strings =
      ({ mp' with lName := terminated mp'.lName, rName := terminated mp'.rName } :
        CtlMsg).strings := by
  obtain ⟨vers, type, idNum, addr, pid, lName, rName⟩ := mp
  obtain ⟨vers', type', idNum', addr', pid', lName', rName'⟩ := mp'
  simp only [CtlMsg.strings, CtlMsg.mk.injEq, terminated, cstring_set] at h ⊢
  obtain ⟨rfl, rfl, rfl, rfl, rfl, hl, hr⟩ := h
  rw [hl, hr]
  exact ⟨rfl, rfl, rfl, rfl, rfl, rfl, rfl⟩

theorem processRequest_strings (env : Env) (hm : mp.strings = mp'.strings)
    (ht : t.strings = t'.strings) :
    resultStrings (processRequest env mp t) = resultStrings (processRequest env mp' t') := by
  have hterm := terminated_strings_congr hm
  obtain ⟨vers, type, idNum, addr, pid, lName, rName⟩ := mp
  obtain ⟨vers', type', idNum', addr', pid', lName', rName'⟩ := mp'
  simp only [CtlMsg.strings, CtlMsg.mk.injEq] at hm
  obtain ⟨rfl, rfl, rfl, rfl, rfl, -, -⟩ := hm
  unfold processRequest
  dsimp only at hterm ⊢
  split
  · exact congrArg (fun t : Table => (t, _)) ht
  · split
    · rw [← doAnnounce_strings, ← doAnnounce_strings, hterm, ht]
    · split
      · rw [← leaveInvite_strings, ← leaveInvite_strings, hterm, ht]
      · split
        · rw [← lookUp_strings, ← lookUp_strings, hterm, ht]
        · split
          · have hdelete : resultStrings (deleteInvite idNum t) =
                resultStrings (deleteInvite idNum t') := by
              rw [← deleteInvite_strings, ← deleteInvite_strings, ht]
            obtain ⟨htable, hanswer⟩ := Prod.mk.inj hdelete
            exact Prod.ext htable (by dsimp only [resultStrings]; rw [hanswer])
          · exact congrArg (fun t : Table => (t, _)) ht

theorem doOnePacket_strings (sender : Sender) (env : Env) (hm : mp.strings = mp'.strings)
    (ht : t.strings = t'.strings) :
    resultStrings (doOnePacket sender env mp t) = resultStrings (doOnePacket sender env mp' t') := by
  have hmp (addr : TalkAddr) : ({ mp with addr := addr } : CtlMsg).strings =
      ({ mp' with addr := addr } : CtlMsg).strings :=
    congrArg (fun m : CtlMsg => { m with addr := addr }) hm
  obtain ⟨vers, type, idNum, addr, pid, lName, rName⟩ := mp
  obtain ⟨vers', type', idNum', addr', pid', lName', rName'⟩ := mp'
  simp only [CtlMsg.strings, CtlMsg.mk.injEq] at hm
  obtain ⟨rfl, rfl, rfl, rfl, rfl, -, -⟩ := hm
  have hreject (response : CtlResponse) : resultStrings (t, response) =
      resultStrings (t', response) := congrArg (fun t : Table => (t, response)) ht
  unfold doOnePacket
  split
  · exact hreject _
  · split
    · exact hreject _
    · split
      · split
        · exact hreject _
        · split
          · exact hreject _
          · exact processRequest_strings env (hmp _) ht
      · exact processRequest_strings env (hmp _) ht

/-! ## The type of the reply -/

theorem doAnnounce_type : (doAnnounce env mp rp t).2.type = rp.type := by
  unfold doAnnounce
  split
  · rfl
  · rcases findRequest env.now env.later mp t with ⟨t₁, _ | i⟩
    · rfl
    · dsimp only
      cases t₁.table[i]? with
      | none => rfl
      | some ptr =>
        dsimp only
        split
        · rfl
        · rfl

theorem leaveInvite_type : (leaveInvite env mp rp t).2.type = rp.type := by
  unfold leaveInvite
  rcases findRequest env.now env.later mp t with ⟨t₁, _ | i⟩
  · rfl
  · dsimp only
    cases t₁.table[i]? with
    | none => rfl
    | some ptr => rfl

theorem lookUp_type : (lookUp env mp rp t).2.type = rp.type := by
  unfold lookUp
  rcases findMatch env.now mp t with ⟨t₁, _ | ptr⟩
  · rfl
  · rfl

theorem processRequest_type : (processRequest env mp t).2.type = mp.type := by
  unfold processRequest
  dsimp only
  split
  · rfl
  · split
    · exact doAnnounce_type
    · split
      · exact leaveInvite_type
      · split
        · exact lookUp_type
        · split
          · rfl
          · rfl

theorem doOnePacket_type : (doOnePacket sender env mp t).2.type = mp.type := by
  unfold doOnePacket
  split
  · rfl
  · split
    · rfl
    · split
      · split
        · rfl
        · split
          · rfl
          · exact processRequest_type
      · exact processRequest_type

theorem newType_eq_self_iff {type new : UInt8} (h : newType type = some new) :
    new = type ↔ type ≤ ANNOUNCE := by
  unfold newType at h
  split at h
  · next hold =>
    obtain rfl := Option.some.inj h
    refine ⟨fun _ => ?_, fun _ => rfl⟩
    rcases hold with rfl | rfl | rfl | rfl <;> decide
  · split at h
    · next hold =>
      obtain rfl := Option.some.inj h
      rw [hold]
      decide
    · split at h
      · next hold =>
        obtain rfl := Option.some.inj h
        rw [hold]
        decide
      · split at h
        · next hold =>
          obtain rfl := Option.some.inj h
          rw [hold]
          decide
        · cases h

theorem SameRequest.strings (h : SameRequest p m) (h' : SameRequest p m') :
    m.toCtlMsg.strings = m'.toCtlMsg.strings := by
  obtain ⟨⟨vers, type, idNum, addr, pid, lName, rName⟩, rTty, ctlAddr⟩ := m
  obtain ⟨⟨vers', type', idNum', addr', pid', lName', rName'⟩, rTty', ctlAddr'⟩ := m'
  simp only [CtlMsg.strings, CtlMsg.mk.injEq]
  exact ⟨h.vers.trans h'.vers.symm, Option.some.inj (h.type.symm.trans h'.type),
    h.idNum.trans h'.idNum.symm, h.addr.trans h'.addr.symm, h.pid.trans h'.pid.symm,
    h.lName.trans h'.lName.symm, h.rName.trans h'.rName.symm⟩

/-- An old client whose packet is recognised gets the service of a new one exactly if its request
is of one of the types that the new format has. -/
theorem repairedService_iff (stack : Stack) (sn : SockaddrIn) (p : OtalkPacket) (m : Request)
    (h : rationalizePacket stack sn (.otalk p) = some (.otalk, m)) :
    SameService p m ↔ p.type ≤ ANNOUNCE := by
  have hrequest := rationalizePacket_same h
  rw [← newType_eq_self_iff hrequest.type]
  constructor
  · intro hsame
    obtain ⟨r, -, hreply, -⟩ := hsame.reply ⟨true, true, true⟩ ⟨0, 0, SUCCESS, SUCCESS⟩
      ⟨0, 0, 0, 0, {}⟩ {} {} m rfl rfl hrequest
    have htype := congrArg OtalkReply.type (Sent.otalkReply.inj hreply)
    exact doOnePacket_type.symm.trans htype
  · intro htype
    refine ⟨hrequest, fun sender env before t t' m' _ ht hm' => ⟨_, rfl, ?_, ?_⟩⟩
    · have hresult := doOnePacket_strings sender env (hrequest.strings hm') ht
      have hresponse := congrArg Prod.snd hresult
      dsimp only [resultStrings] at hresponse
      have hreply : (doOnePacket sender env m.toCtlMsg t).2.type = p.type :=
        doOnePacket_type.trans htype
      show Sent.otalkReply ⟨(doOnePacket sender env m.toCtlMsg t).2.type, _, _, _⟩ = _
      rw [hreply, hresponse]
    · exact congrArg Prod.fst (doOnePacket_strings sender env (hrequest.strings hm') ht)

/-- A packet of the type from `a` to `b`, and where it comes from. -/
def otalkPacket (type : UInt8) : OtalkPacket where
  type := type
  lName := [97, 0, 0, 0, 0, 0, 0, 0, 0]
  rName := [98, 0, 0, 0, 0, 0, 0, 0, 0]
  idNum := 7
  pid := 1
  rTty := List.replicate 16 0
  addr := {}
  ctlAddr := ⟨AF_INET, 518, 1⟩
  lName_size := rfl
  rName_size := rfl
  rTty_size := rfl

def otalkSender : SockaddrIn := ⟨AF_INET, 518, 1⟩

def otalkRequest (type : UInt8) : Request where
  vers := TALK_VERSION
  type := type
  idNum := 7
  addr := {}
  pid := 1
  lName := [97, 0, 0, 0, 0, 0, 0, 0, 0]
  rName := [98, 0, 0, 0, 0, 0, 0, 0, 0]
  rTty := List.replicate 16 0
  ctlAddr := ⟨AF_INET, 518, 1⟩

/-- An `OLD_AUTO_DELETE` is answered as a `DELETE`. -/
theorem not_sameService :
    ¬ ∀ (stack : Stack) (sn : SockaddrIn) (p : OtalkPacket) (m : Request),
      rationalizePacket stack sn (.otalk p) = some (.otalk, m) → SameService p m := by
  intro h
  have hsame := h ⟨[], []⟩ otalkSender (otalkPacket OLD_AUTO_DELETE) (otalkRequest DELETE)
    (by decide +kernel)
  obtain ⟨r, -, hreply, -⟩ := hsame.reply ⟨true, true, true⟩ ⟨0, 0, SUCCESS, SUCCESS⟩
    ⟨0, 0, 0, 0, {}⟩ {} {} (otalkRequest DELETE) rfl rfl hsame.request
  have htype := congrArg OtalkReply.type (Sent.otalkReply.inj hreply)
  exact absurd htype (show DELETE ≠ OLD_AUTO_DELETE by decide)

theorem sameService_lookUp : SameService (otalkPacket LOOK_UP) (otalkRequest LOOK_UP) :=
  (repairedService_iff ⟨[], []⟩ otalkSender (otalkPacket LOOK_UP) (otalkRequest LOOK_UP)
    (by decide +kernel)).mpr (by decide)

end Netkit.Talkd

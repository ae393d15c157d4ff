import Netkit.Foundations.Datagrams
import Netkit.Foundations.Lines
import Netkit.Foundations.Runs
import Netkit.Talkd.Process

/-!
# Control transactions of talk

`do_transact` of talk sends a message to a talkd until it has an answer of the right type. Messages
and answers may be lost, and a message that has been sent twice may be answered twice.

* `transactions_answered`: this holds in all runs in which no signal interrupts `select`.
-/

namespace Netkit.Talk

open Netkit.Foundations Netkit.Talkd

/-! ## The state -/

/-- What `do_transact` is about to call. -/
inductive Pc where
  | idle
  | send
  | select
  | recv
  | poll
  deriving DecidableEq

/-- A message with the transaction for which it is sent. No code reads the number. -/
structure Message where
  mesg : CtlMsg
  transaction : ℕ
  deriving DecidableEq

/-- A response that has been returned, for which message, and the message that it answers; `fresh`
says that nothing of the type was outstanding when the transaction began. -/
structure Returned where
  message : Message
  rp : CtlResponse
  origin : Option Message
  fresh : Bool

/-- The variables of `do_transact`, what is on its way, and the table of talkd. The rest is for
counting: the transactions, `send_packet`s, timeouts of `select` and answers of another type in
this one, and what has been sent and returned so far. -/
structure Session where
  pc : Pc
  mesg : CtlMsg
  rp : CtlResponse
  nready : Int
  net : Datagrams Message CtlResponse
  table : Table
  origin : Option Message
  fresh : Bool
  transaction : ℕ
  copies : ℕ
  timeouts : ℕ
  rejected : ℕ
  sent : List Message
  returned : List Returned

def cleanUpPacket (localAddr : UInt32) (type : UInt8) (msg : CtlMsg) : CtlMsg :=
  { msg with
    vers := TALK_VERSION, type := type,
    addr := { msg.addr with family := AF_INET, addr := localAddr } }

def Session.message (s : Session) : Message := ⟨s.mesg, s.transaction⟩

def Session.wrong (s : Session) : Bool := s.rp.vers ≠ TALK_VERSION || s.rp.type ≠ s.mesg.type

/-! ## The steps -/

inductive Event where
  /-- `ctl_transact`; `rp` is what is in the variable for the response. -/
  | ctlTransact (msg : CtlMsg) (type : UInt8) (rp : CtlResponse)
  | sendPacket
  | sendInterrupted
  | selectReady
  | selectTimeout
  | selectInterrupted
  | recv
  | recvInterrupted
  | pollReady
  | pollEmpty
  | pollInterrupted
  /-- The network, or talkd that handles a message. -/
  | transfer (move : Transfer (Sender × Talkd.Env))
  /-- Somebody else's message to talkd. -/
  | other (sender : Sender) (env : Talkd.Env) (mp : CtlMsg)

def serve (e : Sender × Talkd.Env) (m : Message) (t : Table) : Table × CtlResponse :=
  doOnePacket e.1 e.2 m.mesg t

/-- Behind `select`: the inner loop ends if it has not timed out, `continue` goes to its test. -/
def Session.selected (s : Session) (nready : Int) : Session :=
  if nready = 0 then { s with nready := nready, pc := .send, timeouts := s.timeouts + 1 }
  else { s with nready := nready, pc := .recv }

/-- Behind the poll, or after `continue`: the tests of the two loops. -/
def Session.polled (s : Session) (nready : Int) : Session :=
  if nready > 0 ∧ s.wrong then { s with nready := nready, pc := .recv }
  else if s.wrong then { s with nready := nready, pc := .send, rejected := s.rejected + 1 }
  else
    { s with
      nready := nready, pc := .idle,
      returned := ⟨s.message, s.rp, s.origin, s.fresh⟩ :: s.returned }

/-- Calls that wait do not return before there is something in the queue, unless they time out or
are interrupted; they are interrupted only while there is nothing. -/
def transactStep (localAddr : UInt32) (s : Session) : Event → Option Session
  | .ctlTransact msg type rp =>
    if s.pc = .idle then
      some { s with
        pc := .send, mesg := cleanUpPacket localAddr type msg, rp := rp, nready := 0,
        origin := none, transaction := s.transaction + 1, copies := 0, timeouts := 0, rejected := 0,
        fresh := s.net.outstanding.all (fun m => m.mesg.type != type) }
    else none
  | .sendPacket =>
    if s.pc = .send then
      some { s with
        pc := .select, net := s.net.send s.message, copies := s.copies + 1,
        sent := s.message :: s.sent }
    else none
  | .sendInterrupted =>
    if s.pc = .send then some { s with pc := .select, copies := s.copies + 1 } else none
  | .selectReady =>
    if s.pc = .select ∧ s.net.queue ≠ [] then some (s.selected 1) else none
  | .selectTimeout =>
    if s.pc = .select ∧ s.net.queue = [] then some (s.selected 0) else none
  | .selectInterrupted =>
    if s.pc = .select ∧ s.net.queue = [] then some (s.selected (-1)) else none
  | .recv =>
    if s.pc = .recv then
      match s.net.queue with
      | (m, rp) :: queue =>
        some { s with pc := .poll, rp := rp, origin := some m, net := { s.net with queue := queue } }
      | [] => none
    else none
  | .recvInterrupted =>
    if s.pc = .recv ∧ s.net.queue = [] then some (s.polled s.nready) else none
  | .pollReady =>
    if s.pc = .poll ∧ s.net.queue ≠ [] then some (s.polled 1) else none
  | .pollEmpty =>
    if s.pc = .poll ∧ s.net.queue = [] then some (s.polled 0) else none
  | .pollInterrupted =>
    if s.pc = .poll ∧ s.net.queue = [] then some (s.polled (-1)) else none
  | .transfer move =>
    (s.net.transfer serve s.table move).map fun (table, net) => { s with table := table, net := net }
  | .other sender env mp => some { s with table := (doOnePacket sender env mp s.table).1 }

def Session.start (mesg : CtlMsg) (rp : CtlResponse) : Session :=
  ⟨.idle, mesg, rp, 0, .empty, {}, none, true, 0, 0, 0, 0, [], []⟩

/-! ## The properties -/

def Produced (m : Message) (rp : CtlResponse) : Prop :=
  ∃ e t, rp = (serve e m t).2

/-- A response that is returned has the version and the type, talkd has made it for a message of
that type that was sent from here, in this transaction or before, and for this one if nothing of
the type was outstanding when the transaction began. -/
structure Answered (sent : List Message) (r : Returned) : Prop where
  vers : r.rp.vers = TALK_VERSION
  type : r.rp.type = r.message.mesg.type
  origin : ∃ m ∈ r.origin, m ∈ sent ∧ m.mesg.type = r.message.mesg.type ∧
    m.transaction ≤ r.message.transaction ∧ Produced m r.rp ∧ (r.fresh = true → m = r.message)

/-- There is something to receive when `recv` is called, and the message has been sent once, and
once more for every timeout and for every time that there was nothing but answers of another
type. -/
structure Steady (s : Session) : Prop where
  recv : s.pc = .recv → s.net.queue ≠ []
  copies : s.pc ≠ .idle →
    s.copies + (if s.pc = .send then 1 else 0) = 1 + s.timeouts + s.rejected

/-! ## The invariant -/

variable {localAddr : UInt32} {s t : Session} {m : Message}

/-- What is on its way, or has been received, has been sent from here. If nothing of the type was
outstanding, then it is the message of this transaction. -/
structure Known (s : Session) (m : Message) : Prop where
  sent : m ∈ s.sent
  before : m.transaction ≤ s.transaction
  fresh : s.pc ≠ .idle → s.fresh = true → m.mesg.type = s.mesg.type → m = s.message

structure Invariant (s : Session) : Prop where
  net : s.net.All (Known s) Produced
  got : s.pc = .poll → ∃ m ∈ s.origin, Known s m ∧ Produced m s.rp
  ready : s.pc = .recv → 0 < s.nready
  steady : Steady s
  returned : ∀ r ∈ s.returned, Answered s.sent r

theorem processRequest_type (env : Talkd.Env) (mp : CtlMsg) (t : Table) :
    (processRequest env mp t).2.type = mp.type := by
  unfold processRequest doAnnounce leaveInvite lookUp
  dsimp only
  repeat' split
  all_goals rfl

theorem doOnePacket_type (sender : Sender) (env : Talkd.Env) (mp : CtlMsg) (t : Table) :
    (doOnePacket sender env mp t).2.type = mp.type := by
  rw [doOnePacket]
  split
  · rfl
  · split
    · rfl
    · split
      · split
        · rfl
        · split
          · rfl
          · exact processRequest_type _ _ _
      · exact processRequest_type _ _ _

theorem produced_type {rp : CtlResponse} (h : Produced m rp) : rp.type = m.mesg.type := by
  obtain ⟨e, t, rfl⟩ := h
  exact doOnePacket_type _ _ _ _

theorem Answered.mono {sent sent' : List Message} {r : Returned} (h : Answered sent r)
    (hsent : ∀ m ∈ sent, m ∈ sent') : Answered sent' r := by
  obtain ⟨m, hm, hmem, hrest⟩ := h.origin
  exact ⟨h.vers, h.type, m, hm, hsent m hmem, hrest⟩

theorem right_of_not_wrong (h : ¬ s.wrong = true) :
    s.rp.vers = TALK_VERSION ∧ s.rp.type = s.mesg.type := by
  rw [Session.wrong, Bool.or_eq_true, not_or, decide_eq_true_eq, decide_eq_true_eq] at h
  exact ⟨not_not.mp h.1, not_not.mp h.2⟩

theorem Known.mono (h : Known s m) (hsent : ∀ m ∈ s.sent, m ∈ t.sent)
    (hmessage : t.message = s.message) (hfresh : t.fresh = s.fresh)
    (hpc : t.pc ≠ .idle → s.pc ≠ .idle) : Known t m := by
  obtain ⟨hmesg, htransaction⟩ := Message.mk.inj hmessage
  refine ⟨hsent m h.sent, ?_, ?_⟩
  · rw [htransaction]
    exact h.before
  · intro hgo hisfresh htype
    rw [hmessage]
    rw [hfresh] at hisfresh
    rw [hmesg] at htype
    exact h.fresh (hpc hgo) hisfresh htype

theorem Invariant.stays (h : Invariant s) (hgo : s.pc ≠ .idle) (hsent : t.sent = s.sent)
    (hmessage : t.message = s.message) (hfresh : t.fresh = s.fresh) (hnet : t.net = s.net) :
    t.net.All (Known t) Produced := by
  rw [hnet]
  refine h.net.mono (fun m hm => hm.mono (fun m hm => ?_) hmessage hfresh (fun _ => hgo))
  rwa [hsent]

theorem selected_invariant {nready : Int} (h : Invariant s) (hpc : s.pc = .select)
    (hready : nready ≠ 0 → 0 < nready ∧ s.net.queue ≠ []) : Invariant (s.selected nready) := by
  have hgo : s.pc ≠ .idle := by
    rw [hpc]
    exact Pc.noConfusion
  have hcopies := h.steady.copies hgo
  rw [hpc, if_neg Pc.noConfusion] at hcopies
  rw [Session.selected]
  split
  · constructor
    · exact h.stays hgo rfl rfl rfl rfl
    · exact fun hpoll => Pc.noConfusion hpoll
    · exact fun hrecv => Pc.noConfusion hrecv
    · refine ⟨fun hrecv => Pc.noConfusion hrecv, fun _ => ?_⟩
      dsimp only
      rw [if_pos rfl]
      omega
    · exact h.returned
  · rename_i hne
    constructor
    · exact h.stays hgo rfl rfl rfl rfl
    · exact fun hpoll => Pc.noConfusion hpoll
    · exact fun _ => (hready hne).1
    · refine ⟨fun _ => (hready hne).2, fun _ => ?_⟩
      dsimp only
      rw [if_neg Pc.noConfusion]
      exact hcopies
    · exact h.returned

theorem polled_invariant {nready : Int} (h : Invariant s) (hpc : s.pc = .poll)
    (hready : 0 < nready → s.net.queue ≠ []) : Invariant (s.polled nready) := by
  have hgo : s.pc ≠ .idle := by
    rw [hpc]
    exact Pc.noConfusion
  have hcopies := h.steady.copies hgo
  rw [hpc, if_neg Pc.noConfusion] at hcopies
  obtain ⟨m, horigin, hm, hproduced⟩ := h.got hpc
  rw [Session.polled]
  split
  · rename_i hagain
    constructor
    · exact h.stays hgo rfl rfl rfl rfl
    · exact fun hpoll => Pc.noConfusion hpoll
    · exact fun _ => hagain.1
    · refine ⟨fun _ => hready hagain.1, fun _ => ?_⟩
      dsimp only
      rw [if_neg Pc.noConfusion]
      exact hcopies
    · exact h.returned
  · split
    · constructor
      · exact h.stays hgo rfl rfl rfl rfl
      · exact fun hpoll => Pc.noConfusion hpoll
      · exact fun hrecv => Pc.noConfusion hrecv
      · refine ⟨fun hrecv => Pc.noConfusion hrecv, fun _ => ?_⟩
        dsimp only
        rw [if_pos rfl]
        omega
      · exact h.returned
    · -- the answer is returned
      rename_i hright
      obtain ⟨hvers, htype⟩ := right_of_not_wrong hright
      have hsame : m.mesg.type = s.mesg.type := (produced_type hproduced).symm.trans htype
      constructor
      · exact h.stays hgo rfl rfl rfl rfl
      · exact fun hpoll => Pc.noConfusion hpoll
      · exact fun hrecv => Pc.noConfusion hrecv
      · exact ⟨fun hrecv => Pc.noConfusion hrecv, fun hidle => absurd rfl hidle⟩
      · intro r hr
        rcases List.mem_cons.mp hr with rfl | hr
        · exact ⟨hvers, htype, m, horigin, hm.sent, hsame, hm.before, hproduced,
            fun hfresh => hm.fresh hgo hfresh hsame⟩
        · exact h.returned r hr

/-! ## Steps -/

theorem ctlTransact_invariant {msg : CtlMsg} {type : UInt8} {rp : CtlResponse} (h : Invariant s)
    (hstep : transactStep localAddr s (.ctlTransact msg type rp) = some t) : Invariant t := by
  rw [transactStep, Option.ite_none_right_eq_some] at hstep
  obtain ⟨-, hstep⟩ := hstep
  obtain rfl := Option.some.inj hstep
  constructor
  · refine Datagrams.all_of_outstanding (fun m hm => ?_) h.net
    have hknown := h.net.outstanding m hm
    refine ⟨hknown.sent, Nat.le_succ_of_le hknown.before, fun _ hfresh htype => ?_⟩
    have hother := List.all_eq_true.mp hfresh m hm
    exact absurd htype (bne_iff_ne.mp hother)
  · exact fun hpoll => Pc.noConfusion hpoll
  · exact fun hrecv => Pc.noConfusion hrecv
  · exact ⟨fun hrecv => Pc.noConfusion hrecv, fun _ => rfl⟩
  · exact h.returned

theorem send_invariant {net : Datagrams Message CtlResponse} {sent : List Message}
    (h : Invariant s) (hpc : s.pc = .send) (hsent : ∀ m ∈ s.sent, m ∈ sent)
    (hnet : net = s.net ∨ net = s.net.send s.message ∧ s.message ∈ sent) :
    Invariant { s with pc := .select, net := net, copies := s.copies + 1, sent := sent } := by
  have hgo : s.pc ≠ .idle := by
    rw [hpc]
    exact Pc.noConfusion
  have hcopies := h.steady.copies hgo
  rw [hpc, if_pos rfl] at hcopies
  have hold := h.net.mono (fun m hm =>
    @Known.mono s { s with pc := .select, net := net, copies := s.copies + 1, sent := sent } m hm
      hsent rfl rfl (fun _ => hgo))
  constructor
  · rcases hnet with rfl | ⟨rfl, hmem⟩
    · exact hold
    · exact hold.send ⟨hmem, Nat.le_refl _, fun _ _ _ => rfl⟩
  · exact fun hpoll => Pc.noConfusion hpoll
  · exact fun hrecv => Pc.noConfusion hrecv
  · refine ⟨fun hrecv => Pc.noConfusion hrecv, fun _ => ?_⟩
    dsimp only
    rw [if_neg Pc.noConfusion]
    exact hcopies
  · exact fun r hr => (h.returned r hr).mono hsent

theorem recv_invariant (h : Invariant s)
    (hstep : transactStep localAddr s .recv = some t) : Invariant t := by
  rw [transactStep, Option.ite_none_right_eq_some] at hstep
  obtain ⟨hpc, hstep⟩ := hstep
  have hgo : s.pc ≠ .idle := by
    rw [hpc]
    exact Pc.noConfusion
  have hcopies := h.steady.copies hgo
  rw [hpc, if_neg Pc.noConfusion] at hcopies
  split at hstep
  · rename_i m rp queue hqueue
    obtain rfl := Option.some.inj hstep
    obtain ⟨hm, hproduced⟩ := h.net.head hqueue
    constructor
    · exact (h.net.read hqueue).mono (fun m hm =>
        hm.mono (fun _ hm => hm) rfl rfl (fun _ => hgo))
    · exact fun _ => ⟨m, rfl, hm.mono (fun _ hm => hm) rfl rfl (fun _ => hgo), hproduced⟩
    · exact fun hrecv => Pc.noConfusion hrecv
    · refine ⟨fun hrecv => Pc.noConfusion hrecv, fun _ => ?_⟩
      dsimp only
      rw [if_neg Pc.noConfusion]
      exact hcopies
    · exact h.returned
  · cases hstep

theorem transfer_invariant {move : Transfer (Sender × Talkd.Env)} (h : Invariant s)
    (hstep : transactStep localAddr s (.transfer move) = some t) : Invariant t := by
  rw [transactStep] at hstep
  obtain ⟨⟨table, net⟩, hmove, rfl⟩ := Option.map_eq_some_iff.mp hstep
  have hqueue := Datagrams.transfer_queue hmove
  constructor
  · refine (Datagrams.all_transfer (fun e m t _ => ⟨e, t, rfl⟩) h.net hmove).mono (fun m hm => ?_)
    exact hm.mono (fun _ hm => hm) rfl rfl (fun hpc => hpc)
  · intro hpoll
    obtain ⟨m, horigin, hm, hproduced⟩ := h.got hpoll
    exact ⟨m, horigin, hm.mono (fun _ hm => hm) rfl rfl (fun hpc => hpc), hproduced⟩
  · exact h.ready
  · refine ⟨fun hrecv hempty => h.steady.recv hrecv ?_, h.steady.copies⟩
    exact List.prefix_nil.mp (hempty ▸ hqueue)
  · exact h.returned

theorem other_invariant {sender : Sender} {env : Talkd.Env} {mp : CtlMsg} (h : Invariant s)
    (hstep : transactStep localAddr s (.other sender env mp) = some t) : Invariant t := by
  obtain rfl := Option.some.inj hstep
  constructor
  · exact h.net.mono (fun m hm => hm.mono (fun _ hm => hm) rfl rfl (fun hpc => hpc))
  · intro hpoll
    obtain ⟨m, horigin, hm, hproduced⟩ := h.got hpoll
    exact ⟨m, horigin, hm.mono (fun _ hm => hm) rfl rfl (fun hpc => hpc), hproduced⟩
  · exact h.ready
  · exact ⟨h.steady.recv, h.steady.copies⟩
  · exact h.returned

/-- Every step keeps the invariant, unless `select` is interrupted. -/
theorem transactStep_invariant {e : Event} (h : Invariant s) (he : e ≠ .selectInterrupted)
    (hstep : transactStep localAddr s e = some t) : Invariant t := by
  cases e with
  | ctlTransact msg type rp => exact ctlTransact_invariant h hstep
  | recv => exact recv_invariant h hstep
  | transfer move => exact transfer_invariant h hstep
  | other sender env mp => exact other_invariant h hstep
  | selectInterrupted => exact absurd rfl he
  | sendPacket =>
    rw [transactStep, Option.ite_none_right_eq_some] at hstep
    obtain ⟨hpc, hstep⟩ := hstep
    obtain rfl := Option.some.inj hstep
    exact send_invariant h hpc (fun m hm => List.mem_cons_of_mem _ hm)
      (Or.inr ⟨rfl, List.mem_cons_self⟩)
  | sendInterrupted =>
    rw [transactStep, Option.ite_none_right_eq_some] at hstep
    obtain ⟨hpc, hstep⟩ := hstep
    obtain rfl := Option.some.inj hstep
    exact send_invariant h hpc (fun m hm => hm) (Or.inl rfl)
  | selectReady =>
    rw [transactStep, Option.ite_none_right_eq_some] at hstep
    obtain ⟨⟨hpc, hqueue⟩, hstep⟩ := hstep
    obtain rfl := Option.some.inj hstep
    exact selected_invariant h hpc (fun _ => ⟨Int.one_pos, hqueue⟩)
  | selectTimeout =>
    rw [transactStep, Option.ite_none_right_eq_some] at hstep
    obtain ⟨⟨hpc, -⟩, hstep⟩ := hstep
    obtain rfl := Option.some.inj hstep
    exact selected_invariant h hpc (fun hne => absurd rfl hne)
  | recvInterrupted =>
    -- there would be something to receive
    rw [transactStep, Option.ite_none_right_eq_some] at hstep
    obtain ⟨⟨hpc, hqueue⟩, -⟩ := hstep
    exact absurd hqueue (h.steady.recv hpc)
  | pollReady =>
    rw [transactStep, Option.ite_none_right_eq_some] at hstep
    obtain ⟨⟨hpc, hqueue⟩, hstep⟩ := hstep
    obtain rfl := Option.some.inj hstep
    exact polled_invariant h hpc (fun _ => hqueue)
  | pollEmpty =>
    rw [transactStep, Option.ite_none_right_eq_some] at hstep
    obtain ⟨⟨hpc, -⟩, hstep⟩ := hstep
    obtain rfl := Option.some.inj hstep
    exact polled_invariant h hpc (fun hpos => absurd hpos (Int.lt_irrefl 0))
  | pollInterrupted =>
    rw [transactStep, Option.ite_none_right_eq_some] at hstep
    obtain ⟨⟨hpc, -⟩, hstep⟩ := hstep
    obtain rfl := Option.some.inj hstep
    exact polled_invariant h hpc (fun hpos => absurd hpos (by decide))

/-! ## Runs -/

theorem start_invariant (mesg : CtlMsg) (rp : CtlResponse) : Invariant (.start mesg rp) := by
  constructor
  · exact Datagrams.all_empty
  · exact fun hpoll => Pc.noConfusion hpoll
  · exact fun hrecv => Pc.noConfusion hrecv
  · exact ⟨fun hrecv => Pc.noConfusion hrecv, fun hidle => absurd rfl hidle⟩
  · exact fun r hr => absurd hr List.not_mem_nil

/-- In a run in which no signal interrupts `select`, whatever is lost and however late the rest
comes, every response that is returned answers a message of the type that was sent from here, and
the message of the transaction itself if nothing of the type was outstanding when it began; and
talk never waits in `recv` for something that may not come, but sends its message again after every
timeout. -/
theorem transactions_answered (localAddr : UInt32) (mesg : CtlMsg) (rp : CtlResponse)
    (es : List Event) (hsignals : Event.selectInterrupted ∉ es) (s : Session)
    (hrun : run (transactStep localAddr) (.start mesg rp) es = some s) :
    (∀ r ∈ s.returned, Answered s.sent r) ∧ Steady s := by
  have hinvariant : (Event.selectInterrupted ∉ es) → Invariant s := by
    refine run_history (I := fun es s => Event.selectInterrupted ∉ es → Invariant s)
      (fun _ => start_invariant mesg rp) ?_ hrun
    intro es s e t hs hstep hnot
    rw [List.mem_append, not_or, List.mem_singleton] at hnot
    exact transactStep_invariant (hs hnot.1) (fun he => hnot.2 he.symm) hstep
  exact ⟨(hinvariant hsignals).returned, (hinvariant hsignals).steady⟩

/-! ## A response that is late -/

def invitation (idNum : UInt32) : CtlMsg :=
  { vers := TALK_VERSION, type := ANNOUNCE, idNum := idNum, addr := {}, pid := 7,
    lName := ascii "me", rName := ascii "you" }

def noResponse : CtlResponse := ⟨0, 0, none, 0, none⟩

def answering : Sender × Talkd.Env := (⟨true, true, true⟩, ⟨0, 0, SUCCESS, SUCCESS⟩)

/-- The first message is answered late, so that it is sent twice and answered twice. One answer is
still there when the second message is sent. -/
def lateAnswer : List Event :=
  [.ctlTransact (invitation 4294967295) ANNOUNCE noResponse, .sendPacket, .selectTimeout,
    .sendPacket, .transfer (.serve 0 answering), .transfer (.serve 0 answering),
    .transfer (.arrive 0), .transfer (.arrive 0), .selectReady, .recv, .pollReady,
    .ctlTransact (invitation 2) ANNOUNCE noResponse, .sendPacket, .selectReady, .recv, .pollEmpty]

/-- The second transaction returns an answer to the message of the first one; and if `select` is
interrupted, then talk waits in `recv` although there is nothing to come. -/
theorem late_answer_returned :
    (run (transactStep 0) (.start (invitation 0) noResponse) lateAnswer).map (fun s =>
      s.returned.map (fun r => (r.message.mesg.idNum, r.origin.map (fun m => m.mesg.idNum)))) =
        some [(2, some 4294967295), (4294967295, some 4294967295)] ∧
    (run (transactStep 0) (.start (invitation 0) noResponse)
      [.ctlTransact (invitation 1) ANNOUNCE noResponse, .sendPacket, .selectInterrupted]).map
        (fun s => (s.pc, s.net.queue)) = some (.recv, []) := by
  decide +kernel

theorem transactions_answered_late :
    ∃ s, run (transactStep 0) (.start (invitation 0) noResponse) lateAnswer = some s ∧
      (∀ r ∈ s.returned, Answered s.sent r) ∧ Steady s := by
  have hsome : (run (transactStep 0) (.start (invitation 0) noResponse) lateAnswer).isSome := by
    decide +kernel
  obtain ⟨s, hrun⟩ := Option.isSome_iff_exists.mp hsome
  have hsignals : Event.selectInterrupted ∉ lateAnswer := by simp [lateAnswer]
  exact ⟨s, hrun, transactions_answered 0 (invitation 0) noResponse lateAnswer hsignals s hrun⟩

end Netkit.Talk

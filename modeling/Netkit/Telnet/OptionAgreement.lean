import Netkit.Foundations.Agreement
import Netkit.Telnet.Client.Options
import Netkit.Telnet.Daemon.Options

/-!
# The client and telnetd agree on an option

One option, with the client on the DO side and telnetd on the WILL side, over two FIFO
channels. The two programs keep the bits and the counter of the option exactly as the two
peers of `Netkit.Foundations.Pair` do, so what holds of the pair holds of the programs.
-/

namespace Netkit.Telnet.OptionAgreement

open Netkit.Foundations

/-! ## One record as a peer -/

def peer (n : Negotiation) : Peer := ⟨n.state, n.wantState, n.resp.toNat⟩

@[simp] theorem peer_state (n : Negotiation) : (peer n).state = n.state := rfl

@[simp] theorem peer_want (n : Negotiation) : (peer n).want = n.wantState := rfl

@[simp] theorem peer_resp (n : Negotiation) : (peer n).resp = n.resp.toNat := rfl

theorem toNat_eq_zero {x : UInt8} : x.toNat = 0 ↔ x = 0 := by
  constructor
  · intro h
    exact UInt8.toNat_inj.mp h
  · rintro rfl
    rfl

theorem toNat_sub_one {x : UInt8} (h : x ≠ 0) : (x - 1).toNat = x.toNat - 1 := by
  have hx : x.toNat ≠ 0 := fun e => h (toNat_eq_zero.mp e)
  have hlt := x.toNat_lt
  rw [UInt8.toNat_sub]
  simp only [UInt8.toNat_one]
  omega

theorem toNat_add_one {x : UInt8} (h : x.toNat < 128) : (x + 1).toNat = x.toNat + 1 := by
  rw [UInt8.toNat_add]
  simp only [UInt8.toNat_one]
  omega

theorem answered_resp (new : Bool) (n : Negotiation) :
    (n.answered new).resp.toNat = Peer.settle new (peer n) := by
  unfold Negotiation.answered Peer.settle
  by_cases h0 : n.resp = 0
  · simp [h0]
  · have h0' : n.resp.toNat ≠ 0 := fun e => h0 (toNat_eq_zero.mp e)
    have h1 : (n.resp - 1).toNat = n.resp.toNat - 1 := toNat_sub_one h0
    by_cases h2 : n.resp - 1 = 0
    · have h2' : n.resp.toNat - 1 = 0 := by rw [← h1, h2]; rfl
      simp [h0, h0', h2, h2']
    · have h2' : n.resp.toNat - 1 ≠ 0 := by
        rw [← h1]
        exact fun e => h2 (toNat_eq_zero.mp e)
      have h3 : (n.resp - 1 - 1).toNat = n.resp.toNat - 2 := by
        rw [toNat_sub_one h2, h1]
        omega
      by_cases hs : n.state = new
      · simp [h0, h0', h2, h2', hs, h3]
      · simp [h0, h0', hs, h1]

theorem answered_resp_eq_zero (new : Bool) (n : Negotiation) :
    (n.answered new).resp = 0 ↔ Peer.settle new (peer n) = 0 := by
  rw [← answered_resp, toNat_eq_zero]

/-- `send_*(option, 1)` is the peer's `initiate`. -/
theorem peer_request (new : Bool) {n : Negotiation} (h : n.resp.toNat < 128) :
    (peer n).initiate new =
      match n.request new new with
      | none => (peer n, [])
      | some m => (peer m, [new]) := by
  unfold Negotiation.request Peer.initiate
  simp only [peer_resp, peer_state, peer_want, toNat_eq_zero]
  split
  · rfl
  · simp only [peer, toNat_add_one h]

/-- A handler that has reached its last line has done the peer's `receive`, if it changed
`wantState` and answered in the one case in which the peer does. -/
theorem peer_receive (new : Bool) (n : Negotiation) :
    (peer n).receive new =
      if (n.answered new).resp = 0 ∧ n.wantState ≠ new then
        (peer ⟨new, new, (n.answered new).resp⟩, if new || n.state then [new] else [])
      else (peer ⟨new, n.wantState, (n.answered new).resp⟩, []) := by
  unfold Peer.receive
  by_cases h : Peer.settle new (peer n) = 0 ∧ (peer n).want ≠ new
  · have h' : (n.answered new).resp = 0 ∧ n.wantState ≠ new :=
      ⟨(answered_resp_eq_zero new n).mpr h.1, h.2⟩
    rw [if_pos h, if_pos h', h'.1]
    rfl
  · have h' : ¬ ((n.answered new).resp = 0 ∧ n.wantState ≠ new) := fun hc =>
      h ⟨(answered_resp_eq_zero new n).mp hc.1, hc.2⟩
    rw [if_neg h, if_neg h', ← answered_resp]
    rfl

/-! ## The four handlers of one option -/

/-- Both sides accept the option, and telnetd does not treat it specially: `SGA` can be
turned on again by `turn_on_sga`. `TM` and `LOGOUT` are not accepted by the client. -/
def plainOption (option : UInt8) : Prop :=
  Client.willoptionOk option = true ∧ Daemon.dooptionOk option = true ∧ option ≠ TELOPT_SGA

instance (option : UInt8) : Decidable (plainOption option) := by
  unfold plainOption
  infer_instance

theorem plainOption_ne {option : UInt8} (h : plainOption option) :
    option ≠ TELOPT_TM ∧ option ≠ TELOPT_LOGOUT ∧ option ≠ TELOPT_LINEMODE := by
  refine ⟨?_, ?_, ?_⟩ <;> rintro rfl <;> exact absurd h (by decide)

def doMsg (option : UInt8) (new : Bool) : Msg := ⟨if new then .doo else .dont, option⟩

def willMsg (option : UInt8) (new : Bool) : Msg := ⟨if new then .will else .wont, option⟩

variable {option : UInt8}

theorem client_receive (h : plainOption option) (new : Bool) (s : Client.OptionState) :
    peer ((Client.receive (willMsg option new) s).options.doDont option) =
        ((peer (s.options.doDont option)).receive new).1 ∧
      (Client.receive (willMsg option new) s).sent =
        s.sent ++ ((peer (s.options.doDont option)).receive new).2.map (doMsg option) := by
  obtain ⟨htm, hlogout, hline⟩ := plainOption_ne h
  rw [peer_receive]
  cases new with
  | true =>
    by_cases hc : ((s.options.doDont option).answered true).resp = 0 ∧
        (s.options.doDont option).wantState = false
    · simp [Client.receive, willMsg, Client.willoption, hc, htm, h.1, Client.sendDo,
        Client.sendDoDont, doMsg, peer]
    · simp [Client.receive, willMsg, Client.willoption, hc, peer]
  | false =>
    by_cases hc : ((s.options.doDont option).answered false).resp = 0 ∧
        (s.options.doDont option).wantState = true
    · cases hs : (s.options.doDont option).state <;>
        simp [Client.receive, willMsg, Client.wontoption, hc, htm, Client.sendDont,
          Client.sendDoDont, doMsg, peer, hs]
    · simp [Client.receive, willMsg, Client.wontoption, hc, htm, peer]

theorem daemon_receive (h : plainOption option) (new : Bool) (s : Daemon.OptionState) :
    peer ((Daemon.receive (doMsg option new) s).options.willWont option) =
        ((peer (s.options.willWont option)).receive new).1 ∧
      (Daemon.receive (doMsg option new) s).sent =
        s.sent ++ ((peer (s.options.willWont option)).receive new).2.map (willMsg option) := by
  obtain ⟨htm, hlogout, hline⟩ := plainOption_ne h
  rw [peer_receive]
  cases new with
  | true =>
    by_cases hc : ((s.options.willWont option).answered true).resp = 0 ∧
        (s.options.willWont option).wantState = false
    · simp [Daemon.receive, doMsg, Daemon.dooption, hc, htm, hlogout, h.2.1, h.2.2,
        Daemon.sendWill, Daemon.sendWillWont, willMsg, peer]
    · simp [Daemon.receive, doMsg, Daemon.dooption, hc, peer]
  | false =>
    by_cases hc : ((s.options.willWont option).answered false).resp = 0 ∧
        (s.options.willWont option).wantState = true
    · cases hs : (s.options.willWont option).state <;>
        simp [Daemon.receive, doMsg, Daemon.dontoption, hc, h.2.2, Daemon.sendWont,
          Daemon.sendWillWont, willMsg, peer, hs]
    · simp [Daemon.receive, doMsg, Daemon.dontoption, hc, peer]

/-- `send_do(option, 1)` or `send_dont(option, 1)`. -/
def clientRequest (option : UInt8) (new : Bool) : Client.OptionState → Client.OptionState :=
  if new then Client.sendDo option true else Client.sendDont option true

/-- `send_will(option, 1)` or `send_wont(option, 1)`. -/
def daemonRequest (option : UInt8) (new : Bool) : Daemon.OptionState → Daemon.OptionState :=
  if new then Daemon.sendWill option true else Daemon.sendWont option true

theorem client_request (new : Bool) {s : Client.OptionState}
    (hlt : (s.options.doDont option).resp.toNat < 128) :
    peer ((clientRequest option new s).options.doDont option) =
        ((peer (s.options.doDont option)).initiate new).1 ∧
      (clientRequest option new s).sent =
        s.sent ++ ((peer (s.options.doDont option)).initiate new).2.map (doMsg option) := by
  rw [peer_request new hlt]
  cases new with
  | true =>
    cases hq : (s.options.doDont option).request true true <;>
      simp [clientRequest, Client.sendDo, Client.sendDoDont, hq, doMsg]
  | false =>
    cases hq : (s.options.doDont option).request false false <;>
      simp [clientRequest, Client.sendDont, Client.sendDoDont, hq, doMsg]

theorem daemon_request (new : Bool) {s : Daemon.OptionState}
    (hlt : (s.options.willWont option).resp.toNat < 128) :
    peer ((daemonRequest option new s).options.willWont option) =
        ((peer (s.options.willWont option)).initiate new).1 ∧
      (daemonRequest option new s).sent =
        s.sent ++ ((peer (s.options.willWont option)).initiate new).2.map (willMsg option) := by
  rw [peer_request new hlt]
  cases new with
  | true =>
    cases hq : (s.options.willWont option).request true true <;>
      simp [daemonRequest, Daemon.sendWill, Daemon.sendWillWont, hq, willMsg]
  | false =>
    cases hq : (s.options.willWont option).request false false <;>
      simp [daemonRequest, Daemon.sendWont, Daemon.sendWillWont, hq, willMsg]

/-! ## The two programs and their channels -/

structure Link where
  client : Client.OptionState
  daemon : Daemon.OptionState
  toClient : List Msg
  toDaemon : List Msg

inductive LinkEvent where
  /-- The client asks the server: `send_do(option, 1)` or `send_dont(option, 1)`. -/
  | clientAsks (new : Bool)
  /-- The server offers: `send_will(option, 1)` or `send_wont(option, 1)`. -/
  | daemonAsks (new : Bool)
  | deliverToClient
  | deliverToDaemon

namespace Link

def initial (display : Bool) : Link := ⟨.initial display, .initial, [], []⟩

/-- The client has run: what it put into `netoring` goes onto the channel. -/
def afterClient (c : Client.OptionState) (l : Link) : Link :=
  { l with client := { c with sent := [] }, toDaemon := l.toDaemon ++ c.sent }

/-- telnetd has run: what it put into `netobuf` goes onto the channel. -/
def afterDaemon (d : Daemon.OptionState) (l : Link) : Link :=
  { l with daemon := { d with sent := [] }, toClient := l.toClient ++ d.sent }

/-- One event. A side only asks with fewer than 128 requests outstanding. -/
def step (option : UInt8) (l : Link) : LinkEvent → Option Link
  | .clientAsks new =>
    if (l.client.options.doDont option).resp.toNat < 128 then
      some (l.afterClient (clientRequest option new l.client))
    else none
  | .daemonAsks new =>
    if (l.daemon.options.willWont option).resp.toNat < 128 then
      some (l.afterDaemon (daemonRequest option new l.daemon))
    else none
  | .deliverToClient =>
    match l.toClient with
    | [] => none
    | m :: ms => some ({ l with toClient := ms }.afterClient (Client.receive m l.client))
  | .deliverToDaemon =>
    match l.toDaemon with
    | [] => none
    | m :: ms => some ({ l with toDaemon := ms }.afterDaemon (Daemon.receive m l.daemon))

def clientSide (option : UInt8) (l : Link) : Negotiation := l.client.options.doDont option

def daemonSide (option : UInt8) (l : Link) : Negotiation := l.daemon.options.willWont option

def inFlight (l : Link) : Nat := l.toClient.length + l.toDaemon.length

end Link

/-! ## The simulation -/

/-- The programs are in the state of the pair. -/
structure Refines (option : UInt8) (l : Link) (p : Pair) : Prop where
  left : p.left = peer (l.clientSide option)
  right : p.right = peer (l.daemonSide option)
  toLeft : l.toClient = p.toLeft.map (willMsg option)
  toRight : l.toDaemon = p.toRight.map (doMsg option)
  clientSent : l.client.sent = []
  daemonSent : l.daemon.sent = []

def pairEvent : LinkEvent → PairEvent
  | .clientAsks new => .initiate .left new
  | .daemonAsks new => .initiate .right new
  | .deliverToClient => .deliver .left
  | .deliverToDaemon => .deliver .right

def negativePair : Pair := ⟨⟨false, false, 0⟩, ⟨false, false, 0⟩, [], []⟩

theorem negativePair_inv : negativePair.Inv := by
  refine ⟨rfl, rfl, rfl, ?_, ?_⟩ <;> simp [negativePair]

theorem initial_refines (display : Bool) :
    Refines option (Link.initial display) negativePair :=
  ⟨rfl, rfl, rfl, rfl, rfl, rfl⟩

theorem step_refines (h : plainOption option) {l l' : Link} {p : Pair} {e : LinkEvent}
    (hr : Refines option l p) (hs : l.step option e = some l') :
    ∃ p', p.step (pairEvent e) = some p' ∧ Refines option l' p' := by
  cases e with
  | clientAsks new =>
    simp only [Link.step] at hs
    split at hs
    · rename_i hlt
      cases hs
      obtain ⟨hpeer, hsent⟩ := client_request new hlt
      rw [hr.clientSent, List.nil_append] at hsent
      refine ⟨_, rfl, ?_, hr.right, hr.toLeft, ?_, rfl, hr.daemonSent⟩
      · show (p.left.initiate new).1 = _
        rw [hr.left]
        exact hpeer.symm
      · simp [Link.afterClient, Pair.initiateLeft, hsent, hr.toRight, hr.left, Link.clientSide]
    · cases hs
  | daemonAsks new =>
    simp only [Link.step] at hs
    split at hs
    · rename_i hlt
      cases hs
      obtain ⟨hpeer, hsent⟩ := daemon_request new hlt
      rw [hr.daemonSent, List.nil_append] at hsent
      refine ⟨_, rfl, hr.left, ?_, ?_, hr.toRight, hr.clientSent, rfl⟩
      · show (p.right.initiate new).1 = _
        rw [hr.right]
        exact hpeer.symm
      · simp [Link.afterDaemon, Pair.initiateLeft, Pair.swap, hsent, hr.toLeft, hr.right,
          Link.daemonSide]
    · cases hs
  | deliverToClient =>
    simp only [Link.step] at hs
    cases hp : p.toLeft with
    | nil => rw [hr.toLeft, hp] at hs; cases hs
    | cons new rest =>
      rw [hr.toLeft, hp, List.map_cons] at hs
      cases hs
      obtain ⟨hpeer, hsent⟩ := client_receive h new l.client
      rw [hr.clientSent, List.nil_append] at hsent
      refine ⟨_, Pair.step_deliver_left hp, ?_, hr.right, rfl, ?_, rfl, hr.daemonSent⟩
      · show (p.left.receive new).1 = _
        rw [hr.left]
        exact hpeer.symm
      · simp [Link.afterClient, hsent, hr.toRight, hr.left, Link.clientSide]
  | deliverToDaemon =>
    simp only [Link.step] at hs
    cases hp : p.toRight with
    | nil => rw [hr.toRight, hp] at hs; cases hs
    | cons new rest =>
      rw [hr.toRight, hp, List.map_cons] at hs
      cases hs
      obtain ⟨hpeer, hsent⟩ := daemon_receive h new l.daemon
      rw [hr.daemonSent, List.nil_append] at hsent
      refine ⟨_, Pair.step_deliver_right hp, hr.left, ?_, ?_, rfl, hr.clientSent, rfl⟩
      · show (p.right.receive new).1 = _
        rw [hr.right]
        exact hpeer.symm
      · simp [Link.afterDaemon, hsent, hr.toLeft, hr.right, Link.daemonSide]

theorem run_refines (h : plainOption option) {l l' : Link} {p : Pair} {es : List LinkEvent}
    (hr : Refines option l p) (hrun : run (Link.step option) l es = some l') :
    ∃ p', run Pair.step p (es.map pairEvent) = some p' ∧ Refines option l' p' := by
  induction es generalizing l p with
  | nil => cases hrun; exact ⟨p, rfl, hr⟩
  | cons e es ih =>
    obtain ⟨m, hm, hrun⟩ := run_cons_eq_some.mp hrun
    obtain ⟨q, hq, hqr⟩ := step_refines h hr hm
    obtain ⟨p', hp', hpr⟩ := ih hqr hrun
    exact ⟨p', run_cons_eq_some.mpr ⟨q, hq, hp'⟩, hpr⟩

/-- In every reachable state the pair behind the programs keeps its invariant. -/
theorem reachable_pair (h : plainOption option) {display : Bool} {es : List LinkEvent}
    {l : Link} (hrun : run (Link.step option) (Link.initial display) es = some l) :
    ∃ p : Pair, p.Inv ∧ Refines option l p := by
  obtain ⟨p, hp, hr⟩ := run_refines h (initial_refines display) hrun
  exact ⟨p, run_invariant (fun _ _ _ hI hs => Pair.inv_step hI hs) negativePair_inv hp, hr⟩

/-! ## Agreement and termination -/

/-- With both channels empty, no request is outstanding, each side has the state it wants and
the two states are equal. -/
def Link.Quiet (option : UInt8) (l : Link) : Prop :=
  (l.clientSide option).resp = 0 ∧ (l.daemonSide option).resp = 0 ∧
    (l.clientSide option).state = (l.clientSide option).wantState ∧
    (l.daemonSide option).state = (l.daemonSide option).wantState ∧
    (l.clientSide option).state = (l.daemonSide option).state

theorem Refines.quiet {l : Link} {p : Pair} (hr : Refines option l p) (hI : p.Inv)
    (hc : l.toClient = []) (hd : l.toDaemon = []) : l.Quiet option := by
  have hl : p.toLeft = [] := List.map_eq_nil_iff.mp (hr.toLeft.symm.trans hc)
  have hrt : p.toRight = [] := List.map_eq_nil_iff.mp (hr.toRight.symm.trans hd)
  have hag := Pair.agree hI hl hrt
  rw [hr.left, hr.right] at hag
  obtain ⟨h1, h2, h3, h4, h5⟩ := hag
  exact ⟨toNat_eq_zero.mp h1, toNat_eq_zero.mp h2, h3, h4, h5⟩

def deliver : Side → LinkEvent
  | .left => .deliverToClient
  | .right => .deliverToDaemon

theorem pairEvent_deliver (side : Side) : pairEvent (deliver side) = .deliver side := by
  cases side <;> rfl

theorem Refines.deliveries_le (h : plainOption option) {l l' : Link} {p : Pair}
    (hr : Refines option l p) (hI : p.Inv) {sides : List Side}
    (hrun : run (Link.step option) l (sides.map deliver) = some l') :
    sides.length ≤ 2 * l.inFlight := by
  obtain ⟨p', hp', -⟩ := run_refines h hr hrun
  have hsides : ∀ (q : Pair) (ss : List Side),
      run Pair.step q ((ss.map deliver).map pairEvent) =
        run (fun p side => p.step (.deliver side)) q ss := by
    intro q ss
    induction ss generalizing q with
    | nil => rfl
    | cons side ss ih => simp only [List.map_cons, run_cons, pairEvent_deliver, ih]
  rw [hsides] at hp'
  have hlen := Pair.deliveries_le hI hp'
  simpa [Link.inFlight, Pair.inFlight, hr.toLeft, hr.toRight] using hlen

/-- Whatever the two programs ask for and however the messages are delivered: in every
reachable state with empty channels the two sides agree, and from every reachable state the
messages in flight cause only finitely many deliveries. -/
theorem option_agreement (h : plainOption option) {display : Bool} {es : List LinkEvent}
    {l : Link} (hrun : run (Link.step option) (Link.initial display) es = some l) :
    (l.toClient = [] → l.toDaemon = [] → l.Quiet option) ∧
      ∀ (sides : List Side) (l' : Link),
        run (Link.step option) l (sides.map deliver) = some l' →
          sides.length ≤ 2 * l.inFlight := by
  obtain ⟨p, hI, hr⟩ := reachable_pair h hrun
  exact ⟨hr.quiet hI, fun sides l' hl' => hr.deliveries_le h hI hl'⟩

/-- Both sides ask for `BINARY` at once, the requests cross, and all is delivered. -/
theorem option_agreement_binary :
    ∃ l, run (Link.step TELOPT_BINARY) (Link.initial true)
        [.clientAsks true, .daemonAsks true, .deliverToClient, .deliverToDaemon] = some l ∧
      l.Quiet TELOPT_BINARY ∧
      ∀ (sides : List Side) (l' : Link),
        run (Link.step TELOPT_BINARY) l (sides.map deliver) = some l' →
          sides.length ≤ 2 * l.inFlight := by
  have hrun : ∃ l, run (Link.step TELOPT_BINARY) (Link.initial true)
      [.clientAsks true, .daemonAsks true, .deliverToClient, .deliverToDaemon] = some l ∧
      l.toClient = [] ∧ l.toDaemon = [] := ⟨_, rfl, rfl, rfl⟩
  obtain ⟨l, hrun, hclient, hdaemon⟩ := hrun
  have h := option_agreement (by decide) hrun
  exact ⟨l, hrun, h.1 hclient hdaemon, h.2⟩

end Netkit.Telnet.OptionAgreement

import Netkit.Foundations.Runs
import Netkit.Tftp.Recvfile

/-!
# Datagrams that come twice

What the four functions answer to a block that they have accepted already, and to the
acknowledgement of a block that they have sent before the last one, whatever the network brings.

* `repeats_iff`: they answer, but not when `block` has just become 0 again, where `block - 1` is
  -1, and not in the last wait of tftpd, which looks at an older block.

`synchnet` throws away datagrams that have come meanwhile: for the function they are lost on the
way.
-/

namespace Netkit.Tftp

open Netkit.Foundations

/-! ## Waiting -/

inductive Program
  | tftp
  | tftpd
  deriving DecidableEq

def Program.ends (convert : Bool) : Program → Ends
  | .tftp => Client.ends convert
  | .tftpd => Tftpd.ends convert

/-- How a wait ends: with a datagram, with the alarm, or with an error of the call. `ok` says
whether the answer can be sent. -/
inductive Wakeup
  | datagram (d : Datagram) (ok : Bool)
  | alarm (ok : Bool)
  | failed

/-- The client calls `recvfrom` again when it fails; the server gives up. In the last wait of the
server anything else than a datagram is the end. -/
def Recvfile.wake (p : Program) (t : Timing) (convert : Bool) (s : Recvfile) (w : Wakeup) :
    Option (Recvfile × List Stamped) :=
  match s.ctl, w with
  | .loop, .datagram d ok => some (s.receive convert (p.ends convert) d ok)
  | .loop, .alarm ok => some (s.timer t convert (p.ends convert) ok)
  | .loop, .failed =>
    match p with
    | .tftp => some (s, [])
    | .tftpd => some ((Tftpd.ends convert).abort s)
  | .closing, .datagram _ _ => some (Tftpd.closing s)
  | .closing, _ => some ({ s with ctl := .left }, [])
  | _, _ => none

def Sendfile.wake (p : Program) (t : Timing) (convert : Bool) (s : Sendfile) (w : Wakeup) :
    Option (Sendfile × List Stamped) :=
  match s.ctl, w with
  | .loop, .datagram d ok => some (s.receive convert d ok)
  | .loop, .alarm ok => some (s.timer t convert ok)
  | .loop, .failed =>
    match p with
    | .tftp => some (s, [])
    | .tftpd => some ({ s with ctl := .aborted }, [])
  | _, _ => none

def Recvfile.step (p : Program) (t : Timing) (convert : Bool) (s : Recvfile) (w : Wakeup) :
    Option Recvfile :=
  (s.wake p t convert w).map Prod.fst

def Sendfile.step (p : Program) (t : Timing) (convert : Bool) (s : Sendfile) (w : Wakeup) :
    Option Sendfile :=
  (s.wake p t convert w).map Prod.fst

def Buffers.static : Buffers where
  bfs _ := ⟨0, ⟨0, 0, []⟩⟩
  nextone := false
  current := false
  newline := false
  prevchar := none

/-- A receiver at its first wait. tftpd serves one request; tftp may have transferred other files
before. -/
inductive Recvfile.Started : Program → Bool → Recvfile → Prop
  | tftp (subs : Buffers) (r : Request) (ok : Bool) :
    Started .tftp r.mode.convert (Client.recvfile subs r ok).1
  | tftpd (convert ok : Bool) : Started .tftpd convert (Tftpd.recvfile Buffers.static convert ok).1

/-- A sender at its first wait, with the bytes to transfer and its request. -/
inductive Sendfile.Started :
    Program → Bool → List UInt8 → Option (List UInt8) → Sendfile → Prop
  | tftp (subs : Buffers) (r : Request) (file : List UInt8) (ok : Bool) :
    Started .tftp r.mode.convert (encoded r.mode.convert file) (some (makerequest r))
      (Client.sendfile subs r file ok).1
  | tftpd (convert : Bool) (file : List UInt8) (ok : Bool) :
    Started .tftpd convert (encoded convert file) none
      (Tftpd.sendfile Buffers.static convert file ok).1

/-! ## The answers -/

structure IsLast (s : Recvfile) (d : Datagram) : Prop where
  opcode : d.received.opcode = DATA
  block : d.received.block = UInt16.ofNat s.accepted.length
  data : s.accepted.getLast? = some d.received.data

/-- When the last accepted block comes again while the function waits, it is acknowledged again. -/
def Reacks (p : Program) (t : Timing) (convert : Bool) (s : Recvfile) : Prop :=
  ∀ d, IsLast s d → ∀ r, s.wake p t convert (.datagram d true) = some r →
    r.2 = [ackOf s.accepted.length (UInt16.ofNat s.accepted.length)]

/-- The acknowledgement of the block before the last one that has been sent. -/
structure IsBefore (s : Sendfile) (d : Datagram) : Prop where
  later : 0 < s.number
  opcode : d.received.opcode = ACK
  block : d.received.block = UInt16.ofNat (s.number - 1)

/-- When the acknowledgement of the block before comes while the function waits, the last block is
sent again. -/
def Resends (p : Program) (t : Timing) (convert : Bool) (src : List UInt8)
    (request : Option (List UInt8)) (s : Sendfile) : Prop :=
  ∀ d, IsBefore s d → ∀ r, s.wake p t convert (.datagram d true) = some r →
    r.2 = [sentAt src request s.number]

/-! ## 16 bits -/

theorem ofNat_succ_ne (n : ℕ) : UInt16.ofNat n ≠ UInt16.ofNat (n + 1) := by
  intro h
  have hmod := congrArg UInt16.toNat h
  rw [UInt16.toNat_ofNat', UInt16.toNat_ofNat'] at hmod
  omega

/-- `th_block == block - 1`, where the subtraction is one of `int`. -/
theorem before_iff (n : ℕ) : ((UInt16.ofNat n).toNat : Int) = (UInt16.ofNat (n + 1)).toNat - 1 ↔
    (n + 1) % 65536 ≠ 0 := by
  rw [UInt16.toNat_ofNat', UInt16.toNat_ofNat']
  omega

/-! ## The buffers -/

def Buffers.other (b : Buffers) : Packet := (b.bfs (!b.current)).buf

theorem setCounter_buf (b : Buffers) (i j : Bool) (counter : Int) :
    ((b.setCounter i counter).bfs j).buf = (b.bfs j).buf := by
  by_cases hij : j = i
  · subst hij
    rw [Buffers.setCounter_self]
  · rw [Buffers.setCounter_of_ne _ _ _ hij]

theorem writeBehind_buf (convert : Bool) (b : Buffers) (file : OutFile) (j : Bool) :
    ((writeBehind convert b file).1.bfs j).buf = (b.bfs j).buf ∧
      (writeBehind convert b file).1.current = b.current := by
  unfold writeBehind
  dsimp only
  split
  · exact ⟨rfl, rfl⟩
  · split
    · exact ⟨setCounter_buf b _ j _, rfl⟩
    · split
      · exact ⟨setCounter_buf b _ j _, rfl⟩
      · exact ⟨setCounter_buf b _ j _, rfl⟩

theorem writeit_buf (convert : Bool) (ct : Int) (b : Buffers) (file : OutFile) :
    (writeit convert ct b file).1.dp = b.other ∧ (writeit convert ct b file).1.other = b.dp := by
  have hswitch (j : Bool) : ((b.switch ct).bfs j).buf = (b.bfs j).buf :=
    setCounter_buf b b.current j ct
  have hboth (j : Bool) : ((writeit convert ct b file).1.bfs j).buf = (b.bfs j).buf ∧
      (writeit convert ct b file).1.current = !b.current := by
    unfold writeit
    dsimp only
    rw [setCounter_buf, Buffers.setCounter_current]
    split
    · obtain ⟨hbuf, hcurrent⟩ := writeBehind_buf convert (b.switch ct) file j
      exact ⟨hbuf.trans (hswitch j), hcurrent⟩
    · exact ⟨hswitch j, rfl⟩
  have hcurrent := (hboth true).2
  unfold Buffers.dp Buffers.other
  rw [hcurrent, (hboth _).1, (hboth _).1, Bool.not_not]
  exact ⟨rfl, rfl⟩

/-! ## The receiver -/

/-- The variables by the number of accepted blocks. The buffer that is not in use holds the last
of them; after `writeit`, when the loop has been left, it is the one before that which `dp` points
to. -/
structure Counted (p : Program) (s : Recvfile) : Prop where
  lengths : ∀ a ∈ s.accepted, a.length ≤ SEGSIZE
  block : s.ctl = .loop → s.block = UInt16.ofNat (s.accepted.length + 1)
  ackbuf : s.ctl = .loop → 0 < s.accepted.length →
    s.ackbuf = ackOf s.accepted.length (UInt16.ofNat s.accepted.length)
  other : s.ctl = .loop → p = .tftpd → s.subs.other.opcode = DATA →
    s.subs.other.block = UInt16.ofNat s.accepted.length
  closing : s.ctl = .closing → 0 < s.accepted.length ∧
    (s.subs.dp.opcode = DATA → s.block ≠ s.subs.dp.block)

variable {p : Program} {t : Timing} {convert : Bool} {s : Recvfile}

theorem counted_ended (h : ∀ a ∈ s.accepted, a.length ≤ SEGSIZE) (hloop : s.ctl ≠ .loop)
    (hclosing : s.ctl ≠ .closing) : Counted p s where
  lengths := h
  block hctl := absurd hctl hloop
  ackbuf hctl := absurd hctl hloop
  other hctl := absurd hctl hloop
  closing hctl := absurd hctl hclosing

theorem abort_counted (h : ∀ a ∈ s.accepted, a.length ≤ SEGSIZE) :
    Counted p ((p.ends convert).abort s).1 := by
  cases p with
  | tftp => exact counted_ended h (fun hctl => by cases hctl) (fun hctl => by cases hctl)
  | tftpd => exact counted_ended h (fun hctl => by cases hctl) (fun hctl => by cases hctl)

theorem sendAck_counted (h : Counted p s) (hloop : s.ctl = .loop) (ok : Bool) :
    Counted p (s.sendAck convert (p.ends convert) ok).1 := by
  unfold Recvfile.sendAck
  split
  · exact abort_counted h.lengths
  · have hbuf := writeBehind_buf convert s.subs s.file
    have hother : (writeBehind convert s.subs s.file).1.other = s.subs.other := by
      unfold Buffers.other
      rw [(hbuf true).2, (hbuf _).1]
    refine ⟨h.lengths, h.block, h.ackbuf, fun _ hp hopcode => ?_, fun hclosing => ?_⟩
    · dsimp only at hopcode ⊢
      rw [hother] at hopcode ⊢
      exact h.other hloop hp hopcode
    · rw [hloop] at hclosing
      cases hclosing

/-- A block has been accepted, and `dp` points to the other buffer. -/
structure Accepted (p : Program) (s : Recvfile) : Prop where
  lengths : ∀ a ∈ s.accepted, a.length ≤ SEGSIZE
  pos : 0 < s.accepted.length
  block : s.block = UInt16.ofNat s.accepted.length
  other : s.subs.other.block = UInt16.ofNat s.accepted.length
  dp : p = .tftpd → s.subs.dp.opcode = DATA → s.block ≠ s.subs.dp.block

theorem writeit_accepted (convert : Bool) (h : Counted p s) (hloop : s.ctl = .loop) {dp : Packet}
    (hlength : dp.data.length ≤ SEGSIZE) (hblock : dp.block = s.block) (ct : Int) :
    Accepted p { s with
      subs := (writeit convert ct (s.subs.setDp dp) s.file).1
      file := (writeit convert ct (s.subs.setDp dp) s.file).2
      accepted := s.accepted ++ [dp.data] } := by
  obtain ⟨hdp, hother⟩ := writeit_buf convert ct (s.subs.setDp dp) s.file
  have hcount : (s.accepted ++ [dp.data]).length = s.accepted.length + 1 := by
    rw [List.length_append, List.length_singleton]
  have hnew : (s.subs.setDp dp).dp = dp := by
    rw [Buffers.dp, Buffers.setDp_current, Buffers.setDp_self]
  have hold : (s.subs.setDp dp).other = s.subs.other := by
    rw [Buffers.other, Buffers.setDp_current, Buffers.setDp_other]
    rfl
  refine ⟨fun a ha => ?_, ?_, ?_, ?_, fun hp hopcode => ?_⟩
  · rcases List.mem_append.mp ha with ha | ha
    · exact h.lengths a ha
    · rw [List.mem_singleton.mp ha]
      exact hlength
  · dsimp only
    rw [hcount]
    exact Nat.succ_pos _
  · dsimp only
    rw [hcount]
    exact h.block hloop
  · dsimp only
    rw [hother, hnew, hcount, hblock]
    exact h.block hloop
  · -- `dp` points to the block before.
    dsimp only at hopcode ⊢
    rw [hdp, hold] at hopcode ⊢
    rw [h.block hloop, h.other hloop hp hopcode]
    exact (ofNat_succ_ne _).symm

theorem trip_counted (h : Accepted p s) (hloop : s.ctl = .loop) (ok : Bool) :
    Counted p (s.trip convert (p.ends convert) ok).1 := by
  have hnext : Counted p { s with
      ackbuf := ackOf s.accepted.length s.block
      block := s.block + 1
      timeout := 0 } := by
    refine ⟨h.lengths, fun _ => ?_, fun _ _ => ?_, fun _ _ _ => h.other, fun hclosing => ?_⟩
    · dsimp only
      rw [h.block]
      exact (UInt16.ofNat_add s.accepted.length 1).symm
    · dsimp only
      rw [h.block]
    · change s.ctl = .closing at hclosing
      rw [hloop] at hclosing
      cases hclosing
  exact sendAck_counted hnext hloop ok

theorem leave_counted (h : Accepted p s) : Counted p ((p.ends convert).leave s).1 := by
  cases p with
  | tftp => exact counted_ended h.lengths (fun hctl => by cases hctl) (fun hctl => by cases hctl)
  | tftpd =>
    have hflush := writeBehind_buf convert s.subs s.file
    have hdp : (writeBehind convert s.subs s.file).1.dp = s.subs.dp := by
      rw [Buffers.dp, (hflush true).2, (hflush _).1]
      rfl
    refine ⟨h.lengths, fun hctl => ?_, fun hctl => ?_, fun hctl => ?_, fun _ => ⟨h.pos, ?_⟩⟩
    · cases hctl
    · cases hctl
    · cases hctl
    · show (writeBehind convert s.subs s.file).1.dp.opcode = DATA →
        s.block ≠ (writeBehind convert s.subs s.file).1.dp.block
      rw [hdp]
      exact h.dp rfl

theorem received_length (d : Datagram) : d.received.data.length ≤ SEGSIZE := by
  cases d with
  | request opcode stuff => exact List.length_take_le _ _
  | packet p => exact List.length_take_le _ _

theorem receive_counted (h : Counted p s) (hloop : s.ctl = .loop) (d : Datagram) (ok : Bool) :
    Counted p (s.receive convert (p.ends convert) d ok).1 := by
  have hset : Counted p { s with subs := s.subs.setDp d.received } := by
    have hother : (s.subs.setDp d.received).other = s.subs.other := by
      rw [Buffers.other, Buffers.setDp_current, Buffers.setDp_other]
      rfl
    refine ⟨h.lengths, h.block, h.ackbuf, fun _ hp hopcode => ?_, fun hclosing => ?_⟩
    · dsimp only at hopcode ⊢
      rw [hother] at hopcode ⊢
      exact h.other hloop hp hopcode
    · change s.ctl = .closing at hclosing
      rw [hloop] at hclosing
      cases hclosing
  unfold Recvfile.receive
  dsimp only
  split
  · exact abort_counted h.lengths
  · split
    · split
      · next hblock =>
        have haccepted := writeit_accepted convert h hloop (received_length d) hblock
          d.received.data.length
        split
        · exact trip_counted haccepted hloop ok
        · exact leave_counted haccepted
      · split
        · exact sendAck_counted hset hloop ok
        · exact hset
    · exact hset

theorem timer_counted (h : Counted p s) (hloop : s.ctl = .loop) (ok : Bool) :
    Counted p (s.timer t convert (p.ends convert) ok).1 := by
  unfold Recvfile.timer
  dsimp only
  split
  · exact counted_ended h.lengths (fun hctl => by cases hctl) (fun hctl => by cases hctl)
  · have htimer : Counted p { s with timeout := s.timeout + t.rexmtval } :=
      ⟨h.lengths, h.block, h.ackbuf, h.other, h.closing⟩
    exact sendAck_counted htimer hloop ok

theorem Recvfile.wake_none {w : Wakeup} (hloop : s.ctl ≠ .loop) (hclosing : s.ctl ≠ .closing) :
    s.wake p t convert w = none := by
  cases hctl : s.ctl with
  | loop => exact absurd hctl hloop
  | closing => exact absurd hctl hclosing
  | _ =>
    unfold Recvfile.wake
    rw [hctl]

theorem step_counted {w : Wakeup} {u : Recvfile} (h : Counted p s)
    (hstep : s.step p t convert w = some u) : Counted p u := by
  have hleft : Counted p { s with ctl := .left } :=
    counted_ended h.lengths (fun hctl => by cases hctl) (fun hctl => by cases hctl)
  by_cases hloop : s.ctl = .loop
  · unfold Recvfile.step Recvfile.wake at hstep
    rw [hloop] at hstep
    cases w with
    | datagram d ok => exact Option.some.inj hstep ▸ receive_counted h hloop d ok
    | alarm ok => exact Option.some.inj hstep ▸ timer_counted h hloop ok
    | failed =>
      cases p with
      | tftp => exact Option.some.inj hstep ▸ h
      | tftpd => exact Option.some.inj hstep ▸ abort_counted (p := .tftpd) h.lengths
  · by_cases hclosing : s.ctl = .closing
    · unfold Recvfile.step Recvfile.wake at hstep
      rw [hclosing] at hstep
      cases w with
      | datagram d ok => exact Option.some.inj hstep ▸ hleft
      | alarm ok => exact Option.some.inj hstep ▸ hleft
      | failed => exact Option.some.inj hstep ▸ hleft
    · rw [Recvfile.step, Recvfile.wake_none hloop hclosing] at hstep
      cases hstep

theorem started_counted (h : Recvfile.Started p convert s) : Counted p s := by
  cases h with
  | tftp subs r ok =>
    refine sendAck_counted (p := .tftp) ⟨fun a ha => absurd ha List.not_mem_nil, fun _ => rfl,
      fun _ hpos => ?_, fun _ hp => ?_, fun hctl => ?_⟩ rfl ok
    · cases hpos
    · cases hp
    · cases hctl
  | tftpd convert ok =>
    refine sendAck_counted (p := .tftpd) ⟨fun a ha => absurd ha List.not_mem_nil, fun _ => rfl,
      fun _ hpos => ?_, fun _ _ hopcode => ?_, fun hctl => ?_⟩ rfl ok
    · cases hpos
    · exact absurd hopcode (by decide)
    · cases hctl

/-! ## The last block again -/

/-- The last block is not the one that is waited for. It is answered if `block - 1` is its
number. -/
theorem receive_again (h : Counted p s) (hloop : s.ctl = .loop) {d : Datagram}
    (hopcode : d.received.opcode = DATA)
    (hblock : d.received.block = UInt16.ofNat s.accepted.length) :
    (s.receive convert (p.ends convert) d true).2 =
      if s.block ≠ 0 then [s.ackbuf] else [] := by
  have hzero : s.block ≠ 0 ↔ (s.accepted.length + 1) % 65536 ≠ 0 := by
    rw [h.block hloop, ne_eq, ← UInt16.toNat_inj, UInt16.toNat_ofNat']
    rfl
  have hbefore := before_iff s.accepted.length
  rw [← hblock, ← h.block hloop, ← hzero] at hbefore
  have hnext : d.received.block ≠ s.block := by
    rw [hblock, h.block hloop]
    exact ofNat_succ_ne _
  unfold Recvfile.receive
  dsimp only
  rw [if_neg (by rw [hopcode]; decide), if_pos hopcode, if_neg hnext]
  by_cases hwrapped : s.block ≠ 0
  · rw [if_pos (hbefore.mpr hwrapped), if_pos hwrapped]
    rfl
  · rw [if_neg (fun heq => hwrapped (hbefore.mp heq)), if_neg hwrapped]

theorem exists_isLast (h : Counted p s) (hpos : 0 < s.accepted.length) : ∃ d, IsLast s d := by
  have hne : s.accepted ≠ [] := List.length_pos_iff.mp hpos
  have hlength := h.lengths _ (List.getLast_mem hne)
  refine ⟨.packet ⟨DATA, UInt16.ofNat s.accepted.length, s.accepted.getLast hne⟩, rfl, rfl, ?_⟩
  rw [List.getLast?_eq_some_getLast hne]
  exact congrArg some (List.take_of_length_le hlength).symm

theorem reacks_iff {s₀ : Recvfile} {ws : List Wakeup} (h : Recvfile.Started p convert s₀)
    (hs : Reached (Recvfile.step p t convert) s₀ ws s) :
    Reacks p t convert s ↔ s.ctl ≠ .closing ∧ (s.ctl = .loop → s.block ≠ 0) := by
  obtain ⟨pre, -, hrun⟩ := hs
  have hcounted : Counted p s :=
    run_invariant (fun _ _ _ hc hstep => step_counted hc hstep) (started_counted h) hrun
  have hwake (d : Datagram) (hloop : s.ctl = .loop) : s.wake p t convert (.datagram d true) =
      some (s.receive convert (p.ends convert) d true) := by
    unfold Recvfile.wake
    rw [hloop]
  constructor
  · intro hreacks
    constructor
    · intro hclosing
      obtain ⟨hpos, hdp⟩ := hcounted.closing hclosing
      obtain ⟨d, hd⟩ := exists_isLast hcounted hpos
      have hsent := hreacks d hd (Tftpd.closing s) (by unfold Recvfile.wake; rw [hclosing])
      have hnot : ¬ (s.subs.dp.opcode = DATA ∧ s.block = s.subs.dp.block) :=
        fun hand => hdp hand.1 hand.2
      rw [Tftpd.closing, if_neg hnot] at hsent
      cases hsent
    · intro hloop hwrapped
      have hpos : 0 < s.accepted.length := by
        have hblock := hcounted.block hloop
        rw [hwrapped, ← UInt16.toNat_inj, UInt16.toNat_ofNat'] at hblock
        have hmod : 0 = (s.accepted.length + 1) % 65536 := hblock
        omega
      obtain ⟨d, hd⟩ := exists_isLast hcounted hpos
      have hsent := hreacks d hd _ (hwake d hloop)
      rw [receive_again hcounted hloop hd.opcode hd.block, if_neg (not_not.mpr hwrapped)] at hsent
      cases hsent
  · rintro ⟨hclosing, hblock⟩ d hd r hr
    by_cases hloop : s.ctl = .loop
    · have hne : s.accepted ≠ [] := by
        intro hnil
        have hdata := hd.data
        rw [hnil] at hdata
        cases hdata
      rw [hwake d hloop] at hr
      obtain rfl := Option.some.inj hr
      rw [receive_again hcounted hloop hd.opcode hd.block, if_pos (hblock hloop),
        hcounted.ackbuf hloop (List.length_pos_iff.mpr hne)]
    · rw [Recvfile.wake_none hloop hclosing] at hr
      cases hr

/-! ## The sender -/

variable {src : List UInt8} {request : Option (List UInt8)} {q : Sendfile}

theorem started_sendOk (h : Sendfile.Started p convert src request q) :
    SendOk convert src request q := by
  cases h with
  | tftp subs r file ok => exact (Client.sendfile_sending subs r file ok).1.ok
  | tftpd convert file ok => exact (Tftpd.sendfile_sending _ convert file ok).1.ok

theorem Sendfile.wake_none {w : Wakeup} (hloop : q.ctl ≠ .loop) :
    q.wake p t convert w = none := by
  cases hctl : q.ctl with
  | loop => exact absurd hctl hloop
  | _ =>
    unfold Sendfile.wake
    rw [hctl]

theorem step_sendOk {w : Wakeup} {u : Sendfile} (h : SendOk convert src request q)
    (hstep : q.step p t convert w = some u) : SendOk convert src request u := by
  by_cases hloop : q.ctl = .loop
  · unfold Sendfile.step Sendfile.wake at hstep
    rw [hloop] at hstep
    cases w with
    | datagram d ok =>
      exact Option.some.inj hstep ▸ (receive_sending (h.loop hloop) hloop d ok).1.ok
    | alarm ok => exact Option.some.inj hstep ▸ (timer_sending (h.loop hloop) hloop t ok).1.ok
    | failed =>
      cases p with
      | tftp => exact Option.some.inj hstep ▸ h
      | tftpd => exact Option.some.inj hstep ▸ sendOk_ended (Or.inl rfl)
  · rw [Sendfile.step, Sendfile.wake_none hloop] at hstep
    cases hstep

/-- The acknowledgement of the block before is answered if `block - 1` is its number. -/
theorem receive_before (h : Sending convert src request q) {d : Datagram} (hd : IsBefore q d) :
    (q.receive convert d true).2 = if q.block ≠ 0 then [sentAt src request q.number] else [] := by
  obtain ⟨n, hn⟩ : ∃ n, q.number = n + 1 := ⟨q.number - 1, by have := hd.later; omega⟩
  have hnumber : q.block = UInt16.ofNat (n + 1) := by rw [h.block, hn]
  have hacked : d.received.block = UInt16.ofNat n := by rw [hd.block, hn, Nat.add_sub_cancel]
  have hzero : q.block ≠ 0 ↔ (n + 1) % 65536 ≠ 0 := by
    rw [hnumber, ne_eq, ← UInt16.toNat_inj, UInt16.toNat_ofNat']
    rfl
  have hbefore := before_iff n
  rw [← hacked, ← hnumber, ← hzero] at hbefore
  have hnext : d.received.block ≠ q.block := by
    rw [hacked, hnumber]
    exact ofNat_succ_ne n
  unfold Sendfile.receive
  dsimp only
  rw [if_neg (by rw [hd.opcode]; decide), if_pos hd.opcode, if_neg hnext]
  by_cases hwrapped : q.block ≠ 0
  · rw [if_pos (hbefore.mpr hwrapped), if_pos hwrapped, ← h.out]
    rfl
  · rw [if_neg (fun heq => hwrapped (hbefore.mp heq)), if_neg hwrapped]

theorem resends_iff {q₀ : Sendfile} {ws : List Wakeup}
    (h : Sendfile.Started p convert src request q₀)
    (hs : Reached (Sendfile.step p t convert) q₀ ws q) :
    Resends p t convert src request q ↔ (q.ctl = .loop → q.number = 0 ∨ q.block ≠ 0) := by
  obtain ⟨pre, -, hrun⟩ := hs
  have hok : SendOk convert src request q :=
    run_invariant (fun _ _ _ hc hstep => step_sendOk hc hstep) (started_sendOk h) hrun
  have hwake (d : Datagram) (hloop : q.ctl = .loop) : q.wake p t convert (.datagram d true) =
      some (q.receive convert d true) := by
    unfold Sendfile.wake
    rw [hloop]
  constructor
  · intro hresends hloop
    rw [or_iff_not_imp_left]
    intro hnumber hwrapped
    have hd : IsBefore q (.packet ⟨ACK, UInt16.ofNat (q.number - 1), []⟩) :=
      ⟨Nat.pos_of_ne_zero hnumber, rfl, rfl⟩
    have hsent := hresends _ hd _ (hwake _ hloop)
    rw [receive_before (hok.loop hloop) hd, if_neg (not_not.mpr hwrapped)] at hsent
    cases hsent
  · intro hblock d hd r hr
    by_cases hloop : q.ctl = .loop
    · have hne : q.block ≠ 0 := (hblock hloop).resolve_left (Nat.ne_of_gt hd.later)
      rw [hwake d hloop] at hr
      obtain rfl := Option.some.inj hr
      rw [receive_before (hok.loop hloop) hd, if_pos hne]
    · rw [Sendfile.wake_none hloop] at hr
      cases hr

/-! ## Both -/

/-- **Duplicates are answered**, in every state that a receiver or a sender can come to, exactly if
`block` is not 0 again and it is not the last wait of tftpd. -/
theorem repeats_iff (p : Program) (t : Timing) (convert : Bool) (ws : List Wakeup) :
    (∀ s₀ s, Recvfile.Started p convert s₀ → Reached (Recvfile.step p t convert) s₀ ws s →
      (Reacks p t convert s ↔ s.ctl ≠ .closing ∧ (s.ctl = .loop → s.block ≠ 0))) ∧
    ∀ src request s₀ s, Sendfile.Started p convert src request s₀ →
      Reached (Sendfile.step p t convert) s₀ ws s →
      (Resends p t convert src request s ↔ (s.ctl = .loop → s.number = 0 ∨ s.block ≠ 0)) :=
  ⟨fun _ _ h hs => reacks_iff h hs, fun _ _ _ _ h hs => resends_iff h hs⟩

def oneByte : Datagram := .packet ⟨DATA, 1, [120]⟩

/-- tftpd after the acknowledgement of the request, and tftpd before that of its first block. -/
theorem repeats_first :
    Reacks .tftpd Tftpd.timing false (Tftpd.recvfile Buffers.static false true).1 ∧
      Resends .tftpd Tftpd.timing false (encoded false [120]) none
        (Tftpd.sendfile Buffers.static false [120] true).1 := by
  obtain ⟨hrecv, hsend⟩ := repeats_iff .tftpd Tftpd.timing false []
  constructor
  · refine (hrecv _ _ (.tftpd false true) (reached_start _ _)).mpr ⟨?_, fun _ => ?_⟩
    · exact (by decide : Ctl.loop ≠ Ctl.closing)
    · exact (by decide : (1 : UInt16) ≠ 0)
  · refine (hsend _ _ _ _ (.tftpd false [120] true) (reached_start _ _)).mpr (fun _ => Or.inr ?_)
    exact (by decide : (1 : UInt16) ≠ 0)

/-- A file of one block comes to tftpd, and the block comes again in the last wait. -/
theorem not_reacks_closing :
    ¬ ∀ p t convert s₀ ws s, Recvfile.Started p convert s₀ →
      Reached (Recvfile.step p t convert) s₀ ws s → Reacks p t convert s := by
  intro h
  have hreacks := h .tftpd Tftpd.timing false _ [.datagram oneByte true] _ (.tftpd false true)
    ⟨_, List.prefix_rfl, rfl⟩
  have hsent := hreacks oneByte ⟨rfl, rfl, rfl⟩ _ rfl
  exact absurd hsent (by decide)

/-! ## Where `block` is 0 again -/

def fullBlock (block : UInt16) : Datagram := .packet ⟨DATA, block, List.replicate SEGSIZE 0⟩

theorem receive_full (t : Timing) (convert : Bool) (hloop : s.ctl = .loop) :
    ∃ u, s.step p t convert (.datagram (fullBlock s.block) true) = some u ∧ u.ctl = .loop ∧
      u.accepted.length = s.accepted.length + 1 := by
  have hdata : (List.replicate SEGSIZE (0 : UInt8)).take SEGSIZE = List.replicate SEGSIZE 0 :=
    List.take_of_length_le (by rw [List.length_replicate])
  have hopcode : DATA ≠ ERROR := by decide
  refine ⟨(s.receive convert (p.ends convert) (fullBlock s.block) true).1, ?_, ?_, ?_⟩
  · unfold Recvfile.step Recvfile.wake
    rw [hloop]
    rfl
  · simp only [Recvfile.receive, fullBlock, Datagram.received, hdata, List.length_replicate,
      if_neg hopcode, if_true]
    exact hloop
  · simp only [Recvfile.receive, fullBlock, Datagram.received, hdata, List.length_replicate,
      if_neg hopcode, if_true]
    exact List.length_append

theorem exists_length (t : Timing) (convert : Bool) {s₀ : Recvfile} (hloop : s₀.ctl = .loop)
    (n : ℕ) :
    ∃ ws s, run (Recvfile.step p t convert) s₀ ws = some s ∧ s.ctl = .loop ∧
      s.accepted.length = s₀.accepted.length + n := by
  induction n with
  | zero => exact ⟨[], s₀, rfl, hloop, rfl⟩
  | succ n ih =>
    obtain ⟨ws, s, hrun, hctl, hlength⟩ := ih
    obtain ⟨u, hstep, huctl, hulength⟩ := receive_full t convert hctl
    refine ⟨_, u, run_snoc_eq_some.mpr ⟨s, hrun, hstep⟩, huctl, ?_⟩
    rw [hulength, hlength, Nat.add_assoc]

/-- A file of 32 MB brings a receiver to a state in which it does not answer the last block. -/
theorem exists_not_reacks {s₀ : Recvfile} (h : Recvfile.Started p convert s₀)
    (hloop : s₀.ctl = .loop) (hnone : s₀.accepted = []) :
    ∃ ws s, Reached (Recvfile.step p t convert) s₀ ws s ∧ s.ctl = .loop ∧
      ¬ Reacks p t convert s := by
  obtain ⟨ws, s, hrun, hctl, hlength⟩ := exists_length t convert hloop 65535
  have hcounted : Counted p s :=
    run_invariant (fun _ _ _ hc hstep => step_counted hc hstep) (started_counted h) hrun
  have hblock : s.block = 0 := by
    rw [hcounted.block hctl, hlength, hnone]
    rfl
  refine ⟨ws, s, ⟨ws, List.prefix_rfl, hrun⟩, hctl, fun hreacks => ?_⟩
  exact ((reacks_iff h ⟨ws, List.prefix_rfl, hrun⟩).mp hreacks).2 hctl hblock

theorem exists_not_reacks_tftpd : ∃ ws s,
    Reached (Recvfile.step .tftpd Tftpd.timing false) (Tftpd.recvfile Buffers.static false true).1
      ws s ∧ s.ctl = .loop ∧ ¬ Reacks .tftpd Tftpd.timing false s :=
  exists_not_reacks (.tftpd false true) rfl rfl

end Netkit.Tftp

import Netkit.Tftp.Sendfile

/-!
# recvfile

`recvfile` of `tftp.c` and `recvfile` of `tftpd.c`. Both acknowledge a block, wait for the next
one and go on while the blocks are full. They differ in how they start and end: the client asks
for the file, and when it stops for any reason it sends an acknowledgement and writes the last
buffer. The server closes the file, acknowledges the last block and waits once more.
-/

namespace Netkit.Tftp

open Netkit.Foundations

/-- The variables of `recvfile`, and the blocks that have been given to `writeit`, which no
code reads. -/
structure Recvfile where
  subs : Buffers
  file : OutFile
  ackbuf : Stamped
  block : UInt16
  timeout : ℕ
  ctl : Ctl
  accepted : List (List UInt8)

/-- The code behind the loop, and the code at `abort`. -/
structure Ends where
  leave : Recvfile → Recvfile × List Stamped
  abort : Recvfile → Recvfile × List Stamped

/-- An acknowledgement, of the block with number `n`. -/
def ackOf (n : ℕ) (block : UInt16) : Stamped := (n, .packet ⟨ACK, block, []⟩)

namespace Recvfile

/-- From `send_ack` to the wait. -/
def sendAck (convert : Bool) (ends : Ends) (s : Recvfile) (ok : Bool) :
    Recvfile × List Stamped :=
  if ok = false then ends.abort s
  else
    let (subs, file) := writeBehind convert s.subs s.file
    ({ s with subs, file }, [s.ackbuf])

def trip (convert : Bool) (ends : Ends) (s : Recvfile) (ok : Bool) : Recvfile × List Stamped :=
  sendAck convert ends
    { s with
      ackbuf := ackOf s.accepted.length s.block
      block := s.block + 1
      timeout := 0 } ok

/-- A datagram comes to `dp`. Its size is not negative, so `writeit` returns what is
expected. -/
def receive (convert : Bool) (ends : Ends) (s : Recvfile) (d : Datagram) (ok : Bool) :
    Recvfile × List Stamped :=
  let dp := d.received
  let s := { s with subs := s.subs.setDp dp }
  if dp.opcode = ERROR then ends.abort s
  else if dp.opcode = DATA then
    if dp.block = s.block then
      let (subs, file) := writeit convert dp.data.length s.subs s.file
      let s := { s with subs, file, accepted := s.accepted ++ [dp.data] }
      if dp.data.length = SEGSIZE then trip convert ends s ok else ends.leave s
    else if (dp.block.toNat : Int) = s.block.toNat - 1 then sendAck convert ends s ok
    else (s, [])
  else (s, [])

def timer (t : Timing) (convert : Bool) (ends : Ends) (s : Recvfile) (ok : Bool) :
    Recvfile × List Stamped :=
  let timeout := s.timeout + t.rexmtval
  if t.maxtimeout ≤ timeout then ({ s with timeout, ctl := .timedOut }, [])
  else sendAck convert ends { s with timeout } ok

/-- `write_behind`, and the file is closed. -/
def flush (convert : Bool) (s : Recvfile) : Recvfile :=
  let (subs, file) := writeBehind convert s.subs s.file
  { s with subs, file }

end Recvfile

/-- The client goes to `abort` in any case. There it acknowledges `block`, which is the last
block after a normal end, and the next one otherwise. -/
def Client.finish (convert : Bool) (ctl : Ctl) (number : ℕ) (s : Recvfile) :
    Recvfile × List Stamped :=
  let ack := ackOf number s.block
  ({ s with ackbuf := ack, ctl }.flush convert, [ack])

def Client.ends (convert : Bool) : Ends where
  leave s := Client.finish convert .left s.accepted.length s
  abort s := Client.finish convert .aborted (s.accepted.length + 1) s

/-- The server closes the file before it acknowledges the last block. At `abort` it only
returns. -/
def Tftpd.ends (convert : Bool) : Ends where
  leave s :=
    let ack := ackOf s.accepted.length s.block
    ({ s.flush convert with ackbuf := ack, ctl := .closing }, [ack])
  abort s := ({ s with ctl := .aborted }, [])

/-- The server's last wait. It looks at `dp`, not at what it has read. -/
def Tftpd.closing (s : Recvfile) : Recvfile × List Stamped :=
  ({ s with ctl := .left },
    if s.subs.dp.opcode = DATA ∧ s.block = s.subs.dp.block then [s.ackbuf] else [])

/-- `recvfile` of the client, up to the first wait. -/
def Client.recvfile (subs : Buffers) (r : Request) (ok : Bool) : Recvfile × List Stamped :=
  Recvfile.sendAck r.mode.convert (Client.ends r.mode.convert)
    { subs := subs.rwInit false
      file := {}
      ackbuf := (0, .request RRQ (makerequest r))
      block := 1
      timeout := 0
      ctl := .loop
      accepted := [] } ok

/-- `recvfile` of the server, up to the first wait. -/
def Tftpd.recvfile (subs : Buffers) (convert : Bool) (ok : Bool) : Recvfile × List Stamped :=
  Recvfile.trip convert (Tftpd.ends convert)
    { subs := subs.rwInit false
      file := {}
      ackbuf := ackOf 0 0
      block := 0
      timeout := 0
      ctl := .loop
      accepted := [] } ok

/-! ## What is accepted and written -/

variable {convert : Bool} {src : List UInt8} {asked : Option (List UInt8)} {ends : Ends}
  {s : Recvfile}

/-- What a receiver sends: an acknowledgement has what 16 bits hold of its number, and a request
is the one that the client has made. -/
structure Numbered (asked : Option (List UInt8)) (a : Stamped) : Prop where
  ack : a.2.received.opcode = ACK → a.2.received.block = UInt16.ofNat a.1
  request : ∀ opcode stuff, a.2 = .request opcode stuff → asked = some stuff

/-- All that was acknowledged has been accepted. Only a client that stops at `abort` acknowledges
more than that. -/
def Honest (asked : Option (List UInt8)) (ctl : Ctl) : Prop := asked = none ∨ ctl ≠ .aborted

/-- The first `k` blocks are not the end of what is sent. -/
def Full (src : List UInt8) (k : ℕ) : Prop := ∀ i < k, (block SEGSIZE src i).length = SEGSIZE

/-- The blocks that have been accepted are the first ones, and `block` is the number of the last
of them plus `ahead`. In the loop, where `ahead` is 1, none of them was the end. -/
structure Taken (convert : Bool) (src : List UInt8) (ahead : ℕ) (s : Recvfile) : Prop where
  accepted : s.accepted = blocks SEGSIZE src s.accepted.length
  full : Full src (s.accepted.length + ahead - 1)
  block : s.block = UInt16.ofNat (s.accepted.length + ahead)
  writer : Writer convert s.accepted s.subs s.file

/-- The invariant. In the loop one more block is waited for. After a normal end everything has
been accepted and written. -/
structure RecvOk (convert : Bool) (src : List UInt8) (asked : Option (List UInt8))
    (s : Recvfile) : Prop where
  accepted : s.accepted = blocks SEGSIZE src s.accepted.length
  written : ∃ j, j ≤ s.accepted.length ∧ s.accepted.length ≤ j + 1 ∧
    s.file = (decoded convert (blocks SEGSIZE src j).flatten).file
  loop : s.ctl = .loop → Taken convert src 1 s
  ackbuf : Honest asked s.ctl → s.ackbuf.1 ≤ s.accepted.length ∧ Numbered asked s.ackbuf
  complete : s.ctl = .closing ∨ s.ctl = .left →
    s.accepted.flatten = src ∧ s.file = (decoded convert src).file
  full : s.ctl ≠ .closing → s.ctl ≠ .left → Full src s.accepted.length

/-- What a step leads to: the invariant, and what is sent on the way. -/
structure RecvStep (convert : Bool) (src : List UInt8) (asked : Option (List UInt8))
    (r : Recvfile × List Stamped) : Prop where
  ok : RecvOk convert src asked r.1
  numbered : ∀ a ∈ r.2, Numbered asked a
  sent : Honest asked r.1.ctl → ∀ a ∈ r.2, a.1 ≤ r.1.accepted.length

theorem Taken.written {ahead : ℕ} (h : Taken convert src ahead s) :
    ∃ j, j ≤ s.accepted.length ∧ s.accepted.length ≤ j + 1 ∧
      s.file = (decoded convert (blocks SEGSIZE src j).flatten).file := by
  rcases h.writer.next with ⟨-, -, hwritten⟩ | ⟨-, init, last, heq, -, hwritten⟩
  · refine ⟨s.accepted.length, le_rfl, Nat.le_succ _, ?_⟩
    rw [← h.accepted]
    exact congrArg Writing.file hwritten
  · have hlen : s.accepted.length = init.length + 1 := by simp [heq]
    have hinit : init = blocks SEGSIZE src init.length := by
      have haccepted := h.accepted
      rw [hlen, blocks_succ, heq] at haccepted
      exact (List.append_inj' haccepted rfl).1
    refine ⟨init.length, by omega, by omega, ?_⟩
    rw [← hinit]
    exact congrArg Writing.file hwritten

theorem Taken.recvOk (h : Taken convert src 1 s) (hloop : s.ctl = .loop)
    (hack : s.ackbuf.1 ≤ s.accepted.length ∧ Numbered asked s.ackbuf) : RecvOk convert src asked s := by
  refine ⟨h.accepted, h.written, fun _ => h, fun _ => hack, fun hover => ?_,
    fun _ _ => h.full⟩
  rcases hover with hover | hover <;> rw [hloop] at hover <;> cases hover

theorem Taken.flush {ahead : ℕ} (h : Taken convert src ahead s) :
    Taken convert src ahead (s.flush convert) ∧
      (s.flush convert).file = (decoded convert s.accepted.flatten).file := by
  obtain ⟨hwriter, hfile⟩ := writeBehind_flushed h.writer
  exact ⟨⟨h.accepted, h.full, h.block, hwriter⟩, hfile⟩

theorem Taken.recvOk_ended (h : Taken convert src 1 s)
    (hctl : s.ctl = .aborted ∨ s.ctl = .timedOut)
    (hack : Honest asked s.ctl → s.ackbuf.1 ≤ s.accepted.length ∧ Numbered asked s.ackbuf) :
    RecvOk convert src asked s := by
  refine ⟨h.accepted, h.written, fun hloop => ?_, hack, fun hover => ?_, fun _ _ => h.full⟩
  · rcases hctl with hctl | hctl <;> rw [hctl] at hloop <;> cases hloop
  · rcases hctl with hctl | hctl <;> rw [hctl] at hover <;> rcases hover with h | h <;> cases h

/-- What the code behind the loop and at `abort` has to do. -/
structure EndsOk (convert : Bool) (src : List UInt8) (asked : Option (List UInt8))
    (ends : Ends) : Prop where
  leave : ∀ s, Taken convert src 0 s → s.accepted.flatten = src →
    RecvStep convert src asked (ends.leave s) ∧ (ends.leave s).1.accepted = s.accepted
  abort : ∀ s, Taken convert src 1 s →
    s.ackbuf.1 ≤ s.accepted.length ∧ Numbered asked s.ackbuf →
    RecvStep convert src asked (ends.abort s) ∧ (ends.abort s).1.accepted = s.accepted

theorem numbered_ackOf (n : ℕ) : Numbered asked (ackOf n (UInt16.ofNat n)) :=
  ⟨fun _ => rfl, fun _ _ h => nomatch h⟩

theorem recvStep_over (h : Taken convert src 0 s) (hall : s.accepted.flatten = src) {ctl : Ctl}
    (hctl : ctl = .closing ∨ ctl = .left) :
    RecvStep convert src asked
      ({ s.flush convert with ackbuf := ackOf s.accepted.length s.block, ctl := ctl },
        [ackOf s.accepted.length s.block]) := by
  obtain ⟨hflush, hfile⟩ := Taken.flush h
  have hnum : Numbered asked (ackOf s.accepted.length s.block) := by
    rw [h.block]
    exact numbered_ackOf _
  refine ⟨⟨h.accepted, hflush.written, fun hloop => ?_, fun _ => ⟨le_rfl, hnum⟩,
    fun _ => ⟨hall, ?_⟩, fun hclosing hleft => ?_⟩, fun a ha => ?_, fun _ a ha => ?_⟩
  · rcases hctl with rfl | rfl <;> cases hloop
  · exact hfile.trans (by rw [hall])
  · rcases hctl with rfl | rfl
    · exact absurd rfl hclosing
    · exact absurd rfl hleft
  · exact (List.mem_singleton.mp ha) ▸ hnum
  · exact le_of_eq (congrArg Prod.fst (List.mem_singleton.mp ha))

theorem Client.ends_ok (convert : Bool) (src stuff : List UInt8) :
    EndsOk convert src (some stuff) (Client.ends convert) := by
  refine ⟨fun s h hall => ⟨recvStep_over h hall (Or.inr rfl), rfl⟩, fun s h _ => ?_⟩
  obtain ⟨hflush, -⟩ := Taken.flush h
  have hnum : Numbered (some stuff) (ackOf (s.accepted.length + 1) s.block) := by
    rw [h.block]
    exact numbered_ackOf _
  have hended : Taken convert src 1 ((Client.ends convert).abort s).1 :=
    ⟨hflush.accepted, hflush.full, hflush.block, hflush.writer⟩
  have hnot : ¬ Honest (some stuff) ((Client.ends convert).abort s).1.ctl := by
    rintro (hnone | hne)
    · cases hnone
    · exact hne rfl
  refine ⟨⟨hended.recvOk_ended (Or.inl rfl) (fun hh => absurd hh hnot), fun a ha => ?_,
    fun hh => absurd hh hnot⟩, rfl⟩
  exact (List.mem_singleton.mp ha) ▸ hnum

theorem Tftpd.ends_ok (convert : Bool) (src : List UInt8) :
    EndsOk convert src none (Tftpd.ends convert) := by
  refine ⟨fun s h hall => ⟨recvStep_over h hall (Or.inl rfl), rfl⟩, fun s h hack => ?_⟩
  have hended : Taken convert src 1 { s with ctl := .aborted } :=
    ⟨h.accepted, h.full, h.block, h.writer⟩
  exact ⟨⟨hended.recvOk_ended (Or.inl rfl) (fun _ => hack), fun a ha => absurd ha List.not_mem_nil,
    fun _ a ha => absurd ha List.not_mem_nil⟩, rfl⟩

section Steps

variable (hends : EndsOk convert src asked ends)

include hends

theorem sendAck_receiving (h : Taken convert src 1 s) (hloop : s.ctl = .loop)
    (hack : s.ackbuf.1 ≤ s.accepted.length ∧ Numbered asked s.ackbuf) (ok : Bool) :
    RecvStep convert src asked (s.sendAck convert ends ok) ∧
      (s.sendAck convert ends ok).1.accepted = s.accepted := by
  unfold Recvfile.sendAck
  split
  · exact hends.abort s h hack
  · refine ⟨⟨(Taken.flush h).1.recvOk hloop hack, fun a ha => ?_, fun _ a ha => ?_⟩, rfl⟩
    · exact (List.mem_singleton.mp ha) ▸ hack.2
    · exact (List.mem_singleton.mp ha) ▸ hack.1

theorem trip_receiving (h : Taken convert src 0 s) (hfull : Full src s.accepted.length)
    (hloop : s.ctl = .loop) (ok : Bool) :
    RecvStep convert src asked (s.trip convert ends ok) ∧
      (s.trip convert ends ok).1.accepted = s.accepted := by
  have htaken : Taken convert src 1 { s with
      ackbuf := ackOf s.accepted.length s.block
      block := s.block + 1
      timeout := 0 } := by
    refine ⟨h.accepted, hfull, ?_, h.writer⟩
    simp only [h.block]
    exact (UInt16.ofNat_add s.accepted.length 1).symm
  refine sendAck_receiving hends htaken hloop ⟨le_rfl, ?_⟩ ok
  simp only [h.block]
  exact numbered_ackOf _

/-- What a datagram does: the block that is waited for is accepted, and everything else changes
nothing that has been accepted. -/
theorem receive_receiving (h : RecvOk convert src asked s) (hloop : s.ctl = .loop) {d : Datagram}
    (hd : d.received.opcode = DATA → d.received.block = s.block →
      d.received.data = Foundations.block SEGSIZE src s.accepted.length) (ok : Bool) :
    RecvStep convert src asked (s.receive convert ends d ok) ∧
      ((s.receive convert ends d ok).1.accepted = s.accepted ∨
        (s.receive convert ends d ok).1.accepted = s.accepted ++ [d.received.data] ∧
          d.received.opcode = DATA ∧ d.received.block = s.block) := by
  have htaken := h.loop hloop
  have hack := h.ackbuf (Or.inr (by simp [hloop]))
  have hset : Taken convert src 1 { s with subs := s.subs.setDp d.received } :=
    ⟨htaken.accepted, htaken.full, htaken.block, setDp_writer htaken.writer _⟩
  have hstay : RecvStep convert src asked ({ s with subs := s.subs.setDp d.received }, []) :=
    ⟨hset.recvOk hloop hack, fun a ha => absurd ha List.not_mem_nil,
      fun _ a ha => absurd ha List.not_mem_nil⟩
  unfold Recvfile.receive
  simp only
  split
  · obtain ⟨hstep, hsame⟩ := hends.abort _ hset hack
    exact ⟨hstep, Or.inl hsame⟩
  · split
    · rename_i hdata
      split
      · -- The next block.
        rename_i hblock
        have hpayload := hd hdata hblock
        have hdp : (s.subs.setDp d.received).dp.data = d.received.data := by simp [Buffers.dp]
        have hwrite := writeit_writer (setDp_writer htaken.writer d.received) hdp
        have hnext : Taken convert src 0 { s with
            subs := (writeit convert d.received.data.length (s.subs.setDp d.received) s.file).1
            file := (writeit convert d.received.data.length (s.subs.setDp d.received) s.file).2
            accepted := s.accepted ++ [d.received.data] } := by
          refine ⟨?_, ?_, ?_, hwrite⟩
          · simp only [List.length_append, List.length_singleton]
            rw [blocks_succ, ← htaken.accepted, hpayload]
          · simpa using htaken.full
          · simpa using htaken.block
        split
        · rename_i hlast
          have hfull : Full src (s.accepted ++ [d.received.data]).length := by
            intro i hi
            rw [List.length_append, List.length_singleton] at hi
            rcases Nat.lt_succ_iff_lt_or_eq.mp hi with hi | rfl
            · exact htaken.full i hi
            · rw [← hpayload, hlast]
          obtain ⟨hstep, hsame⟩ := trip_receiving hends hnext hfull hloop ok
          exact ⟨hstep, Or.inr ⟨hsame, hdata, hblock⟩⟩
        · rename_i hshort
          have hall : (s.accepted ++ [d.received.data]).flatten = src := by
            rw [htaken.accepted, hpayload, ← blocks_succ]
            apply blocks_eq_of_short
            rwa [← hpayload]
          obtain ⟨hstep, hsame⟩ := hends.leave _ hnext hall
          exact ⟨hstep, Or.inr ⟨hsame, hdata, hblock⟩⟩
      · split
        · obtain ⟨hstep, hsame⟩ := sendAck_receiving hends hset hloop hack ok
          exact ⟨hstep, Or.inl hsame⟩
        · exact ⟨hstay, Or.inl rfl⟩
    · exact ⟨hstay, Or.inl rfl⟩

theorem timer_receiving (h : RecvOk convert src asked s) (hloop : s.ctl = .loop) (t : Timing)
    (ok : Bool) : RecvStep convert src asked (s.timer t convert ends ok) ∧
      (s.timer t convert ends ok).1.accepted = s.accepted := by
  have htaken := h.loop hloop
  have hack := h.ackbuf (Or.inr (by simp [hloop]))
  unfold Recvfile.timer
  simp only
  split
  · have hended : Taken convert src 1
        { s with timeout := s.timeout + t.rexmtval, ctl := .timedOut } :=
      ⟨htaken.accepted, htaken.full, htaken.block, htaken.writer⟩
    exact ⟨⟨hended.recvOk_ended (Or.inr rfl) (fun _ => hack), fun a ha => absurd ha List.not_mem_nil,
      fun _ a ha => absurd ha List.not_mem_nil⟩, rfl⟩
  · have htimer : Taken convert src 1 { s with timeout := s.timeout + t.rexmtval } :=
      ⟨htaken.accepted, htaken.full, htaken.block, htaken.writer⟩
    exact sendAck_receiving hends htimer hloop hack ok

end Steps

theorem closing_receiving (h : RecvOk convert src asked s) (hclosing : s.ctl = .closing)
    {sent : List Stamped} (hsent : ∀ a ∈ sent, a = s.ackbuf) :
    RecvStep convert src asked ({ s with ctl := .left }, sent) := by
  have hack := h.ackbuf (Or.inr (by simp [hclosing]))
  refine ⟨⟨h.accepted, h.written, fun hloop => (nomatch hloop), fun _ => hack, fun _ =>
    h.complete (Or.inl hclosing), fun _ hne => absurd rfl hne⟩, fun a ha => ?_, fun _ a ha => ?_⟩
  · rw [hsent a ha]
    exact hack.2
  · rw [hsent a ha]
    exact hack.1

/-! ## The start -/

theorem Client.recvfile_receiving (subs : Buffers) (r : Request) (src : List UInt8)
    (ok : Bool) : RecvStep r.mode.convert src (some (makerequest r)) (Client.recvfile subs r ok) ∧
      (Client.recvfile subs r ok).1.accepted = [] := by
  unfold Client.recvfile
  have hasked : Numbered (some (makerequest r)) (0, .request RRQ (makerequest r)) := by
    refine ⟨fun h => absurd h (by simp [Datagram.received, RRQ, ACK]), fun opcode stuff heq => ?_⟩
    exact congrArg some (Datagram.request.inj heq).2
  apply sendAck_receiving (Client.ends_ok _ _ _) ?_ rfl ⟨le_rfl, hasked⟩ ok
  exact ⟨rfl, fun i hi => absurd hi (Nat.not_lt_zero i), rfl, wInit_writer _ _⟩

theorem Tftpd.recvfile_receiving (subs : Buffers) (convert : Bool) (src : List UInt8)
    (ok : Bool) : RecvStep convert src none (Tftpd.recvfile subs convert ok) ∧
      (Tftpd.recvfile subs convert ok).1.accepted = [] := by
  unfold Tftpd.recvfile
  have hfull : Full src 0 := fun i hi => absurd hi (Nat.not_lt_zero i)
  exact trip_receiving (Tftpd.ends_ok _ _) ⟨rfl, hfull, rfl, wInit_writer _ _⟩ hfull rfl ok

end Netkit.Tftp

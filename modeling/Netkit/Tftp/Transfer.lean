import Netkit.Foundations.Lockstep
import Netkit.Tftp.Recvfile

/-!
# A sender and a receiver

What holds between a `sendfile` and a `recvfile`, whichever of them is the client. The network
keeps all datagrams that were ever sent, and may deliver any of them at any time.
-/

namespace Netkit.Tftp

open Netkit.Foundations

/-- A sender at number `n`, a receiver, and all that was ever sent. -/
structure Linked (convert : Bool) (src : List UInt8) (request asked : Option (List UInt8))
    (n : ℕ) (r : Recvfile) (datas acks : List Stamped) : Prop where
  recv : RecvOk convert src asked r
  sent : ∀ d ∈ datas, d = sentAt src request d.1
  numbered : ∀ a ∈ acks, Numbered asked a
  lockstep : Honest asked r.ctl → Lockstep n (r.accepted.length + 1) datas acks

variable {convert : Bool} {src : List UInt8} {request asked : Option (List UInt8)} {n : ℕ}
  {r : Recvfile} {datas acks : List Stamped} {ends : Ends} {s : Sendfile}

theorem ofNat_inj_mod {a b : ℕ} (h : UInt16.ofNat a = UInt16.ofNat b) : a % 65536 = b % 65536 := by
  have := congrArg UInt16.toNat h
  simpa using this

theorem received_sentAt {d : Stamped} (hd : d = sentAt src request d.1)
    (hdata : d.2.received.opcode = DATA) :
    d.2.received = ⟨DATA, UInt16.ofNat d.1, block SEGSIZE src (d.1 - 1)⟩ := by
  have htake : ∀ i, (block SEGSIZE src i).take SEGSIZE = block SEGSIZE src i := fun i =>
    List.take_of_length_le (block_length_le i)
  have hpacket : ∀ m, (dataOf src m).2.received =
      ⟨DATA, UInt16.ofNat m, block SEGSIZE src (m - 1)⟩ := fun m => by
    simp only [dataOf, Datagram.received, htake]
  obtain ⟨m, x⟩ := d
  cases m with
  | zero =>
    cases request with
    | none =>
      rw [hd]
      exact hpacket 0
    | some stuff =>
      rw [hd] at hdata
      exact absurd hdata (by simp [sentAt, Datagram.received, WRQ, DATA])
  | succ m =>
    have hsent : sentAt src request (m + 1) = dataOf src (m + 1) := by cases request <;> rfl
    rw [hsent] at hd
    rw [hd]
    exact hpacket (m + 1)

theorem Linked.replies (h : Linked convert src request asked n r datas acks)
    {t : Recvfile × List Stamped} (hstep : RecvStep convert src asked t)
    (hlock : Honest asked t.1.ctl → Lockstep n (t.1.accepted.length + 1) datas acks) :
    Linked convert src request asked n t.1 datas (acks ++ t.2) := by
  refine ⟨hstep.ok, h.sent, fun a ha => ?_, fun hne => ?_⟩
  · rcases List.mem_append.mp ha with ha | ha
    · exact h.numbered a ha
    · exact hstep.numbered a ha
  · exact (hlock hne).reply (fun a ha => Nat.lt_succ_of_le (hstep.sent hne a ha))

theorem linked_data (hends : EndsOk convert src asked ends)
    (h : Linked convert src request asked n r datas acks) (hloop : r.ctl = .loop) {d : Stamped}
    (hd : d ∈ datas)
    (hlate : d.2.received.opcode = DATA → InTime 65536 d.1 (r.accepted.length + 1)) (ok : Bool) :
    Linked convert src request asked n (r.receive convert ends d.2 ok).1 datas
      (acks ++ (r.receive convert ends d.2 ok).2) := by
  have hlock := h.lockstep (Or.inr (by simp [hloop]))
  have htaken := h.recv.loop hloop
  have hnumber : d.2.received.opcode = DATA → d.2.received.block = r.block →
      d.1 = r.accepted.length + 1 ∧ r.accepted.length + 1 = n := by
    intro hdata hblock
    rw [received_sentAt (h.sent d hd) hdata, htaken.block] at hblock
    exact hlock.accepted hd (hlate hdata) (ofNat_inj_mod hblock)
  obtain ⟨hstep, hsame | ⟨hnext, hdata, hblock⟩⟩ := receive_receiving hends h.recv hloop
    (fun hdata hblock => by
      rw [received_sentAt (h.sent d hd) hdata, (hnumber hdata hblock).1]
      rfl) ok
  · exact h.replies hstep (fun _ => by rwa [hsame])
  · refine h.replies hstep (fun _ => ?_)
    rw [hnext, List.length_append, List.length_singleton]
    exact hlock.accept (hnumber hdata hblock).2

theorem linked_closing (h : Linked convert src request asked n r datas acks)
    (hclosing : r.ctl = .closing) {t : Recvfile × List Stamped}
    (ht : RecvStep convert src asked t) (hsame : t.1.accepted = r.accepted) :
    Linked convert src request asked n t.1 datas (acks ++ t.2) :=
  h.replies ht (fun _ => by
    rw [hsame]
    exact h.lockstep (Or.inr (by simp [hclosing])))

theorem linked_alarm (hends : EndsOk convert src asked ends)
    (h : Linked convert src request asked n r datas acks) (hloop : r.ctl = .loop) (t : Timing)
    (ok : Bool) :
    Linked convert src request asked n (r.timer t convert ends ok).1 datas
      (acks ++ (r.timer t convert ends ok).2) := by
  obtain ⟨hstep, hsame⟩ := timer_receiving hends h.recv hloop t ok
  exact h.replies hstep (fun _ => by
    rw [hsame]
    exact h.lockstep (Or.inr (by simp [hloop])))

theorem Linked.sends (h : Linked convert src request asked n r datas acks)
    {t : Sendfile × List Stamped} (hstep : SendStep convert src request t)
    (hlock : Honest asked r.ctl → Lockstep t.1.number (r.accepted.length + 1) datas acks) :
    Linked convert src request asked t.1.number r (datas ++ t.2) acks := by
  have hstamp : ∀ m, (sentAt src request m).1 = m := fun m => by
    cases m <;> cases request <;> rfl
  refine ⟨h.recv, fun d hd => ?_, h.numbered, fun hne => ?_⟩
  · rcases List.mem_append.mp hd with hd | hd
    · exact h.sent d hd
    · have heq := hstep.sent d hd
      rw [heq, hstamp]
  · refine (hlock hne).send (fun d hd => ?_)
    rw [hstep.sent d hd, hstamp]

theorem linked_ack (h : Linked convert src request asked s.number r datas acks)
    (hs : SendOk convert src request s) (hloop : s.ctl = .loop) {a : Stamped} (ha : a ∈ acks)
    (hlate : a.2.received.opcode = ACK → InTime 65536 a.1 s.number) (ok : Bool) :
    SendOk convert src request (s.receive convert a.2 ok).1 ∧
      Linked convert src request asked (s.receive convert a.2 ok).1.number r
        (datas ++ (s.receive convert a.2 ok).2) acks := by
  obtain ⟨hstep, ⟨hsame, -⟩ | ⟨hnext, hack, hblock⟩⟩ := receive_sending (hs.loop hloop) hloop a.2 ok
  · refine ⟨hstep.ok, h.sends hstep (fun hne => ?_)⟩
    rw [hsame]
    exact h.lockstep hne
  · refine ⟨hstep.ok, h.sends hstep (fun hne => ?_)⟩
    have hlock := h.lockstep hne
    have hmod := ofNat_inj_mod (((h.numbered a ha).ack hack).symm.trans hblock)
    obtain ⟨-, hw⟩ := hlock.acked ha (hlate hack) hmod
    rw [hnext]
    exact hlock.advance (by omega)

theorem linked_resend (h : Linked convert src request asked s.number r datas acks)
    (hs : SendOk convert src request s) (hloop : s.ctl = .loop) (t : Timing) (ok : Bool) :
    SendOk convert src request (s.timer t convert ok).1 ∧
      Linked convert src request asked (s.timer t convert ok).1.number r
        (datas ++ (s.timer t convert ok).2) acks := by
  obtain ⟨hstep, hsame, -⟩ := timer_sending (hs.loop hloop) hloop t ok
  refine ⟨hstep.ok, h.sends hstep (fun hne => ?_)⟩
  rw [hsame]
  exact h.lockstep hne

/-- A sender has left its loop after a block. The receiver has this block, which was the last,
and has closed the file. -/
theorem linked_over (h : Linked convert src request asked s.number r datas acks)
    (hs : SendOk convert src request s) (hleft : s.ctl = .left) (hnumber : 2 ≤ s.number)
    (hctl : Honest asked r.ctl) : r.file = (decoded convert src).file := by
  obtain ⟨m, hm, hshort⟩ := hs.left hleft
  have hbehind := (h.lockstep hctl).behind
  by_contra hne
  have hnot : r.ctl ≠ .closing ∧ r.ctl ≠ .left := by
    constructor <;> intro hover
    · exact hne (h.recv.complete (Or.inl hover)).2
    · exact hne (h.recv.complete (Or.inr hover)).2
  apply hshort
  rw [sizeAt_pos (by omega)]
  exact congrArg Nat.cast (h.recv.full hnot.1 hnot.2 (m - 1) (by omega))

end Netkit.Tftp

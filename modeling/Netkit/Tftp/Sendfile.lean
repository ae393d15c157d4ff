import Netkit.Tftp.Netascii
import Netkit.Tftp.Buffers

/-!
# sendfile

`sendfile` of `tftp.c` and `sendfile` of `tftpd.c`. Both send a block, wait for its
acknowledgement and go on while the blocks are full. The client sends its request like a block
with the number 0.
-/

namespace Netkit.Tftp

open Netkit.Foundations

/-- Where a function stands: in its loop, in the last wait of a server, or it has left the loop
normally, through `abort`, or through the timeout. -/
inductive Ctl
  | loop
  | closing
  | left
  | aborted
  | timedOut
  deriving DecidableEq

/-- `rexmtval` and `maxtimeout`. -/
structure Timing where
  rexmtval : ℕ
  maxtimeout : ℕ

/-- `TIMEOUT` and `maxtimeout` of `tftpd.c`. -/
def Tftpd.timing : Timing := ⟨5, 5 * 5⟩

/-- A datagram, with the number of its block. `th_block` is what 16 bits hold of the number.
No code reads the number. -/
abbrev Stamped := ℕ × Datagram

/-- What `recvfrom` puts in a buffer. A request overlaps `th_block` and `th_data`. -/
def Datagram.received : Datagram → Packet
  | .request opcode stuff =>
    { opcode
      block := (stuff.getD 0 0).toUInt16 <<< 8 ||| (stuff.getD 1 0).toUInt16
      data := (stuff.drop 2).take SEGSIZE }
  | .packet p => { p with data := p.data.take SEGSIZE }

/-- The variables of `sendfile`. `firsttrip` has the request that lies at `dp` meanwhile.
`number` is the number of the block: `block` without the limit of 16 bits. -/
structure Sendfile where
  subs : Buffers
  file : List UInt8
  firsttrip : Option (List UInt8)
  size : Int
  block : UInt16
  timeout : ℕ
  ctl : Ctl
  number : ℕ

namespace Sendfile

/-- The `size + 4` bytes at `dp`. -/
def out (s : Sendfile) : Stamped :=
  match s.firsttrip with
  | some stuff => (s.number, .request WRQ stuff)
  | none => (s.number, .packet { s.subs.dp with data := s.subs.dp.data.take s.size.toNat })

/-- From `send_data` to the wait. `ok` says whether the datagram could be sent. -/
def sendData (convert : Bool) (s : Sendfile) (ok : Bool) : Sendfile × List Stamped :=
  if ok = false then ({ s with ctl := .aborted }, [])
  else
    let (subs, file) := readAhead convert s.subs s.file
    ({ s with subs, file }, [s.out])

/-- A trip with data. The files can be read, so `size` is not negative. -/
def trip (convert : Bool) (s : Sendfile) (ok : Bool) : Sendfile × List Stamped :=
  let (subs, file) := readit convert s.subs s.file
  let subs' := subs.setDp { opcode := DATA, block := s.block, data := subs.dp.data }
  sendData convert
    { s with firsttrip := none, subs := subs', file, size := subs.size, timeout := 0 } ok

def acked (convert : Bool) (s : Sendfile) (ok : Bool) : Sendfile × List Stamped :=
  let s := { s with block := s.block + 1, number := s.number + 1 }
  if s.size = (SEGSIZE : Int) then trip convert s ok else ({ s with ctl := .left }, [])

def receive (convert : Bool) (s : Sendfile) (d : Datagram) (ok : Bool) :
    Sendfile × List Stamped :=
  let ap := d.received
  if ap.opcode = ERROR then ({ s with ctl := .aborted }, [])
  else if ap.opcode = ACK then
    if ap.block = s.block then acked convert s ok
    else if (ap.block.toNat : Int) = s.block.toNat - 1 then sendData convert s ok
    else (s, [])
  else (s, [])

def timer (t : Timing) (convert : Bool) (s : Sendfile) (ok : Bool) : Sendfile × List Stamped :=
  let timeout := s.timeout + t.rexmtval
  if t.maxtimeout ≤ timeout then ({ s with timeout, ctl := .timedOut }, [])
  else sendData convert { s with timeout } ok

end Sendfile

/-- `sendfile` of the client, up to the first wait. -/
def Client.sendfile (subs : Buffers) (r : Request) (file : List UInt8) (ok : Bool) :
    Sendfile × List Stamped :=
  Sendfile.sendData r.mode.convert
    { subs := subs.rwInit true
      file
      firsttrip := some (makerequest r)
      size := (r.length : Int) - 4
      block := 0
      timeout := 0
      ctl := .loop
      number := 0 } ok

/-- `sendfile` of the server, up to the first wait. -/
def Tftpd.sendfile (subs : Buffers) (convert : Bool) (file : List UInt8) (ok : Bool) :
    Sendfile × List Stamped :=
  Sendfile.trip convert
    { subs := subs.rwInit true
      file
      firsttrip := none
      size := 0
      block := 1
      timeout := 0
      ctl := .loop
      number := 1 } ok

/-! ## What is sent -/

/-- The datagram with block number `n`, counted from 1, of what is sent for the file. -/
def dataOf (src : List UInt8) (n : ℕ) : Stamped :=
  (n, .packet ⟨DATA, UInt16.ofNat n, block SEGSIZE src (n - 1)⟩)

/-- What a sender with number `n` sends. -/
def sentAt (src : List UInt8) (request : Option (List UInt8)) (n : ℕ) : Stamped :=
  match n, request with
  | 0, some stuff => (0, .request WRQ stuff)
  | n, _ => dataOf src n

def sizeAt (src : List UInt8) (request : Option (List UInt8)) (n : ℕ) : Int :=
  match n, request with
  | 0, some stuff => 2 + stuff.length - 4
  | n, _ => (block SEGSIZE src (n - 1)).length

/-- The loop, while it runs. In the client's first trip the request is sent. -/
structure Sending (convert : Bool) (src : List UInt8) (request : Option (List UInt8))
    (s : Sendfile) : Prop where
  reader : Reader convert src s.number s.subs s.file
  block : s.block = UInt16.ofNat s.number
  size : s.size = sizeAt src request s.number
  first : s.number = 0 → s.firsttrip = request ∧ request.isSome = true
  later : 0 < s.number → s.firsttrip = none ∧
    s.subs.dp = ⟨DATA, UInt16.ofNat s.number, Foundations.block SEGSIZE src (s.number - 1)⟩

/-- The loop, or what is known after it has ended normally: the last thing acknowledged was
not full. -/
structure SendOk (convert : Bool) (src : List UInt8) (request : Option (List UInt8))
    (s : Sendfile) : Prop where
  loop : s.ctl = .loop → Sending convert src request s
  left : s.ctl = .left → ∃ n, s.number = n + 1 ∧ sizeAt src request n ≠ SEGSIZE

/-- What a step leads to: the invariant, and what is sent on the way. -/
structure SendStep (convert : Bool) (src : List UInt8) (request : Option (List UInt8))
    (r : Sendfile × List Stamped) : Prop where
  ok : SendOk convert src request r.1
  sent : ∀ d ∈ r.2, d = sentAt src request r.1.number

variable {convert : Bool} {src file : List UInt8} {request : Option (List UInt8)}
  {s : Sendfile} {ok : Bool}

theorem sizeAt_pos {n : ℕ} (h : 0 < n) :
    sizeAt src request n = (Foundations.block SEGSIZE src (n - 1)).length := by
  obtain ⟨m, rfl⟩ : ∃ m, n = m + 1 := ⟨n - 1, by omega⟩
  cases request <;> rfl

theorem Sending.out (h : Sending convert src request s) :
    s.out = sentAt src request s.number := by
  unfold Sendfile.out
  rcases Nat.eq_zero_or_pos s.number with hzero | hpos
  · obtain ⟨hfirst, hsome⟩ := h.first hzero
    obtain ⟨stuff, rfl⟩ := Option.isSome_iff_exists.mp hsome
    rw [hfirst, hzero]
    rfl
  · obtain ⟨hfirst, hdp⟩ := h.later hpos
    have hsize := h.size.trans (sizeAt_pos hpos)
    obtain ⟨n, hn⟩ : ∃ n, s.number = n + 1 := ⟨s.number - 1, by omega⟩
    rw [hfirst, hdp, hsize, hn]
    cases request <;> simp only [sentAt, dataOf, Int.toNat_natCast, List.take_length]

theorem readAhead_dp {b : Buffers} (h : (b.bfs b.current).counter ≠ BF_FREE) :
    (readAhead convert b file).1.dp = b.dp := by
  by_cases hfree : (b.bfs b.nextone).counter = BF_FREE
  · obtain ⟨-, -, hsame, -, hcurrent⟩ := @readAhead_free convert file b hfree
    unfold Buffers.dp
    rw [hcurrent, hsame]
    intro heq
    exact h (heq ▸ hfree)
  · unfold readAhead
    rw [if_pos hfree]

theorem setDp_reader {r : ℕ} {b : Buffers} {p : Packet} (h : Reader convert src r b file)
    (hp : p.data = b.dp.data) : Reader convert src r (b.setDp p) file := by
  refine ⟨by simpa using h.busy, fun i hi => ?_, ?_⟩
  · obtain ⟨hcounter, hdata⟩ := h.held i hi
    refine ⟨by simpa using hcounter, ?_⟩
    simpa [hp, Buffers.dp] using hdata
  · simpa [Buffers.unread, Buffers.setDp] using h.next

/-- A function that has ended through `abort` or the timeout, or was not in its loop. -/
theorem sendOk_ended (h : s.ctl = .aborted ∨ s.ctl = .timedOut) :
    SendOk convert src request s := by
  refine ⟨fun hloop => ?_, fun hleft => ?_⟩
  · rcases h with h | h <;> rw [h] at hloop <;> cases hloop
  · rcases h with h | h <;> rw [h] at hleft <;> cases hleft

theorem Sending.sendOk (h : Sending convert src request s) (hloop : s.ctl = .loop) :
    SendOk convert src request s :=
  ⟨fun _ => h, fun hleft => absurd (hloop.symm.trans hleft) (by simp)⟩

theorem sendStep_nothing (h : SendOk convert src request s) :
    SendStep convert src request (s, []) :=
  ⟨h, fun _ hd => absurd hd List.not_mem_nil⟩

theorem sendData_sending (h : Sending convert src request s) (hloop : s.ctl = .loop)
    (ok : Bool) : SendStep convert src request (s.sendData convert ok) ∧
      (s.sendData convert ok).1.number = s.number ∧ (s.sendData convert ok).1.ctl ≠ .left := by
  unfold Sendfile.sendData
  split
  · exact ⟨sendStep_nothing (sendOk_ended (Or.inl rfl)), rfl, by simp⟩
  · have hdp := @readAhead_dp convert s.file s.subs h.reader.busy
    refine ⟨⟨Sending.sendOk ⟨readAhead_reader h.reader, h.block, h.size, h.first, fun hpos => ?_⟩
      hloop, fun d hd => ?_⟩, rfl, by simp [hloop]⟩
    · exact ⟨(h.later hpos).1, hdp.trans (h.later hpos).2⟩
    · exact (List.mem_singleton.mp hd).trans h.out

theorem trip_sending {n : ℕ} (hreader : Reader convert src n s.subs s.file)
    (hnumber : s.number = n + 1) (hblock : s.block = UInt16.ofNat s.number)
    (hloop : s.ctl = .loop) (ok : Bool) : SendStep convert src request (s.trip convert ok) ∧
      (s.trip convert ok).1.number = s.number ∧ (s.trip convert ok).1.ctl ≠ .left := by
  have hread := readit_reader hreader
  obtain ⟨hsize, hdata⟩ := hread.read
  obtain ⟨-, hheld⟩ := hread.held n rfl
  have hsending : Sending convert src request { s with
      firsttrip := none
      subs := (readit convert s.subs s.file).1.setDp
        ⟨DATA, s.block, (readit convert s.subs s.file).1.dp.data⟩
      file := (readit convert s.subs s.file).2
      size := (readit convert s.subs s.file).1.size
      timeout := 0 } := by
    refine ⟨?_, hblock, ?_, fun hzero => ?_, fun _ => ⟨rfl, ?_⟩⟩
    · simp only [hnumber]
      exact setDp_reader hread rfl
    · simp only [hnumber]
      rw [sizeAt_pos (Nat.succ_pos n)]
      exact hsize
    · exact absurd (hnumber.symm.trans hzero) (Nat.succ_ne_zero n)
    · simp only [Buffers.dp, Buffers.setDp_current, Buffers.setDp_self]
      rw [hblock, hheld, hnumber]
      rfl
  exact sendData_sending hsending hloop ok

theorem acked_sending (h : Sending convert src request s) (hloop : s.ctl = .loop) (ok : Bool) :
    SendStep convert src request (s.acked convert ok) ∧
      (s.acked convert ok).1.number = s.number + 1 := by
  unfold Sendfile.acked
  simp only
  split
  · have hblock : s.block + 1 = UInt16.ofNat (s.number + 1) := by
      rw [h.block]
      exact (UInt16.ofNat_add s.number 1).symm
    obtain ⟨hstep, hnumber, -⟩ := @trip_sending convert src request
      { s with block := s.block + 1, number := s.number + 1 } s.number h.reader rfl hblock
      hloop ok
    exact ⟨hstep, hnumber⟩
  · rename_i hshort
    refine ⟨sendStep_nothing ⟨fun hloop => by simp at hloop, fun _ => ⟨s.number, rfl, ?_⟩⟩, rfl⟩
    rw [← h.size]
    exact hshort

/-- A datagram leads to the next number if it is the acknowledgement of the block, and the
number stays otherwise. -/
theorem receive_sending (h : Sending convert src request s) (hloop : s.ctl = .loop)
    (d : Datagram) (ok : Bool) : SendStep convert src request (s.receive convert d ok) ∧
      ((s.receive convert d ok).1.number = s.number ∧
          (s.receive convert d ok).1.ctl ≠ .left ∨
        (s.receive convert d ok).1.number = s.number + 1 ∧ d.received.opcode = ACK ∧
          d.received.block = UInt16.ofNat s.number) := by
  have hstay := sendStep_nothing (h.sendOk hloop)
  have hnot : s.ctl ≠ .left := by simp [hloop]
  unfold Sendfile.receive
  simp only
  split
  · exact ⟨sendStep_nothing (sendOk_ended (Or.inl rfl)), Or.inl ⟨rfl, by simp⟩⟩
  · split
    · rename_i hack
      split
      · rename_i hblock
        obtain ⟨hstep, hnumber⟩ := acked_sending h hloop ok
        exact ⟨hstep, Or.inr ⟨hnumber, hack, hblock.trans h.block⟩⟩
      · split
        · obtain ⟨hstep, hsame⟩ := sendData_sending h hloop ok
          exact ⟨hstep, Or.inl hsame⟩
        · exact ⟨hstay, Or.inl ⟨rfl, hnot⟩⟩
    · exact ⟨hstay, Or.inl ⟨rfl, hnot⟩⟩

theorem timer_sending (h : Sending convert src request s) (hloop : s.ctl = .loop) (t : Timing)
    (ok : Bool) : SendStep convert src request (s.timer t convert ok) ∧
      (s.timer t convert ok).1.number = s.number ∧ (s.timer t convert ok).1.ctl ≠ .left := by
  unfold Sendfile.timer
  simp only
  split
  · exact ⟨sendStep_nothing (sendOk_ended (Or.inr rfl)), rfl, by simp⟩
  · have hsending : Sending convert src request { s with timeout := s.timeout + t.rexmtval } :=
      ⟨h.reader, h.block, h.size, h.first, h.later⟩
    exact sendData_sending hsending hloop ok

theorem Client.sendfile_sending (subs : Buffers) (r : Request) (file : List UInt8) (ok : Bool) :
    SendStep r.mode.convert (encoded r.mode.convert file) (some (makerequest r))
        (Client.sendfile subs r file ok) ∧
      (Client.sendfile subs r file ok).1.number = 0 ∧
      (Client.sendfile subs r file ok).1.ctl ≠ .left := by
  unfold Client.sendfile
  apply sendData_sending ?_ rfl ok
  refine ⟨rInit_reader _ _ _, rfl, ?_, fun _ => ⟨rfl, rfl⟩, fun hpos => absurd hpos (by simp)⟩
  simp only [Request.length, sizeAt]
  omega

theorem Tftpd.sendfile_sending (subs : Buffers) (convert : Bool) (file : List UInt8)
    (ok : Bool) :
    SendStep convert (encoded convert file) none (Tftpd.sendfile subs convert file ok) ∧
      (Tftpd.sendfile subs convert file ok).1.number = 1 ∧
      (Tftpd.sendfile subs convert file ok).1.ctl ≠ .left := by
  unfold Tftpd.sendfile
  exact trip_sending (rInit_reader _ _ _) rfl rfl rfl ok

end Netkit.Tftp

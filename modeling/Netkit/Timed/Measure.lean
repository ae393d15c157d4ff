import Mathlib.Algebra.Order.Floor.Semiring
import Netkit.Foundations.Clocks
import Netkit.Foundations.Runs

/-!
# `measure`

Timestamps are sent to another host, and from the replies its distance in time is computed.
-/

namespace Netkit.Timed

open Netkit.Foundations

def SECDAY : ℕ := 86400

/-- `SECDAY * 1000`. -/
def MSEC_DAY : ℤ := 86400000

def MSGS : ℕ := 5

def TRIALS : ℕ := 10

def HOSTDOWN : ℤ := 0x7fffffff

inductive MeasureStatus where
  | hostdown
  | good
  | unreachable
  | nonstdtime
deriving DecidableEq

inductive IcmpType where
  | tstampReply
  | other
deriving DecidableEq

/-- A message from the raw socket: its size with the IP header, and the three times. -/
structure Icmp where
  cc : ℤ
  icmpType : IcmpType
  icmpId : UInt16
  icmpSeq : UInt16
  originate : UInt32
  receive : UInt32
  transmit : UInt32
deriving DecidableEq

/-- What does not change: `getpid()`, `ICPSIZE` and `CLK_TCK`. -/
structure Host where
  pid : UInt16
  icpsize : ℕ
  clkTck : ℤ

def MIN_ROUND (h : Host) : ℤ := (1000 - 1 : ℤ).tdiv h.clkTck

/-- A `struct timeval` is its number of microseconds here. -/
def msecOfDay (t : ℕ) : ℤ := ((t / 1000000 % SECDAY * 1000 + t % 1000000 / 1000 : ℕ) : ℤ)

/-- Before the head of the outer loop, in `select`, or behind the label `quit`. -/
inductive Loop where
  | turning
  | waiting
  | quit
deriving DecidableEq

/-- `icmpSeq` is that of the message that is sent next. -/
structure Measure where
  seqno : UInt16
  icmpSeq : UInt16
  trials : ℕ
  rcvcount : ℕ
  minIdelta : ℤ
  minOdelta : ℤ
  measureStatus : MeasureStatus
  measureDelta : ℤ
  tdone : ℕ
  loop : Loop
deriving DecidableEq

namespace Measure

def start (seqno : UInt16) (tdone : ℕ) : Measure where
  seqno := seqno
  icmpSeq := seqno
  trials := 0
  rcvcount := 0
  minIdelta := HOSTDOWN
  minOdelta := HOSTDOWN
  measureStatus := .hostdown
  measureDelta := HOSTDOWN
  tdone := tdone
  loop := .turning

def sends (m : Measure) : Bool := decide (m.trials < TRIALS)

/-- The first part of the outer loop, up to `select`; `sendto` fails when it is not `sent`. -/
def turn (sent : Bool) (m : Measure) : Measure :=
  if m.sends then
    if sent then { m with trials := m.trials + 1, icmpSeq := m.icmpSeq + 1, loop := .waiting }
    else
      { m with
        trials := m.trials + 1
        measureStatus :=
          if m.measureStatus = .hostdown then .unreachable else m.measureStatus
        loop := .quit }
  else { m with loop := .waiting }

/-- The inner loop ends: so does the outer one, when it is late or has heard enough. -/
def leave (tcur : ℕ) (m : Measure) : Measure :=
  if m.tdone ≤ tcur then { m with loop := .quit }
  else if m.rcvcount < MSGS then { m with loop := .turning }
  else { m with loop := .quit }

/-- `recvfrom` fails. -/
def fail (m : Measure) : Measure := { m with loop := .quit }

def ours (h : Host) (m : Measure) (p : Icmp) : Bool :=
  !(decide (p.cc < h.icpsize) || p.icmpType != .tstampReply || p.icmpId != h.pid ||
    decide (p.icmpSeq < m.seqno) || decide (p.icmpSeq ≥ m.icmpSeq))

def midnight (delta : ℤ) : ℤ :=
  if delta < -MSEC_DAY / 2 then delta + MSEC_DAY
  else if delta > MSEC_DAY / 2 then delta - MSEC_DAY
  else delta

def total (p : Icmp) (tcur : ℕ) : ℤ := msecOfDay tcur - p.originate.toNat

def idelta (p : Icmp) (tcur : ℕ) : ℤ := midnight (msecOfDay tcur - p.transmit.toNat)

def odelta (p : Icmp) : ℤ := midnight (p.receive.toNat - p.originate.toNat)

def add (p : Icmp) (tcur : ℕ) (m : Measure) : Measure :=
  let minIdelta := if idelta p tcur < m.minIdelta then idelta p tcur else m.minIdelta
  let minOdelta := if odelta p < m.minOdelta then odelta p else m.minOdelta
  { m with
    rcvcount := m.rcvcount + 1
    measureStatus := .good
    minIdelta := minIdelta
    minOdelta := minOdelta
    measureDelta := (minOdelta - minIdelta).tdiv 2 }

def count (h : Host) (p : Icmp) (tcur : ℕ) (m : Measure) : Measure :=
  if total p tcur < MIN_ROUND h then
    { m with
      rcvcount := m.rcvcount + 1
      measureStatus := .good
      measureDelta := (odelta p - idelta p tcur).tdiv 2
      loop := .quit }
  else if (m.add p tcur).rcvcount < (m.add p tcur).trials then m.add p tcur
  else (m.add p tcur).leave tcur

/-- The body of the inner loop behind `recvfrom`. The high bit of a time says that it is none of the
day. -/
def receive (h : Host) (p : Icmp) (tcur : ℕ) (m : Measure) : Measure :=
  if !m.ours h p then m
  else if total p tcur < 0 then m
  else if p.receive.toNat.testBit 31 then
    { m with rcvcount := m.rcvcount + 1, measureStatus := .nonstdtime, loop := .quit }
  else m.count h p tcur

end Measure

/-- `seqno` after some calls. -/
def seqnoAfter : ℕ → UInt16
  | 0 => 0
  | k + 1 => seqnoAfter k + UInt16.ofNat TRIALS

/-! ## The other host -/

/-- What happens to the call: it goes on to wait, at some moment; a reply to the message `j` comes,
after the time `out` on the way, `stay` at the other host and `back`; another message comes;
the wait ends; `recvfrom` fails. -/
inductive Event (α : Type*) where
  | turn (t : α) (sent : Bool)
  | reply (j : ℕ) (out stay back : α)
  | foreign (p : Icmp) (t : α)
  | silence (t : α)
  | failure

variable {α : Type*} [Field α] [LinearOrder α] [FloorRing α]

def Event.Valid (h : Host) : Event α → Prop
  | .turn t _ => 0 ≤ t
  | .reply _ out stay back => (0 ≤ out ∧ out < 60000) ∧ 0 ≤ stay ∧ 0 ≤ back ∧ back < 60000
  | .foreign p _ => p.cc < h.icpsize ∨ p.icmpType ≠ .tstampReply ∨ p.icmpId ≠ h.pid
  | _ => True

/-- What `gettimeofday` says. -/
def reading (t : α) : ℕ := ⌊t * 1000⌋₊

/-- The time of the day, in UT, on a clock that shows `t`. -/
def timeOfDay (t : α) : UInt32 := UInt32.ofNat (⌊t⌋ % MSEC_DAY).toNat

/-- The reply to the message `j`, which was sent at `t`, of a host whose clock is `d` ahead. -/
def answer (h : Host) (d : α) (seqno : UInt16) (j : ℕ) (t out stay : α) : Icmp where
  cc := 20 + h.icpsize
  icmpType := .tstampReply
  icmpId := h.pid
  icmpSeq := seqno + UInt16.ofNat j
  originate := UInt32.ofNat (msecOfDay (reading t)).toNat
  receive := timeOfDay (t + out + d)
  transmit := timeOfDay (t + out + stay + d)

/-- The call, the moments when it has sent its messages, and the times on the way, out and back, of
the replies that `measure_delta` comes from. -/
structure Measurement (α : Type*) where
  proc : Measure
  requests : List α
  used : List (α × α)

def usedWith (h : Host) (p : Icmp) (tcur : ℕ) (m : Measure) (times : α × α) (used : List (α × α)) :
    List (α × α) :=
  if !m.ours h p ∨ Measure.total p tcur < 0 then used
  else if Measure.total p tcur < MIN_ROUND h then [times]
  else used ++ [times]

def Measurement.step (h : Host) (d : α) (s : Measurement α) : Event α → Option (Measurement α)
  | .turn t sent =>
    if s.proc.loop = .turning then
      some
        { s with
          proc := s.proc.turn sent
          requests := if s.proc.sends && sent then s.requests ++ [t] else s.requests }
    else none
  | .reply j out stay back =>
    if s.proc.loop = .waiting then
      s.requests[j]?.map fun t =>
        let p := answer h d s.proc.seqno j t out stay
        let tcur := reading (t + out + stay + back)
        { s with
          proc := s.proc.receive h p tcur
          used := usedWith h p tcur s.proc (out, back) s.used }
    else none
  | .foreign p t =>
    if s.proc.loop = .waiting then some { s with proc := s.proc.receive h p (reading t) } else none
  | .silence t =>
    if s.proc.loop = .waiting then some { s with proc := s.proc.leave (reading t) } else none
  | .failure => if s.proc.loop = .waiting then some { s with proc := s.proc.fail } else none

def Measurement.start (k tdone : ℕ) : Measurement α := ⟨.start (seqnoAfter k) tdone, [], []⟩

end Netkit.Timed

import Netkit.Foundations.ByteOrder

/-!
# The packets of ping

`pinger` and `pr_pack` of `ping.c`, with the table of sequence numbers that have been answered.
A request carries the number of requests before it, cut to sixteen bits, and the time at which
it was sent; `pinger` forgets what is known of that number and of all others with the same
remainder by `mx_dup_ck`.

The counters are `long`; no run lasts until one of them overflows.
-/

namespace Netkit.Ping

open Netkit.Foundations

/-! ## Times -/

structure Timeval where
  sec : Int
  usec : Int
deriving DecidableEq

def LONG_MAX : Int := 9223372036854775807

/-- What `gettimeofday` returns: a time whose tenths of milliseconds are a `long`. -/
structure Reading extends Timeval where
  sec_nonneg : 0 ≤ sec
  usec_nonneg : 0 ≤ usec
  usec_lt : usec < 1000000
  inRange : sec * 10000 + 9999 ≤ LONG_MAX

def Timeval.micros (t : Timeval) : Int := t.sec * 1000000 + t.usec

def tvsub (out inn : Timeval) : Timeval :=
  let usec := out.usec - inn.usec
  let out : Timeval := if usec < 0 then ⟨out.sec - 1, usec + 1000000⟩ else ⟨out.sec, usec⟩
  let sec := out.sec - inn.sec
  if sec < 0 then ⟨0, 0⟩ else ⟨sec, out.usec⟩

/-- `triptime` of a packet that was sent at `sent` and has come at `now`. -/
def triptime (now sent : Timeval) : Int :=
  let d := tvsub now sent
  d.sec * 10000 + d.usec / 100

theorem triptime_eq (now sent : Reading) :
    triptime now.toTimeval sent.toTimeval =
      max 0 ((now.micros - sent.micros) / 100) := by
  obtain ⟨⟨sec, usec⟩, -, h1, h2, -⟩ := now
  obtain ⟨⟨sec', usec'⟩, -, h1', h2', -⟩ := sent
  unfold triptime tvsub Timeval.micros
  dsimp only at h1 h2 h1' h2' ⊢
  split
  · dsimp only
    split
    · dsimp only
      omega
    · dsimp only
      omega
  · dsimp only
    split
    · dsimp only
      omega
    · dsimp only
      omega

theorem triptime_le (now sent : Reading) :
    triptime now.toTimeval sent.toTimeval ≤ LONG_MAX := by
  have hnow := now.inRange
  have hnow' := now.usec_lt
  have hsent := sent.sec_nonneg
  have hsent' := sent.usec_nonneg
  rw [triptime_eq, Timeval.micros, Timeval.micros]
  refine Int.max_le.mpr ⟨by decide, ?_⟩
  omega

/-! ## Sending and receiving -/

def mxDupCk : Nat := 8 * 128

structure Counters where
  ntransmitted : Nat
  nreceived : Nat
  nrepeats : Nat
  rcvdTbl : List (BitVec 8)
  tmin : Int
  tmax : Int
  tsum : Int
deriving DecidableEq

def Counters.start : Counters where
  ntransmitted := 0
  nreceived := 0
  nrepeats := 0
  rcvdTbl := List.replicate 128 0
  tmin := LONG_MAX
  tmax := 0
  tsum := 0

/-- The options, and what `main` computes of them. -/
structure Settings where
  npackets : Nat
  datalen : Nat
  ident : UInt16
  flood : Bool
  preload : Nat

/-- There is room for a `struct timeval` in the data. -/
def Settings.timing (o : Settings) : Bool := 16 ≤ o.datalen

def icmpSeq (ntransmitted : Nat) : UInt16 := UInt16.ofNat ntransmitted

def pinger (c : Counters) : Counters :=
  { c with
    ntransmitted := c.ntransmitted + 1
    rcvdTbl := clearBit c.rcvdTbl ((icmpSeq c.ntransmitted).toNat % mxDupCk) }

def ICMP_ECHOREPLY : UInt8 := 0

def ICMP_MINLEN : Nat := 8

/-- What `recvfrom` leaves in `inpack`: the length of the IP header and of all that has come,
and the fields that `pr_pack` looks at. -/
structure Packet where
  hlen : Nat
  packlen : Nat
  icmpType : UInt8
  icmpId : UInt16
  icmpSeq : UInt16
  icmpTime : Timeval
deriving DecidableEq

/-- The packet passes the checks of `pr_pack`. -/
def Packet.ours (o : Settings) (p : Packet) : Bool :=
  !(p.hlen < 20) && !(p.packlen < p.hlen) && !(p.packlen - p.hlen < ICMP_MINLEN + o.datalen) &&
    p.icmpType = ICMP_ECHOREPLY && p.icmpId = o.ident

/-- With `timing` on, the trip is added to the times. -/
def addTrip (o : Settings) (trip : Int) (c : Counters) : Counters :=
  if o.timing then
    { c with
      tsum := c.tsum + trip
      tmin := if trip < c.tmin then trip else c.tmin
      tmax := if trip > c.tmax then trip else c.tmax }
  else c

/-- A packet has come; the result says whether it is one of our replies. What is printed of it
is left out. -/
def prPack (o : Settings) (p : Packet) (now : Timeval) (c : Counters) : Bool × Counters :=
  if p.ours o then
    let c := { c with nreceived := c.nreceived + 1 }
    let c := addTrip o (triptime now p.icmpTime) c
    let bit := p.icmpSeq.toNat % mxDupCk
    if testBit c.rcvdTbl bit then
      (true, { c with nrepeats := c.nrepeats + 1, nreceived := c.nreceived - 1 })
    else (true, { c with rcvdTbl := setBit c.rcvdTbl bit })
  else (false, c)

end Netkit.Ping

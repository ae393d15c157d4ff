import Mathlib.Data.Finset.Card
import Mathlib.Algebra.BigOperators.Group.List.Basic
import Mathlib.Algebra.Order.Ring.Int
import Netkit.Foundations.Runs
import Netkit.Ping.Packets

/-!
# Every reply is counted once

`main` sends the requests of `-l`, and `doping` then sends one request after another and takes
what comes in between. The events are what the kernel does: a request is sent, `select` runs
out of time, `recvfrom` fails, a reply or another packet has come, a signal calls `finish`. A
reply comes when `recvfrom` returns it.

Replies may be lost, may come in any order and any number of times, but a reply that comes has
fewer than `mx_dup_ck` requests behind its own. The numbers of the requests are cut to sixteen
bits and the table has `mx_dup_ck` bits, yet every bit belongs to one of the requests whose
replies may still come.

* `counted`: in every state reached, each reply is counted once.
-/

namespace Netkit.Ping

open Netkit.Foundations

/-! ## The loop -/

structure Doping where
  counters : Counters
  preload : Nat
  dosend : Bool
  finished : Bool
  /-- When the requests were sent. -/
  sent : List Reading
  /-- The replies that have come: the number of the request, and the time from the one to the
  other in tenths of milliseconds. -/
  answers : List (Nat × Int)

def Doping.start (o : Settings) : Doping where
  counters := .start
  preload := o.preload
  dosend := true
  finished := false
  sent := []
  answers := []

inductive Event where
  | send (now : Reading)
  | timeout
  | recvError
  | reply (n : Nat) (p : Packet) (now : Reading)
  | other (p : Packet) (now : Reading)
  | signal

/-- It waits in `select`. -/
def Doping.waits (r : Doping) : Bool := !r.finished && r.preload = 0 && !r.dosend

/-- The number of requests to be sent has been reached by `count`. -/
def Settings.reached (o : Settings) (count : Nat) : Bool := o.npackets ≠ 0 && o.npackets ≤ count

/-- A copy of the reply to the request `n`, and not a late one. -/
def Doping.Genuine (o : Settings) (r : Doping) (n : Nat) (sentAt : Reading) (p : Packet) : Prop :=
  r.counters.ntransmitted ≤ n + mxDupCk ∧ p.ours o = true ∧ p.icmpSeq = icmpSeq n ∧
    (o.timing = true → p.icmpTime = sentAt.toTimeval)

instance (o : Settings) (r : Doping) (n : Nat) (sentAt : Reading) (p : Packet) :
    Decidable (r.Genuine o n sentAt p) :=
  inferInstanceAs (Decidable (_ ≤ _ ∧ _ = _ ∧ _ = _ ∧ (_ → _)))

/-- The time between two readings of the clock, in tenths of milliseconds. -/
def roundTrip (now sentAt : Reading) : Int := max 0 ((now.micros - sentAt.micros) / 100)

/-- `pinger` is called at the time `now`. -/
def Doping.send (now : Reading) (r : Doping) : Doping :=
  { r with counters := pinger r.counters, sent := r.sent ++ [now] }

/-- The loop behind `recvfrom`. -/
def Doping.receive (o : Settings) (p : Packet) (now : Reading) (r : Doping) : Doping :=
  let result := prPack o p now.toTimeval r.counters
  { r with
    counters := result.2
    dosend := result.1 && o.flood
    finished := o.reached result.2.nreceived }

def pingStep (o : Settings) (r : Doping) : Event → Option Doping
  | .send now =>
    if r.finished then none
    else if r.preload ≠ 0 then some { r.send now with preload := r.preload - 1 }
    else if r.dosend then some { r.send now with dosend := false }
    else none
  | .timeout =>
    if r.waits then
      if o.reached r.counters.ntransmitted then some { r with finished := true }
      else some { r with dosend := true }
    else none
  | .recvError => if r.waits then some r else none
  | .reply n p now =>
    match r.sent[n]? with
    | none => none
    | some sentAt =>
      if r.waits ∧ r.Genuine o n sentAt p then
        some { r.receive o p now with answers := r.answers ++ [(n, roundTrip now sentAt)] }
      else none
  | .other p now => if r.waits ∧ p.ours o = false then some (r.receive o p now) else none
  | .signal => some { r with finished := true }

/-! ## What the counters say -/

def Doping.answered (r : Doping) : Finset Nat := (r.answers.map Prod.fst).toFinset

def Doping.trips (r : Doping) : List Int := r.answers.map Prod.snd

/-- The least, the greatest and the sum of the times. -/
structure Times (tmin tmax tsum : Int) (trips : List Int) : Prop where
  least : trips ≠ [] → tmin ∈ trips
  least_le : ∀ t ∈ trips, tmin ≤ t
  greatest : trips ≠ [] → tmax ∈ trips
  le_greatest : ∀ t ∈ trips, t ≤ tmax
  total : tsum = trips.sum

structure Counted (o : Settings) (r : Doping) : Prop where
  nreceived : r.counters.nreceived = r.answered.card
  nrepeats : r.counters.nreceived + r.counters.nrepeats = r.answers.length
  le_ntransmitted : r.counters.nreceived ≤ r.counters.ntransmitted
  times : o.timing = true → Times r.counters.tmin r.counters.tmax r.counters.tsum r.trips

/-! ## What every step keeps -/

/-- Among the last `mx_dup_ck` requests, the bits are set of those that have been answered. -/
def Tracks (ntransmitted : Nat) (table : List (BitVec 8)) (answered : Finset Nat) : Prop :=
  ∀ n < ntransmitted, ntransmitted ≤ n + mxDupCk →
    (testBit table (n % mxDupCk) = true ↔ n ∈ answered)

structure Inv (o : Settings) (r : Doping) : Prop where
  table : r.counters.rcvdTbl.length = 128
  sent : r.sent.length = r.counters.ntransmitted
  answered : ∀ n ∈ r.answered, n < r.counters.ntransmitted
  tracks : Tracks r.counters.ntransmitted r.counters.rcvdTbl r.answered
  nreceived : r.counters.nreceived = r.answered.card
  nrepeats : r.counters.nreceived + r.counters.nrepeats = r.answers.length
  times : o.timing = true → Times r.counters.tmin r.counters.tmax r.counters.tsum r.trips
  extremes : r.answers = [] → r.counters.tmin = LONG_MAX ∧ r.counters.tmax = 0

variable {o : Settings} {r r' : Doping} {c : Counters}

theorem start_inv (o : Settings) : Inv o (Doping.start o) where
  table := rfl
  sent := rfl
  answered := fun n hn => absurd hn (Finset.notMem_empty n)
  tracks := fun n hn => absurd hn (Nat.not_lt_zero n)
  nreceived := rfl
  nrepeats := rfl
  times := fun _ =>
    ⟨fun h => absurd rfl h, fun _ ht => absurd ht List.not_mem_nil, fun h => absurd rfl h,
      fun _ ht => absurd ht List.not_mem_nil, rfl⟩
  extremes := fun _ => ⟨rfl, rfl⟩

theorem icmpSeq_mod (n : Nat) : (icmpSeq n).toNat % mxDupCk = n % mxDupCk := by
  rw [icmpSeq, UInt16.toNat_ofNat', mxDupCk]
  omega

theorem byte_lt {table : List (BitVec 8)} (htable : table.length = 128) (n : Nat) :
    n % mxDupCk / 8 < table.length := by
  have hn : n % mxDupCk < 8 * 128 := Nat.mod_lt n (by decide)
  rw [htable]
  omega

theorem tracks_clearBit {count : Nat} {table : List (BitVec 8)} {answered : Finset Nat}
    (htable : table.length = 128) (hanswered : ∀ n ∈ answered, n < count)
    (h : Tracks count table answered) :
    Tracks (count + 1) (clearBit table (count % mxDupCk)) answered := by
  intro n hn hlate
  rw [testBit_clearBit (byte_lt htable _)]
  rcases Nat.lt_succ_iff_lt_or_eq.mp hn with hbefore | rfl
  · have hother : count % mxDupCk ≠ n % mxDupCk := by
      unfold mxDupCk at *
      omega
    rw [decide_eq_true hother, Bool.true_and]
    exact h n hbefore (by omega)
  · rw [decide_eq_false (fun h => h rfl), Bool.false_and]
    exact ⟨fun h => absurd h Bool.false_ne_true, fun h => absurd (hanswered _ h) (Nat.lt_irrefl _)⟩

/-- A reply sets the bit of its request among the last `mx_dup_ck`. -/
theorem tracks_setBit {count n : Nat} {table : List (BitVec 8)} {answered : Finset Nat}
    (htable : table.length = 128) (hn : n < count) (hlate : count ≤ n + mxDupCk)
    (h : Tracks count table answered) :
    Tracks count (setBit table (n % mxDupCk)) (insert n answered) := by
  intro m hm hmlate
  have hsame : n % mxDupCk = m % mxDupCk ↔ m = n := by
    unfold mxDupCk at *
    omega
  rw [testBit_setBit (byte_lt htable n), Bool.or_eq_true, decide_eq_true_iff, Finset.mem_insert,
    hsame, h m hm hmlate]

theorem pinger_rcvdTbl (c : Counters) :
    (pinger c).rcvdTbl = clearBit c.rcvdTbl (c.ntransmitted % mxDupCk) := by
  rw [pinger, icmpSeq_mod]

theorem send_inv (h : Inv o r) (now : Reading) : Inv o (r.send now) where
  table := (length_clearBit _ _).trans h.table
  sent := by
    rw [Doping.send, List.length_append, List.length_singleton, h.sent]
    rfl
  answered := fun n hn => Nat.lt_succ_of_lt (h.answered n hn)
  tracks := by
    have htracks := tracks_clearBit h.table h.answered h.tracks
    rw [← pinger_rcvdTbl] at htracks
    exact htracks
  nreceived := h.nreceived
  nrepeats := h.nrepeats
  times := h.times
  extremes := h.extremes

theorem times_add {tmin tmax tsum : Int} {trips : List Int} {trip : Int} (hpos : 0 ≤ trip)
    (hmax : trip ≤ LONG_MAX) (hfirst : trips = [] → tmin = LONG_MAX ∧ tmax = 0)
    (h : Times tmin tmax tsum trips) :
    Times (if trip < tmin then trip else tmin) (if trip > tmax then trip else tmax)
      (tsum + trip) (trips ++ [trip]) := by
  have hmem : trip ∈ trips ++ [trip] := List.mem_append_right trips List.mem_cons_self
  refine ⟨fun _ => ?_, fun t ht => ?_, fun _ => ?_, fun t ht => ?_, ?_⟩
  · split
    · exact hmem
    · next hle =>
      by_cases hnil : trips = []
      · have hsame : trip = tmin := by
          have := (hfirst hnil).1
          omega
        exact hsame ▸ hmem
      · exact List.mem_append_left _ (h.least hnil)
  · rcases List.mem_append.mp ht with ht | ht
    · have := h.least_le t ht
      split <;> omega
    · obtain rfl := List.mem_singleton.mp ht
      split <;> omega
  · split
    · exact hmem
    · next hle =>
      by_cases hnil : trips = []
      · have hsame : trip = tmax := by
          have := (hfirst hnil).2
          omega
        exact hsame ▸ hmem
      · exact List.mem_append_left _ (h.greatest hnil)
  · rcases List.mem_append.mp ht with ht | ht
    · have := h.le_greatest t ht
      split <;> omega
    · obtain rfl := List.mem_singleton.mp ht
      split <;> omega
  · rw [List.sum_append, List.sum_singleton, ← h.total]

theorem prPack_other {p : Packet} (now : Timeval) (h : p.ours o = false) :
    prPack o p now c = (false, c) := by
  rw [prPack, h]
  rfl

theorem addTrip_keeps (o : Settings) (trip : Int) (c : Counters) :
    (addTrip o trip c).ntransmitted = c.ntransmitted ∧
    (addTrip o trip c).nreceived = c.nreceived ∧
    (addTrip o trip c).nrepeats = c.nrepeats ∧ (addTrip o trip c).rcvdTbl = c.rcvdTbl := by
  unfold addTrip
  split
  · exact ⟨rfl, rfl, rfl, rfl⟩
  · exact ⟨rfl, rfl, rfl, rfl⟩

theorem prPack_reply {p : Packet} {n : Nat} (now : Timeval) (hours : p.ours o = true)
    (hseq : p.icmpSeq = icmpSeq n) :
    prPack o p now c =
      (true, if testBit c.rcvdTbl (n % mxDupCk) then
          { addTrip o (triptime now p.icmpTime) c with nrepeats := c.nrepeats + 1 }
        else { addTrip o (triptime now p.icmpTime) c with
          nreceived := c.nreceived + 1
          rcvdTbl := setBit c.rcvdTbl (n % mxDupCk) }) := by
  unfold prPack addTrip
  dsimp only
  rw [if_pos hours, hseq, icmpSeq_mod]
  cases o.timing with
  | true =>
    rw [if_pos rfl, if_pos rfl]
    dsimp only
    split
    · rfl
    · rfl
  | false =>
    rw [if_neg Bool.false_ne_true, if_neg Bool.false_ne_true]
    dsimp only
    split
    · rfl
    · rfl

theorem answered_snoc (r : Doping) (n : Nat) (trip : Int) :
    Doping.answered { r with answers := r.answers ++ [(n, trip)] } = insert n r.answered := by
  ext m
  simp [Doping.answered]

theorem reply_inv {n : Nat} {p : Packet} {sentAt : Reading} (h : Inv o r) (now : Reading)
    (hsent : r.sent[n]? = some sentAt) (hgenuine : r.Genuine o n sentAt p) :
    Inv o { r.receive o p now with answers := r.answers ++ [(n, roundTrip now sentAt)] } := by
  obtain ⟨hlate, hours, hseq, htime⟩ := hgenuine
  have hn : n < r.counters.ntransmitted := by
    obtain ⟨hn, -⟩ := List.getElem?_eq_some_iff.mp hsent
    exact h.sent ▸ hn
  have htest := h.tracks n hn hlate
  have hlen : (r.answers ++ [(n, roundTrip now sentAt)]).length = r.answers.length + 1 :=
    List.length_append
  have htimes (htiming : o.timing = true) :
      Times (addTrip o (triptime now.toTimeval p.icmpTime) r.counters).tmin
        (addTrip o (triptime now.toTimeval p.icmpTime) r.counters).tmax
        (addTrip o (triptime now.toTimeval p.icmpTime) r.counters).tsum
        (r.trips ++ [roundTrip now sentAt]) := by
    have htrip : triptime now.toTimeval p.icmpTime = roundTrip now sentAt := by
      rw [htime htiming, triptime_eq, roundTrip]
    have hle : roundTrip now sentAt ≤ LONG_MAX := by
      rw [roundTrip, ← triptime_eq]
      exact triptime_le now sentAt
    have hfirst : r.trips = [] → r.counters.tmin = LONG_MAX ∧ r.counters.tmax = 0 :=
      fun hnil => h.extremes (List.map_eq_nil_iff.mp hnil)
    rw [htrip, addTrip, if_pos htiming]
    exact times_add (Int.le_max_left 0 _) hle hfirst (h.times htiming)
  obtain ⟨hcount, hreceived, hrepeats, htbl⟩ :=
    addTrip_keeps o (triptime now.toTimeval p.icmpTime) r.counters
  have hnil : r.answers ++ [(n, roundTrip now sentAt)] ≠ [] := List.concat_ne_nil _ _
  have htrips : (r.answers ++ [(n, roundTrip now sentAt)]).map Prod.snd =
      r.trips ++ [roundTrip now sentAt] := List.map_append
  unfold Doping.receive
  rw [prPack_reply now.toTimeval hours hseq]
  by_cases hbit : testBit r.counters.rcvdTbl (n % mxDupCk) = true
  · have hagain : Doping.answered { r with answers := r.answers ++ [(n, roundTrip now sentAt)] } =
        r.answered := by
      rw [answered_snoc, Finset.insert_eq_self]
      exact htest.mp hbit
    rw [if_pos hbit]
    refine ⟨?_, ?_, ?_, ?_, ?_, ?_, ?_, fun h => absurd h hnil⟩
    · exact (congrArg List.length htbl).trans h.table
    · exact h.sent.trans hcount.symm
    · intro m hm
      have hm : m ∈ r.answered := hagain ▸ hm
      exact lt_of_lt_of_eq (h.answered m hm) hcount.symm
    · have htracks := h.tracks
      rw [← hagain, ← hcount, ← htbl] at htracks
      exact htracks
    · exact (hreceived.trans h.nreceived).trans (congrArg Finset.card hagain.symm)
    · have hall := h.nrepeats
      rw [hlen, ← hall, ← hreceived]
      exact Nat.add_assoc _ _ 1
    · intro htiming
      rw [Doping.trips, htrips]
      exact htimes htiming
  · have hfirst : n ∉ r.answered := fun h => hbit (htest.mpr h)
    have hmore : Doping.answered { r with answers := r.answers ++ [(n, roundTrip now sentAt)] } =
        insert n r.answered := answered_snoc r n _
    rw [if_neg hbit]
    refine ⟨?_, ?_, ?_, ?_, ?_, ?_, ?_, fun h => absurd h hnil⟩
    · exact (length_setBit _ _).trans h.table
    · exact h.sent.trans hcount.symm
    · intro m hm
      have hm : m ∈ insert n r.answered := hmore ▸ hm
      rcases Finset.mem_insert.mp hm with rfl | hm
      · exact lt_of_lt_of_eq hn hcount.symm
      · exact lt_of_lt_of_eq (h.answered m hm) hcount.symm
    · have htracks := tracks_setBit h.table hn hlate h.tracks
      rw [← hmore, ← hcount] at htracks
      exact htracks
    · have hcard : r.counters.nreceived + 1 = (insert n r.answered).card := by
        rw [Finset.card_insert_of_notMem hfirst, h.nreceived]
      exact hcard.trans (congrArg Finset.card hmore.symm)
    · have hall : r.counters.nreceived + 1 + r.counters.nrepeats = r.answers.length + 1 := by
        rw [← h.nrepeats]
        omega
      rw [← hrepeats] at hall
      exact hall.trans hlen.symm
    · intro htiming
      rw [Doping.trips, htrips]
      exact htimes htiming

/-- The invariant is about the counters and the replies alone. -/
theorem Inv.loop (h : Inv o r) (preload : Nat) (dosend finished : Bool) :
    Inv o { r with preload, dosend, finished } :=
  ⟨h.table, h.sent, h.answered, h.tracks, h.nreceived, h.nrepeats, h.times, h.extremes⟩

theorem other_inv {p : Packet} (h : Inv o r) (now : Reading) (hours : p.ours o = false) :
    Inv o (r.receive o p now) := by
  unfold Doping.receive
  rw [prPack_other _ hours]
  exact h.loop _ _ _

theorem step_inv (h : Inv o r) {e : Event} (hstep : pingStep o r e = some r') : Inv o r' := by
  cases e with
  | send now =>
    simp only [pingStep] at hstep
    split at hstep
    · cases hstep
    · split at hstep
      · obtain rfl := Option.some.inj hstep
        exact (send_inv h now).loop _ _ _
      · split at hstep
        · obtain rfl := Option.some.inj hstep
          exact (send_inv h now).loop _ _ _
        · cases hstep
  | timeout =>
    simp only [pingStep] at hstep
    split at hstep
    · split at hstep
      · obtain rfl := Option.some.inj hstep
        exact h.loop _ _ _
      · obtain rfl := Option.some.inj hstep
        exact h.loop _ _ _
    · cases hstep
  | recvError =>
    simp only [pingStep] at hstep
    split at hstep
    · obtain rfl := Option.some.inj hstep
      exact h
    · cases hstep
  | reply n p now =>
    simp only [pingStep] at hstep
    split at hstep
    · cases hstep
    · next sentAt hsent =>
      split at hstep
      · next hgenuine =>
        obtain rfl := Option.some.inj hstep
        exact reply_inv h now hsent hgenuine.2
      · cases hstep
  | other p now =>
    simp only [pingStep] at hstep
    split at hstep
    · next hours =>
      obtain rfl := Option.some.inj hstep
      exact other_inv h now hours.2
    · cases hstep
  | signal =>
    obtain rfl := Option.some.inj hstep
    exact h.loop _ _ _

theorem counted_of_inv (h : Inv o r) : Counted o r := by
  refine ⟨h.nreceived, h.nrepeats, ?_, h.times⟩
  have hsub : r.answered ⊆ Finset.range r.counters.ntransmitted :=
    fun n hn => Finset.mem_range.mpr (h.answered n hn)
  have hcard := Finset.card_le_card hsub
  rwa [Finset.card_range, ← h.nreceived] at hcard

/-- **Every reply is counted once**, whatever is lost, repeated or overtaken, and however many
requests there are. -/
theorem counted {es : List Event} (h : run (pingStep o) (Doping.start o) es = some r) :
    Counted o r :=
  counted_of_inv (run_invariant (fun _ _ _ hinv hstep => step_inv hinv hstep) (start_inv o) h)

def clock (usec : Fin 1000000) : Reading where
  sec := 0
  usec := usec.val
  sec_nonneg := Int.le_refl 0
  usec_nonneg := Int.natCast_nonneg usec.val
  usec_lt := Int.ofNat_lt.mpr usec.isLt
  inRange := by decide

/-- `ping -c 2`, with 56 octets of data. -/
def twoRequests : Settings := ⟨2, 56, 77, false, 0⟩

theorem counted_repeated : ∃ r,
    run (pingStep twoRequests) (Doping.start twoRequests)
      [.send (clock 0), .reply 0 ⟨20, 84, 0, 77, 0, ⟨0, 0⟩⟩ (clock 300),
        .reply 0 ⟨20, 84, 0, 77, 0, ⟨0, 0⟩⟩ (clock 800)] = some r ∧
    r.counters.nrepeats = 1 ∧ Counted twoRequests r := by
  obtain ⟨r, hr⟩ := Option.isSome_iff_exists.mp (show (run (pingStep twoRequests)
    (Doping.start twoRequests)
    [.send (clock 0), .reply 0 ⟨20, 84, 0, 77, 0, ⟨0, 0⟩⟩ (clock 300),
      .reply 0 ⟨20, 84, 0, 77, 0, ⟨0, 0⟩⟩ (clock 800)]).isSome = true from by decide +kernel)
  have hcounted := counted hr
  refine ⟨r, hr, ?_, hcounted⟩
  have hone : (run (pingStep twoRequests) (Doping.start twoRequests)
    [.send (clock 0), .reply 0 ⟨20, 84, 0, 77, 0, ⟨0, 0⟩⟩ (clock 300),
      .reply 0 ⟨20, 84, 0, 77, 0, ⟨0, 0⟩⟩ (clock 800)]).all
        (fun r => r.counters.nrepeats = 1) = true := by
    decide +kernel
  rw [hr] at hone
  exact of_decide_eq_true hone

end Netkit.Ping

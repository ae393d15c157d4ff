import Netkit.Routed.Datagram
import Netkit.Routed.Main

/-!
# Requests and traces

The cases `RIPCMD_REQUEST` and `RIPCMD_TRACEON` of `rip_input` in `input.c`, with the buffers that
`process` of `main.c` gives them: `inbuf`, which is filled to its end, and `packet`, which is three
bytes shorter and takes the reply.

* `ripAct_iff`: when it is, and nothing is written past a buffer.
-/

namespace Netkit.Routed

open Netkit.Foundations

/-! ## The buffers -/

/-- `sizeof (inbuf)`: a union of `char buf[MAXPACKETSIZE+1]` and a `struct rip`, whose size is a
multiple of 4. -/
def inbufSize : ℕ := 516

/-- `sizeof (packet)`. -/
def packetBufSize : ℕ := MAXPACKETSIZE + 1

/-- What `recvfrom` has left: `size` bytes of a datagram, with older bytes behind them. -/
structure Received where
  inbuf : Bytes
  size : ℕ
  length : inbuf.length = inbufSize
  pos : 0 < size
  le : size ≤ inbufSize

namespace Received

variable (r : Received)

def datagram : Bytes := r.inbuf.take r.size

def cmd : UInt8 := r.inbuf.getD 0 0
def vers : UInt8 := r.inbuf.getD 1 0

theorem datagram_length : r.datagram.length = r.size := by
  rw [datagram, List.length_take, r.length]
  exact Nat.min_eq_left r.le

end Received

/-- A datagram is received over the old contents of `inbuf`. What does not fit is lost. -/
def receive (d : Bytes) (hd : d ≠ []) (old : Bytes) (hold : old.length = inbufSize) : Received where
  inbuf := d.take inbufSize ++ old.drop (d.take inbufSize).length
  size := (d.take inbufSize).length
  length := by
    rw [List.length_append, List.length_drop, hold, List.length_take]
    omega
  pos := by
    have hpos := List.length_pos_iff.mpr hd
    rw [List.length_take, inbufSize]
    omega
  le := List.length_take_le _ _

/-! ## The entries -/

def isSpecial (n : Bytes) : Bool :=
  (sockaddrOf (n.take 16)).family == AF_UNSPEC && metricOf (n.drop 16) == HOPCNT_INFINITY

def answerMetric (lookup : Sockaddr → Option RtEntry) (dst : Sockaddr) : Int :=
  match lookup dst with
  | none => HOPCNT_INFINITY
  | some rt => if rt.metric + 1 < HOPCNT_INFINITY then rt.metric + 1 else HOPCNT_INFINITY

/-- The entry with the metric of the answer. The family is put back into network byte order. -/
def answerEntry (lookup : Sockaddr → Option RtEntry) (n : Bytes) : Bytes :=
  n.take 16 ++ metricBytes (answerMetric lookup (sockaddrOf (n.take 16)))

/-- The loop on the entries, with `count` bytes left at `n`; an entry for all routes that ends the
datagram leaves the loop for `supply`. The first argument bounds the number of passes. -/
def requestLoop (lookup : Sockaddr → Option RtEntry) : ℕ → Bytes → Option Bytes
  | 0, n => some n
  | passes + 1, n =>
    if n.length < netinfoSize then some n
    else if isSpecial (n.take netinfoSize) && decide (n.drop netinfoSize = []) then none
    else (requestLoop lookup passes (n.drop netinfoSize)).map
      (answerEntry lookup (n.take netinfoSize) ++ ·)

def partialEntry (n : Bytes) : Bytes := n.drop (netinfoSize * (n.length / netinfoSize))

def endsSpecial (n : Bytes) : Bool :=
  (completeEntries n).getLast?.any isSpecial && decide (partialEntry n = [])

theorem completeEntries_short {n : Bytes} (h : n.length < netinfoSize) :
    completeEntries n = [] ∧ partialEntry n = n := by
  rw [completeEntries, partialEntry, Nat.div_eq_of_lt h]
  exact ⟨rfl, rfl⟩

theorem completeEntries_long {n : Bytes} (h : netinfoSize ≤ n.length) :
    completeEntries n = n.take netinfoSize :: completeEntries (n.drop netinfoSize) ∧
      partialEntry n = partialEntry (n.drop netinfoSize) := by
  have hcount : n.length / netinfoSize = (n.drop netinfoSize).length / netinfoSize + 1 := by
    rw [List.length_drop]
    exact Nat.div_eq_sub_div (by decide) h
  constructor
  · rw [completeEntries, completeEntries, hcount, blocks, blocks, List.range_succ_eq_map,
      List.map_cons, List.map_map]
    refine congrArg₂ List.cons rfl (List.map_congr_left (fun i _ => ?_))
    rw [block, Function.comp, block, List.drop_drop, Nat.mul_succ, Nat.add_comm]
  · rw [partialEntry, partialEntry, hcount, List.drop_drop, Nat.mul_succ, Nat.add_comm]

theorem endsSpecial_long {n : Bytes} (h : netinfoSize ≤ n.length) : endsSpecial n =
    if n.drop netinfoSize = [] then isSpecial (n.take netinfoSize)
    else endsSpecial (n.drop netinfoSize) := by
  obtain ⟨hentries, hpartial⟩ := completeEntries_long h
  rw [endsSpecial, hentries, hpartial]
  by_cases hempty : n.drop netinfoSize = []
  · have hnone : completeEntries [] = [] ∧ partialEntry [] = [] :=
      completeEntries_short (by decide)
    rw [if_pos hempty, hempty, hnone.1, hnone.2, List.getLast?_singleton, Option.any_some,
      decide_eq_true rfl, Bool.and_true]
  · rw [if_neg hempty, endsSpecial]
    by_cases hshort : (n.drop netinfoSize).length < netinfoSize
    · rw [(completeEntries_short hshort).2, decide_eq_false hempty, Bool.and_false, Bool.and_false]
    · rw [(completeEntries_long (Nat.not_lt.mp hshort)).1, List.getLast?_cons_cons]

theorem requestLoop_eq (lookup : Sockaddr → Option RtEntry) (passes : ℕ) (n : Bytes)
    (hpasses : n.length ≤ passes) : requestLoop lookup passes n =
      if endsSpecial n then none
      else some ((completeEntries n).flatMap (answerEntry lookup) ++ partialEntry n) := by
  induction passes generalizing n with
  | zero =>
    obtain rfl := List.length_eq_zero_iff.mp (Nat.le_zero.mp hpasses)
    rfl
  | succ passes ih =>
    rw [requestLoop]
    by_cases hshort : n.length < netinfoSize
    · obtain ⟨hentries, hpartial⟩ := completeEntries_short hshort
      rw [if_pos hshort, endsSpecial, hentries, hpartial]
      rfl
    · have hlong := Nat.not_lt.mp hshort
      obtain ⟨hentries, hpartial⟩ := completeEntries_long hlong
      have hrest : (n.drop netinfoSize).length ≤ passes := by
        rw [List.length_drop, netinfoSize]
        omega
      have hmore (b : Bool) : (if b then none else
            some ((completeEntries (n.drop netinfoSize)).flatMap (answerEntry lookup) ++
              partialEntry (n.drop netinfoSize))).map
            (answerEntry lookup (n.take netinfoSize) ++ ·) =
          if b then none else some ((completeEntries n).flatMap (answerEntry lookup) ++
            partialEntry n) := by
        rw [hentries, hpartial, List.flatMap_cons, List.append_assoc]
        cases b with
        | true => rfl
        | false => rfl
      rw [if_neg hshort, ih _ hrest, hmore, endsSpecial_long hlong]
      by_cases hempty : n.drop netinfoSize = []
      · have hno : endsSpecial [] = false := rfl
        rw [decide_eq_true hempty, Bool.and_true, if_pos hempty, hempty, hno]
        cases isSpecial (n.take netinfoSize) with
        | true => rfl
        | false => rfl
      · rw [decide_eq_false hempty, Bool.and_false, if_neg Bool.false_ne_true, if_neg hempty]

/-! ## `rip_input` -/

/-- What `rip_input` does: it supplies the sender with the tables, copies a reply into `packet` and
sends it, ends the name of a file in `inbuf`, and traces. -/
inductive Act where
  | supply (sent : List Bytes)
  | copy (size : ℕ)
  | output (b : Bytes)
  | terminate (index : ℕ)
  | traceon (file : Bytes)
  | traceoff
  deriving DecidableEq

def Act.InBounds : Act → Prop
  | .copy size => size ≤ packetBufSize
  | .terminate index => index < inbufSize
  | _ => True

instance : (a : Act) → Decidable a.InBounds
  | .copy size => inferInstanceAs (Decidable (size ≤ packetBufSize))
  | .terminate index => inferInstanceAs (Decidable (index < inbufSize))
  | .supply _ | .output _ | .traceon _ | .traceoff => inferInstanceAs (Decidable True)

def IPPORT_RESERVED : UInt16 := 1024

def replyHeader (req : Bytes) : Bytes := RIPCMD_RESPONSE :: (req.take 4).drop 1

/-- `RIPCMD_REQUEST`. -/
def requestAct (p : Platform) (s : Globals) (src : Sockaddr) (r : Received) : List Act :=
  if r.size - 4 < netinfoSize then []
  else
    match requestLoop (rtlookup s.ifnet s.tables) r.size (r.datagram.drop 4) with
    | none =>
      if s.supplier ≠ 0 ∨ src.port ≠ p.ripPort then
        [.supply (supplyMessages none src 0 s.tables)]
      else []
    | some n => [.copy r.size, .output (replyHeader r.datagram ++ n)]

/-- `RIPCMD_TRACEON` and `RIPCMD_TRACEOFF`. -/
def traceAct (s : Globals) (src : Sockaddr) (r : Received) : List Act :=
  if src.port > IPPORT_RESERVED then []
  else
    match ifIflookup s.ifnet src with
    | none => []
    | some ifp =>
      if !ifp.hasPeer then []
      else if ifp.flags.passive then []
      else
        [.terminate r.size,
          if r.cmd = RIPCMD_TRACEON then .traceon (cstring (r.datagram.drop 4)) else .traceoff]

/-- `rip_input`, but for a response. -/
def ripAct (p : Platform) (s : Globals) (src : Sockaddr) (r : Received) : List Act :=
  if src.family ≠ AF_INET then []
  else if r.vers = 0 then []
  else if r.cmd = RIPCMD_REQUEST then requestAct p s src r
  else if r.cmd = RIPCMD_TRACEON ∨ r.cmd = RIPCMD_TRACEOFF then traceAct s src r
  else []

/-! ## The reply -/

/-- The request is for the full table: one entry, of no family and of infinite metric. -/
def asksForTable (req : Bytes) : Prop := req.length = 24 ∧ isSpecial (req.drop 4) = true

/-- The reply: the command is that of a response, every complete entry has the metric of the answer,
and every other byte is that of the request. -/
def answered (lookup : Sockaddr → Option RtEntry) (req : Bytes) : Bytes :=
  replyHeader req ++ ((completeEntries (req.drop 4)).flatMap (answerEntry lookup) ++
    partialEntry (req.drop 4))

/-- The full table is sent only if it is asked for; otherwise a request with an entry gets the reply
that it should. -/
structure Answered (s : Globals) (req : Bytes) (acts : List Act) : Prop where
  table : (∃ sent, Act.supply sent ∈ acts) → asksForTable req
  reply : 24 ≤ req.length → ¬ asksForTable req →
    ∀ b, Act.output b ∈ acts ↔ b = answered (rtlookup s.ifnet s.tables) req

/-- What is claimed of a datagram: a request is answered, and nothing is written past a buffer. -/
def Sound (p : Platform) (s : Globals) (src : Sockaddr) (r : Received) : Prop :=
  (src.family = AF_INET → r.vers ≠ 0 → r.cmd = RIPCMD_REQUEST →
    Answered s r.datagram (ripAct p s src r)) ∧ ∀ a ∈ ripAct p s src r, a.InBounds

/-- A request fits into `packet`, and one that ends with the entry for all routes has no other; a
trace of a router that is believed leaves room for the NUL. -/
def Fits (s : Globals) (src : Sockaddr) (r : Received) : Prop :=
  src.family = AF_INET → r.vers ≠ 0 →
    (r.cmd = RIPCMD_REQUEST → r.size ≤ packetBufSize ∧
      (endsSpecial (r.datagram.drop 4) = true → r.size = 24)) ∧
    (r.cmd = RIPCMD_TRACEON ∨ r.cmd = RIPCMD_TRACEOFF → src.port ≤ IPPORT_RESERVED →
      (authenticated s.ifnet src).isSome → r.size < inbufSize)

variable {p : Platform} {s : Globals} {src : Sockaddr} {r : Received}

theorem endsSpecial_single {n : Bytes} (hn : n.length = netinfoSize) :
    endsSpecial n = isSpecial n := by
  rw [endsSpecial_long (Nat.le_of_eq hn.symm), if_pos (List.drop_of_length_le (Nat.le_of_eq hn)),
    List.take_of_length_le (Nat.le_of_eq hn)]

theorem requestAct_iff : (Answered s r.datagram (requestAct p s src r) ∧
      ∀ a ∈ requestAct p s src r, a.InBounds) ↔
    r.size ≤ packetBufSize ∧ (endsSpecial (r.datagram.drop 4) = true → r.size = 24) := by
  have hlength : (r.datagram.drop 4).length = r.size - 4 := by
    rw [List.length_drop, r.datagram_length]
  unfold requestAct
  by_cases hshort : r.size - 4 < netinfoSize
  · have hno : endsSpecial (r.datagram.drop 4) = false := by
      rw [endsSpecial, (completeEntries_short (hlength ▸ hshort)).1]
      rfl
    rw [if_pos hshort, hno]
    rw [netinfoSize] at hshort
    refine iff_of_true ⟨⟨?_, ?_⟩, ?_⟩ ⟨?_, fun h => absurd h Bool.false_ne_true⟩
    · rintro ⟨sent, hsent⟩
      exact absurd hsent List.not_mem_nil
    · intro hlong
      rw [r.datagram_length] at hlong
      omega
    · exact fun a ha => absurd ha List.not_mem_nil
    · rw [packetBufSize, MAXPACKETSIZE]
      omega
  · rw [if_neg hshort, requestLoop_eq _ _ _ (by rw [hlength]; omega)]
    rw [netinfoSize] at hshort
    cases hends : endsSpecial (r.datagram.drop 4) with
    | false =>
      rw [if_neg Bool.false_ne_true]
      dsimp only
      have hnot : ¬ asksForTable r.datagram := by
        rintro ⟨h24, hspecial⟩
        rw [r.datagram_length] at h24
        rw [endsSpecial_single (by rw [hlength, h24, netinfoSize]), hspecial] at hends
        cases hends
      have hanswered : Answered s r.datagram [.copy r.size, .output (replyHeader r.datagram ++
          ((completeEntries (r.datagram.drop 4)).flatMap
            (answerEntry (rtlookup s.ifnet s.tables)) ++ partialEntry (r.datagram.drop 4)))] := by
        refine ⟨?_, fun _ _ b => ?_⟩
        · rintro ⟨sent, hsent⟩
          simp at hsent
        · rw [answered]
          simp
      constructor
      · rintro ⟨-, hbounds⟩
        exact ⟨hbounds _ List.mem_cons_self, fun h => absurd h Bool.false_ne_true⟩
      · rintro ⟨hfits, -⟩
        refine ⟨hanswered, fun a ha => ?_⟩
        rcases List.mem_cons.mp ha with rfl | ha
        · exact hfits
        · rw [List.mem_singleton.mp ha]
          trivial
    | true =>
      rw [if_pos rfl]
      dsimp only
      have hacts : ∀ a ∈ (if s.supplier ≠ 0 ∨ src.port ≠ p.ripPort then
          [Act.supply (supplyMessages none src 0 s.tables)] else []),
          a = .supply (supplyMessages none src 0 s.tables) := by
        intro a ha
        split at ha
        · exact List.mem_singleton.mp ha
        · exact absurd ha List.not_mem_nil
      by_cases h24 : r.size = 24
      · have hasks : asksForTable r.datagram := by
          refine ⟨by rw [r.datagram_length, h24], ?_⟩
          rw [← endsSpecial_single (by rw [hlength, h24, netinfoSize]), hends]
        refine iff_of_true ⟨⟨fun _ => hasks, fun _ hnot => absurd hasks hnot⟩, ?_⟩
          ⟨by rw [h24]; decide, fun _ => h24⟩
        intro a ha
        rw [hacts a ha]
        trivial
      · refine iff_of_false ?_ (fun h => h24 (h.2 rfl))
        rintro ⟨hanswered, -⟩
        have hreply := (hanswered.reply (by rw [r.datagram_length]; omega)
          (fun hasks => h24 (r.datagram_length ▸ hasks.1)) _).mpr rfl
        exact absurd (hacts _ hreply) Act.noConfusion

theorem traceAct_iff : (∀ a ∈ traceAct s src r, a.InBounds) ↔
    (src.port ≤ IPPORT_RESERVED → (authenticated s.ifnet src).isSome → r.size < inbufSize) := by
  unfold traceAct authenticated
  by_cases hport : src.port > IPPORT_RESERVED
  · rw [if_pos hport]
    exact iff_of_true (fun a ha => absurd ha List.not_mem_nil)
      (fun hle => absurd hport (UInt16.not_lt.mpr hle))
  · rw [if_neg hport]
    have hle := UInt16.not_lt.mp hport
    cases ifIflookup s.ifnet src with
    | none =>
      exact iff_of_true (fun a ha => absurd ha List.not_mem_nil)
        (fun _ h => absurd h Bool.false_ne_true)
    | some ifp =>
      dsimp only
      cases ifp.hasPeer with
      | false =>
        exact iff_of_true (fun a ha => absurd ha List.not_mem_nil)
          (fun _ h => absurd h Bool.false_ne_true)
      | true =>
        cases ifp.flags.passive with
        | true =>
          exact iff_of_true (fun a ha => absurd ha List.not_mem_nil)
            (fun _ h => absurd h Bool.false_ne_true)
        | false =>
          constructor
          · intro hbounds _ _
            exact hbounds _ List.mem_cons_self
          · intro hfits a ha
            rcases List.mem_cons.mp ha with rfl | ha
            · exact hfits hle rfl
            · rw [List.mem_singleton.mp ha]
              split
              · trivial
              · trivial

/-- **A request is answered as it should be, and nothing is written past a buffer**, exactly if the
request fits into `packet` and has no other entry in front of one for all routes, and a trace leaves
room for the NUL. -/
theorem ripAct_iff (p : Platform) (s : Globals) (src : Sockaddr) (r : Received) :
    Sound p s src r ↔ Fits s src r := by
  unfold Sound Fits ripAct
  by_cases hfamily : src.family = AF_INET
  · by_cases hvers : r.vers = 0
    · rw [if_neg (not_not.mpr hfamily), if_pos hvers]
      exact iff_of_true ⟨fun _ h => absurd hvers h, fun a ha => absurd ha List.not_mem_nil⟩
        (fun _ h => absurd hvers h)
    · rw [if_neg (not_not.mpr hfamily), if_neg hvers]
      by_cases hrequest : r.cmd = RIPCMD_REQUEST
      · have hno : ¬ (r.cmd = RIPCMD_TRACEON ∨ r.cmd = RIPCMD_TRACEOFF) := by
          rw [hrequest]
          decide
        rw [if_pos hrequest]
        constructor
        · rintro ⟨hanswered, hbounds⟩ _ _
          exact ⟨fun _ => requestAct_iff.mp ⟨hanswered hfamily hvers hrequest, hbounds⟩,
            fun htrace => absurd htrace hno⟩
        · intro hfits
          obtain ⟨hanswered, hbounds⟩ := requestAct_iff.mpr ((hfits hfamily hvers).1 hrequest)
          exact ⟨fun _ _ _ => hanswered, hbounds⟩
      · rw [if_neg hrequest]
        by_cases htrace : r.cmd = RIPCMD_TRACEON ∨ r.cmd = RIPCMD_TRACEOFF
        · rw [if_pos htrace]
          constructor
          · rintro ⟨-, hbounds⟩ _ _
            exact ⟨fun h => absurd h hrequest, fun _ => traceAct_iff.mp hbounds⟩
          · intro hfits
            exact ⟨fun _ _ h => absurd h hrequest,
              traceAct_iff.mpr ((hfits hfamily hvers).2 htrace)⟩
        · rw [if_neg htrace]
          exact iff_of_true
            ⟨fun _ _ h => absurd h hrequest, fun a ha => absurd ha List.not_mem_nil⟩
            (fun _ _ => ⟨fun h => absurd h hrequest, fun h => absurd h htrace⟩)
  · rw [if_pos hfamily]
    exact iff_of_true ⟨fun h => absurd h hfamily, fun a ha => absurd ha List.not_mem_nil⟩
      (fun h => absurd h hfamily)

def twoEntries : Received :=
  receive ([RIPCMD_REQUEST, RIPVERSION, 0, 0] ++ netinfoBytes ⟨sockaddrIn 0x0b000001, 1⟩ ++
    netinfoBytes ⟨⟨AF_UNSPEC, 0, 0, 0⟩, HOPCNT_INFINITY⟩) (by decide)
    (List.replicate inbufSize 0) (List.length_replicate)

def longRequest : Received :=
  receive ([RIPCMD_REQUEST, RIPVERSION, 0, 0] ++ List.replicate 510 0) (by decide)
    (List.replicate inbufSize 0) (List.length_replicate)

/-- The sender of two entries, the last of which is for all routes, is supplied with the whole
table; and the reply to a request of 514 bytes is copied past the end of `packet`. -/
theorem ripAct_unsound :
    ¬ Sound linux (Globals.boot 1 ⟨0, 0⟩) ⟨AF_INET, 1025, 0x0a000002, 0⟩ twoEntries ∧
      ¬ Sound linux (Globals.boot 1 ⟨0, 0⟩) ⟨AF_INET, 1025, 0x0a000002, 0⟩ longRequest := by
  constructor
  · intro hsound
    have hanswered := hsound.1 rfl (by decide +kernel) (by decide +kernel)
    have hsupply : Act.supply [responseHeader] ∈
        ripAct linux (Globals.boot 1 ⟨0, 0⟩) ⟨AF_INET, 1025, 0x0a000002, 0⟩ twoEntries := by
      decide +kernel
    exact absurd (hanswered.table ⟨_, hsupply⟩).1 (by decide +kernel)
  · intro hsound
    exact absurd (hsound.2 (.copy 514) (by decide +kernel)) (by decide)

end Netkit.Routed

import Netkit.Foundations.Pieces
import Netkit.Foundations.ByteOrder
import Netkit.Routed.Output

/-!
# The datagrams of routed

`struct rip` as it is sent, and `supply` with the packet that it fills. In `Output` the routes are
filtered first and packed afterwards; here they are copied into the packet in the loops over the two
tables, and the packet is sent when there is no room for another entry.

* `supply_partition`: the datagrams hold the routes that pass the filters, each once.
-/

namespace Netkit.Routed

open Netkit.Foundations

/-! ## Entries -/

def RIPCMD_REQUEST : UInt8 := 1
def RIPCMD_RESPONSE : UInt8 := 2
def RIPCMD_TRACEON : UInt8 := 3
def RIPCMD_TRACEOFF : UInt8 := 4
def RIPVERSION : UInt8 := 1

/-- `sizeof (struct netinfo)`. -/
def netinfoSize : ℕ := 20

/-- What an `int` holds of a number. -/
def toInt (m : Int) : Int := Int.bmod m 4294967296

/-- `struct sockaddr`, with its family in network byte order. -/
def sockaddrBytes (a : Sockaddr) : Bytes :=
  wordBytes 2 a.family.toNat ++ (wordBytes 2 a.port.toNat ++
    (wordBytes 4 a.addr.toNat ++ wordBytes 8 a.zero.toNat))

def sockaddrOf (b : Bytes) : Sockaddr where
  family := UInt16.ofNat (word (b.take 2))
  port := UInt16.ofNat (word ((b.drop 2).take 2))
  addr := UInt32.ofNat (word ((b.drop 4).take 4))
  zero := UInt64.ofNat (word ((b.drop 8).take 8))

/-- `htonl(metric)`. -/
def metricBytes (m : Int) : Bytes := wordBytes 4 (m % 4294967296).toNat

def metricOf (b : Bytes) : Int := toInt (word (b.take 4))

/-- `struct netinfo`. -/
def netinfoBytes (n : Netinfo) : Bytes := sockaddrBytes n.dst ++ metricBytes n.metric

def netinfoOf (b : Bytes) : Netinfo := ⟨sockaddrOf (b.take 16), metricOf (b.drop 16)⟩

def completeEntries (b : Bytes) : List Bytes := blocks netinfoSize b (b.length / netinfoSize)

def nets (m : Bytes) : List Netinfo := (completeEntries (m.drop 4)).map netinfoOf

theorem sockaddrBytes_length (a : Sockaddr) : (sockaddrBytes a).length = 16 := by
  simp only [sockaddrBytes, List.length_append, wordBytes_length]

@[simp] theorem sockaddrOf_bytes (a : Sockaddr) : sockaddrOf (sockaddrBytes a) = a := by
  obtain ⟨family, port, addr, zero⟩ := a
  have hfamily : word (wordBytes 2 family.toNat) = family.toNat :=
    word_wordBytes_of_lt family.toNat_lt
  have hport : word (wordBytes 2 port.toNat) = port.toNat := word_wordBytes_of_lt port.toNat_lt
  have haddr : word (wordBytes 4 addr.toNat) = addr.toNat := word_wordBytes_of_lt addr.toNat_lt
  have hzero : word (wordBytes 8 zero.toNat) = zero.toNat := word_wordBytes_of_lt zero.toNat_lt
  have hdrop (b : Bytes) : b.drop 4 = (b.drop 2).drop 2 := by rw [List.drop_drop]
  have hdrop' (b : Bytes) : b.drop 8 = ((b.drop 2).drop 2).drop 4 := by
    rw [List.drop_drop, List.drop_drop]
  have hlast : (wordBytes 8 zero.toNat).take 8 = wordBytes 8 zero.toNat :=
    List.take_of_length_le (Nat.le_of_eq (wordBytes_length _ _))
  rw [sockaddrOf, hdrop' (sockaddrBytes _), hdrop (sockaddrBytes _)]
  simp only [sockaddrBytes, take_wordBytes, drop_wordBytes, hfamily, hport, haddr, hlast, hzero,
    UInt16.ofNat_toNat, UInt32.ofNat_toNat, UInt64.ofNat_toNat]

theorem metricBytes_length (m : Int) : (metricBytes m).length = 4 := wordBytes_length _ _

@[simp] theorem metricOf_bytes (m : Int) : metricOf (metricBytes m) = toInt m := by
  have hlt : (m % 4294967296).toNat < 256 ^ 4 := by omega
  rw [metricOf, List.take_of_length_le (Nat.le_of_eq (metricBytes_length m)), metricBytes,
    word_wordBytes_of_lt hlt, toInt, toInt, Int.toNat_of_nonneg (Int.emod_nonneg m (by decide))]
  exact Int.emod_bmod m 4294967296

theorem netinfoBytes_length (n : Netinfo) : (netinfoBytes n).length = netinfoSize := by
  rw [netinfoBytes, List.length_append, sockaddrBytes_length, metricBytes_length, netinfoSize]

@[simp] theorem netinfoOf_bytes (n : Netinfo) :
    netinfoOf (netinfoBytes n) = ⟨n.dst, toInt n.metric⟩ := by
  rw [netinfoOf, netinfoBytes, List.take_left' (sockaddrBytes_length n.dst),
    List.drop_left' (sockaddrBytes_length n.dst), sockaddrOf_bytes, metricOf_bytes]

/-! ## `supply` -/

def RTS_CHANGED : UInt32 := 0x1
def RTS_EXTERNAL : UInt32 := 0x2
def RTS_INTERNAL : UInt32 := 0x4
def RTS_SUBNET : UInt32 := 0x100000
def RTS_PASSIVE : UInt32 := 0x200000
def RTS_INTERFACE : UInt32 := 0x400000
def RTS_REMOTE : UInt32 := 0x800000

/-- `rt_state` as a word. -/
def RtEntry.stateWord (rt : RtEntry) : UInt32 :=
  (if rt.changed then RTS_CHANGED else 0) ||| (if rt.state.external then RTS_EXTERNAL else 0) |||
    (if rt.state.internal then RTS_INTERNAL else 0) |||
    (if rt.state.subnet then RTS_SUBNET else 0) |||
    (if rt.state.passive then RTS_PASSIVE else 0) |||
    (if rt.state.interface then RTS_INTERFACE else 0) |||
    (if rt.state.remote then RTS_REMOTE else 0)

def responseHeader : Bytes := [RIPCMD_RESPONSE, RIPVERSION, 0, 0]

/-- The loops of `supply`: what is in the packet in front of `n`, the packets that have been sent,
and whether `supply` has returned. -/
structure Supplying where
  msg : Bytes
  npackets : ℕ
  sent : List Bytes
  returned : Bool

def supplyEntry (ifp : Option Interface) (dst : Sockaddr) (rtstate : UInt32) (doinghost : Bool)
    (s : Supplying) (rt : RtEntry) : Supplying :=
  if s.returned then s
  else if splitHorizon ifp rt then s
  else if rt.state.external then s
  else if rtstate ≠ 0 ∧ rt.stateWord &&& rtstate = 0 then s
  else if !doinghost && subnetFilter dst rt then s
  else if s.msg.length > MAXPACKETSIZE - netinfoSize then
    if isAlone ifp then { s with sent := s.sent ++ [s.msg], returned := true }
    else
      { s with
        msg := responseHeader ++ netinfoBytes rt.netinfo
        npackets := s.npackets + 1
        sent := s.sent ++ [s.msg] }
  else { s with msg := s.msg ++ netinfoBytes rt.netinfo }

/-- The packets that `supply` sends. -/
def supplyMessages (ifp : Option Interface) (dst : Sockaddr) (rtstate : UInt32) (t : Tables) :
    List Bytes :=
  let s := t.hosthash.elements.foldl (supplyEntry ifp dst rtstate true)
    ⟨responseHeader, 0, [], false⟩
  let s := t.nethash.elements.foldl (supplyEntry ifp dst rtstate false) s
  if s.returned then s.sent
  else if s.msg.length ≠ 4 ∨ (s.npackets = 0 ∧ rtstate = 0) then s.sent ++ [s.msg]
  else s.sent

/-- The filters of `supply`. -/
def passes (ifp : Option Interface) (dst : Sockaddr) (rtstate : UInt32) (doinghost : Bool)
    (rt : RtEntry) : Bool :=
  !splitHorizon ifp rt && !rt.state.external &&
    (decide (rtstate = 0) || decide (rt.stateWord &&& rtstate ≠ 0)) &&
    (doinghost || !subnetFilter dst rt)

def passing (ifp : Option Interface) (dst : Sockaddr) (rtstate : UInt32) (t : Tables) :
    List RtEntry :=
  t.hosthash.elements.filter (passes ifp dst rtstate true) ++
    t.nethash.elements.filter (passes ifp dst rtstate false)

/-! ## The packets -/

def message (n : List RtEntry) : Bytes :=
  responseHeader ++ n.flatMap (fun rt => netinfoBytes rt.netinfo)

theorem message_length (n : List RtEntry) : (message n).length = packetSize n := by
  have hentries : (n.flatMap (fun rt => netinfoBytes rt.netinfo)).length = 20 * n.length := by
    induction n with
    | nil => rfl
    | cons rt n ih =>
      rw [List.flatMap_cons, List.length_append, netinfoBytes_length, ih, List.length_cons,
        netinfoSize]
      omega
  rw [message, List.length_append, hentries, packetSize]
  rfl

theorem message_snoc (n : List RtEntry) (rt : RtEntry) :
    message (n ++ [rt]) = message n ++ netinfoBytes rt.netinfo := by
  rw [message, message, List.flatMap_append, ← List.append_assoc, List.flatMap_singleton]

theorem nets_message (n : List RtEntry) :
    nets (message n) = n.map (fun rt => ⟨rt.dst, toInt rt.metric⟩) := by
  have hcount : ((message n).drop 4).length / netinfoSize = n.length := by
    rw [List.length_drop, message_length, packetSize, netinfoSize]
    omega
  have hentries : (message n).drop 4 = n.flatMap (fun rt => netinfoBytes rt.netinfo) := rfl
  rw [nets, completeEntries, hcount, hentries,
    blocks_flatMap (fun rt : RtEntry => netinfoBytes_length rt.netinfo), List.map_map]
  exact List.map_congr_left (fun rt _ => netinfoOf_bytes rt.netinfo)

variable {ifp : Option Interface} {dst : Sockaddr} {rtstate : UInt32} {doinghost : Bool}
  {s : Supplying} {rt : RtEntry}

def supplyRoute (alone : Bool) (s : Supplying) (rt : RtEntry) : Supplying :=
  if s.returned then s
  else if s.msg.length > MAXPACKETSIZE - netinfoSize then
    if alone then { s with sent := s.sent ++ [s.msg], returned := true }
    else
      { s with
        msg := responseHeader ++ netinfoBytes rt.netinfo
        npackets := s.npackets + 1
        sent := s.sent ++ [s.msg] }
  else { s with msg := s.msg ++ netinfoBytes rt.netinfo }

theorem supplyEntry_eq : supplyEntry ifp dst rtstate doinghost s rt =
    if passes ifp dst rtstate doinghost rt then supplyRoute (isAlone ifp) s rt else s := by
  unfold supplyEntry passes supplyRoute
  by_cases hreturned : s.returned = true
  · simp only [hreturned, if_true]
    split
    · rfl
    · rfl
  · simp only [hreturned, Bool.false_eq_true, if_false]
    cases splitHorizon ifp rt with
    | true => rfl
    | false =>
      cases rt.state.external with
      | true => rfl
      | false =>
        by_cases hstate : rtstate = 0
        · cases hsubnet : subnetFilter dst rt <;> cases doinghost <;> simp [hstate]
        · by_cases hword : rt.stateWord &&& rtstate = 0
          · simp [hstate, hword]
          · cases hsubnet : subnetFilter dst rt <;> cases doinghost <;> simp [hstate, hword]

theorem foldl_supplyEntry (l : List RtEntry) (s : Supplying) :
    l.foldl (supplyEntry ifp dst rtstate doinghost) s =
      (l.filter (passes ifp dst rtstate doinghost)).foldl (supplyRoute (isAlone ifp)) s := by
  induction l generalizing s with
  | nil => rfl
  | cons rt l ih =>
    rw [List.foldl_cons, supplyEntry_eq, ih]
    by_cases hpasses : passes ifp dst rtstate doinghost rt = true
    · rw [if_pos hpasses, List.filter_cons_of_pos hpasses, List.foldl_cons]
    · rw [if_neg hpasses, List.filter_cons_of_neg hpasses]

/-- The end of `supply`. -/
def Supplying.finish (rtstate : UInt32) (s : Supplying) : List Bytes :=
  if s.returned then s.sent
  else if s.msg.length ≠ 4 ∨ (s.npackets = 0 ∧ rtstate = 0) then s.sent ++ [s.msg]
  else s.sent

theorem foldl_returned (alone : Bool) (l : List RtEntry) (hreturned : s.returned = true) :
    l.foldl (supplyRoute alone) s = s := by
  induction l with
  | nil => rfl
  | cons rt l ih =>
    rw [List.foldl_cons, supplyRoute, if_pos hreturned]
    exact ih

/-- The packet holds the routes `n` and `sent` has gone out; the routes that are left are packed as
`pack` says. -/
theorem finish_pack (rtstate : UInt32) (alone : Bool) (rest : List RtEntry) (n : List RtEntry)
    (npackets : ℕ) (sent : List Bytes) :
    (rest.foldl (supplyRoute alone) ⟨message n, npackets, sent, false⟩).finish rtstate =
      sent ++ (pack alone (decide (rtstate ≠ 0)) npackets n rest).map message := by
  induction rest generalizing n npackets sent with
  | nil =>
    have hempty : (message n).length ≠ 4 ↔ n ≠ [] := by
      rw [message_length, packetSize]
      cases n with
      | nil => simp
      | cons rt n => simp
    rw [List.foldl_nil, Supplying.finish, pack, if_neg Bool.false_ne_true]
    have hstate : decide (rtstate ≠ 0) = false ↔ rtstate = 0 := by simp
    simp only [hempty, hstate]
    split
    · rw [List.map_singleton]
    · rw [List.map_nil, List.append_nil]
  | cons rt rest ih =>
    rw [List.foldl_cons, supplyRoute, if_neg Bool.false_ne_true, pack]
    dsimp only
    rw [message_length, netinfoSize]
    split
    · rw [List.map_cons]
      cases alone with
      | true =>
        rw [if_pos rfl, if_pos rfl, foldl_returned true rest rfl, List.map_nil]
        rfl
      | false =>
        have hnext : responseHeader ++ netinfoBytes rt.netinfo = message [rt] := by
          rw [message, List.flatMap_singleton]
        rw [if_neg Bool.false_ne_true, if_neg Bool.false_ne_true, hnext, ih, List.append_assoc,
          List.singleton_append]
    · rw [← message_snoc, ih]

/-- `supply` sends the routes that pass the filters, packed as in `Output`. -/
theorem supplyMessages_eq (ifp : Option Interface) (dst : Sockaddr) (rtstate : UInt32)
    (t : Tables) : supplyMessages ifp dst rtstate t =
      (pack (isAlone ifp) (decide (rtstate ≠ 0)) 0 [] (passing ifp dst rtstate t)).map message := by
  have hfinish := finish_pack rtstate (isAlone ifp) (passing ifp dst rtstate t) [] 0 []
  rw [passing, List.foldl_append, List.nil_append] at hfinish
  rw [passing, ← hfinish, supplyMessages, foldl_supplyEntry, foldl_supplyEntry]
  rfl

/-! ## The partition -/

theorem pack_length {alone changedOnly : Bool} (npackets : ℕ) (n rest : List RtEntry)
    (hn : n.length ≤ 25) : ∀ p ∈ pack alone changedOnly npackets n rest, p.length ≤ 25 := by
  induction rest generalizing npackets n with
  | nil =>
    intro p hp
    unfold pack at hp
    split at hp
    · rw [List.mem_singleton.mp hp]
      exact hn
    · exact absurd hp List.not_mem_nil
  | cons rt rest ih =>
    intro p hp
    unfold pack at hp
    split at hp
    · rcases List.mem_cons.mp hp with rfl | hp
      · exact hn
      · split at hp
        · exact absurd hp List.not_mem_nil
        · exact ih _ _ (by simp) p hp
    · next hroom =>
      refine ih _ _ ?_ p hp
      rw [packetSize, MAXPACKETSIZE] at hroom
      rw [List.length_append, List.length_singleton]
      omega

theorem pack_alone_flatten (changedOnly : Bool) (npackets : ℕ) (n rest : List RtEntry)
    (hn : n.length ≤ 25) :
    (pack true changedOnly npackets n rest).flatten = (n ++ rest).take 25 := by
  induction rest generalizing npackets n with
  | nil =>
    rw [List.append_nil, List.take_of_length_le hn]
    unfold pack
    split
    · simp
    · next h =>
      have hempty : n = [] := by
        by_contra hne
        exact h (Or.inl hne)
      simp [hempty]
  | cons rt rest ih =>
    unfold pack
    split
    · next hfull =>
      rw [packetSize, MAXPACKETSIZE] at hfull
      have hlength : n.length = 25 := by omega
      rw [if_pos rfl, List.flatten_singleton, ← hlength, List.take_left]
    · next hroom =>
      rw [packetSize, MAXPACKETSIZE] at hroom
      rw [ih, List.append_assoc, List.singleton_append]
      rw [List.length_append, List.length_singleton]
      omega

/-- The routes that `supply` sends: those that pass the filters, but only as many as one packet
takes if we send to ourselves only. -/
def emitted (ifp : Option Interface) (dst : Sockaddr) (rtstate : UInt32) (t : Tables) :
    List RtEntry :=
  if isAlone ifp then (passing ifp dst rtstate t).take 25 else passing ifp dst rtstate t

/-- **The packets of `supply` are a partition of the table**: no packet is longer than
MAXPACKETSIZE, and one after the other they hold the routes that pass the filters, each once and in
the order of the tables, with their metrics. -/
theorem supply_partition (ifp : Option Interface) (dst : Sockaddr) (rtstate : UInt32) (t : Tables) :
    (∀ m ∈ supplyMessages ifp dst rtstate t, m.length ≤ MAXPACKETSIZE) ∧
      (supplyMessages ifp dst rtstate t).flatMap nets =
        (emitted ifp dst rtstate t).map (fun rt => ⟨rt.dst, toInt rt.metric⟩) := by
  have hempty : ([] : List RtEntry).length ≤ 25 := Nat.zero_le _
  rw [supplyMessages_eq]
  constructor
  · intro m hm
    obtain ⟨n, hn, rfl⟩ := List.mem_map.mp hm
    have hlength := pack_length 0 [] _ hempty n hn
    rw [message_length, packetSize, MAXPACKETSIZE]
    omega
  · have hflatten : (pack (isAlone ifp) (decide (rtstate ≠ 0)) 0 []
        (passing ifp dst rtstate t)).flatten = emitted ifp dst rtstate t := by
      rw [emitted]
      cases halone : isAlone ifp with
      | true => rw [pack_alone_flatten _ _ _ _ hempty, if_pos rfl, List.nil_append]
      | false => rw [pack_flatten, if_neg Bool.false_ne_true, List.nil_append]
    rw [← hflatten, List.map_flatten, List.flatMap_map]
    exact congrArg List.flatten (List.map_congr_left (fun n _ => nets_message n))

/-! ## An interface without anyone to talk to -/

def lonely : Interface :=
  ⟨0, sockaddrIn 0x0a000001, sockaddrIn 0, 1, { interface := true }, 0x0a000000, 0xff000000,
    0x0a000000, 0xff000000⟩

def manyRoutes : Tables :=
  (List.range 26).foldl
    (fun t i => rtadd ⟨0x020000, fun _ => none, [], false, sockaddrIn 0, none⟩
      (sockaddrIn (0x0b000001 + UInt32.ofNat i)) (sockaddrIn 0x0a000002) 1 {} t) rtinit

/-- Only the first packet is sent, and the last route is in none. -/
theorem supply_alone :
    (supplyMessages (some lonely) (sockaddrIn 0x0a000001) 0 manyRoutes).flatMap nets ≠
      (passing (some lonely) (sockaddrIn 0x0a000001) 0 manyRoutes).map
        (fun rt => ⟨rt.dst, toInt rt.metric⟩) := by decide +kernel

end Netkit.Routed

import Netkit.Foundations.Runs
import Netkit.Ping.Checksum
import Netkit.Ping.Packets

/-!
# The data of a reply

`pinger` sends the payload of `outpack`, in which it rewrites the timeval for every request; all
other bytes are filled in once, by `fill` or by `main`. `check_packet_data` compares a reply with
the payload as it is then, and only as far as `datalen-ICMP_MINLEN`, although `datalen` is the
length of the data without the header.

* `checkPacketData_exact_iff`: the replies for which the check is right.
-/

namespace Netkit.Ping

open Netkit.Foundations

/-! ## Requests -/

def IP_MAXPACKET : Nat := 65535

def MAXIPLEN : Nat := 60

def MAXPAYLOAD : Nat := IP_MAXPACKET - MAXIPLEN - ICMP_MINLEN

def ICMP_ECHO : UInt8 := 8

/-- The options, with the size of `-s` and with the values that `sscanf` has found in the pattern of
`-p`. -/
structure Filled extends Settings where
  pattern : Option Bytes
  patlen_le : ∀ pat ∈ pattern, pat.length ≤ 16
  datalen_pos : 0 < datalen
  datalen_le : datalen ≤ MAXPAYLOAD

/-- What is in the payload of `outpack` before the first request. A pattern fills all of `outpack`,
the header included; with no values in it, nothing is filled. -/
def Filled.fill (o : Filled) : Bytes :=
  match o.pattern with
  | some pat =>
    (List.range o.datalen).map fun i => pat.getD ((i + ICMP_MINLEN) % pat.length) 0
  | none => (List.range o.datalen).map UInt8.ofNat

def Filled.dataStart (o : Filled) : Nat := if o.timing then 16 else 0

/-- A `struct icmp` and the data behind it. -/
structure Icmp where
  icmpType : UInt8
  icmpCode : UInt8
  icmpCksum : UInt16
  icmpId : UInt16
  icmpSeq : UInt16
  icmpData : Bytes
deriving DecidableEq

def Icmp.bytes (order : ByteOrder) (p : Icmp) : Bytes :=
  [p.icmpType, p.icmpCode] ++ (order.store 2 p.icmpCksum.toNat ++
    (order.store 2 p.icmpId.toNat ++ order.store 2 p.icmpSeq.toNat ++ p.icmpData))

/-- A `struct timeval` in memory. -/
def Timeval.bytes (order : ByteOrder) (t : Timeval) : Bytes :=
  order.store 8 t.sec.toNat ++ order.store 8 t.usec.toNat

/-- The packet that `pinger` sends at the time `now`. -/
def compose (order : ByteOrder) (o : Filled) (now : Reading) (ntransmitted : Nat)
    (payload : Bytes) : Icmp :=
  let icmp : Icmp :=
    { icmpType := ICMP_ECHO
      icmpCode := 0
      icmpCksum := 0
      icmpSeq := icmpSeq ntransmitted
      icmpId := o.ident
      icmpData :=
        if o.timing then now.toTimeval.bytes order ++ payload.drop 16 else payload }
  { icmp with icmpCksum := inCksum order (icmp.bytes order) }

/-! ## Replies -/

/-- `%x`. -/
def hex (b : UInt8) : String := String.ofList (Nat.toDigits 16 b.toNat)

/-- The first byte in which the two differ, among those that `check_packet_data` looks at. -/
def wrongByte (o : Settings) (cp dp : Bytes) : Option Nat :=
  (List.range (o.datalen - ICMP_MINLEN)).find? fun i => cp.getD i 0 != dp.getD i 0

/-- What `check_packet_data` prints: `cp` is the payload of the reply, `dp` that of `outpack`. -/
def checkPacketData (o : Settings) (cp dp : Bytes) : String :=
  match wrongByte o cp dp with
  | some i =>
    "\nwrong data byte #" ++ toString i ++ " should be 0x" ++ hex (dp.getD i 0) ++
      " but was 0x" ++ hex (cp.getD i 0) ++
      String.join ((List.range (o.datalen - ICMP_MINLEN)).map fun i =>
        (if i % 32 = 8 then "\n\t" else "") ++ hex (cp.getD i 0) ++ " ")
  | none => ""

/-! ## Requests and replies in any order -/

structure Outgoing where
  ntransmitted : Nat
  /-- The first `datalen` bytes of the payload of `outpack`. -/
  payload : Bytes
  /-- The requests that have been sent. -/
  sent : List Icmp
deriving DecidableEq

def Outgoing.start (o : Filled) : Outgoing := ⟨0, o.fill, []⟩

inductive DataEvent where
  | send (now : Reading)
  /-- A reply to the request `n` that `pr_pack` gives to `check_packet_data`; the payload goes to
  the end of what has come. -/
  | reply (n : Nat) (cp : Bytes)

def Outgoing.send (order : ByteOrder) (o : Filled) (now : Reading) (s : Outgoing) : Outgoing :=
  let icmp := compose order o now s.ntransmitted s.payload
  { ntransmitted := s.ntransmitted + 1
    payload := icmp.icmpData
    sent := s.sent ++ [icmp] }

/-- `pr_pack` has refused a packet with less than `datalen` bytes of data. -/
def dataStep (order : ByteOrder) (o : Filled) (s : Outgoing) : DataEvent → Option Outgoing
  | .send now => some (s.send order o now)
  | .reply n cp => if n < s.sent.length ∧ o.datalen ≤ cp.length then some s else none

/-- The two differ in one of the bytes from `i` to `j`. -/
def Differ (a b : Bytes) (i j : Nat) : Prop := ∃ k, k < j ∧ i ≤ k ∧ a.getD k 0 ≠ b.getD k 0

instance (a b : Bytes) (i j : Nat) : Decidable (Differ a b i j) :=
  inferInstanceAs (Decidable (∃ k, k < j ∧ _))

/-- A wrong byte is reported exactly if the data of the reply are not those of the request. -/
def Exact (o : Filled) (s : Outgoing) : DataEvent → Prop
  | .send _ => True
  | .reply n cp => ∀ p, s.sent[n]? = some p →
      (checkPacketData o.toSettings cp s.payload ≠ "" ↔
        Differ cp p.icmpData o.dataStart o.datalen)

/-- One of the bytes between the timeval and the last eight is wrong; or else one of the last eight
is, exactly if the timeval, as far as it is before them, is not that of the latest request. -/
def Told (o : Filled) (s : Outgoing) : DataEvent → Prop
  | .send _ => True
  | .reply _ cp =>
      Differ cp o.fill o.dataStart (o.datalen - ICMP_MINLEN) ∨
        (Differ cp s.payload 0 (min o.dataStart (o.datalen - ICMP_MINLEN)) ↔
          Differ cp o.fill (max o.dataStart (o.datalen - ICMP_MINLEN)) o.datalen)

instance (o : Filled) (s : Outgoing) : (e : DataEvent) → Decidable (Told o s e)
  | .send _ => isTrue trivial
  | .reply _ _ => inferInstanceAs (Decidable (_ ∨ (_ ↔ _)))

/-! ## The checksum -/

variable {order : ByteOrder} {o : Filled} {now : Reading} {s t : Outgoing} {a b c : Bytes}
  {i j k : Nat}

theorem length_fill (o : Filled) : o.fill.length = o.datalen := by
  unfold Filled.fill
  split
  · rw [List.length_map, List.length_range]
  · rw [List.length_map, List.length_range]

theorem length_timeval (order : ByteOrder) (t : Timeval) : (t.bytes order).length = 16 := by
  rw [Timeval.bytes, List.length_append, ByteOrder.store_length, ByteOrder.store_length]

theorem timing_le (h : o.timing = true) : 16 ≤ o.datalen := by
  rw [Settings.timing, decide_eq_true_eq] at h
  exact h

theorem length_compose (hpayload : a.length = o.datalen) (n : Nat) :
    (compose order o now n a).icmpData.length = o.datalen := by
  show (if o.timing then now.toTimeval.bytes order ++ a.drop 16 else a).length = o.datalen
  split
  · next htiming =>
    have hle := timing_le htiming
    rw [List.length_append, length_timeval, List.length_drop, hpayload]
    omega
  · exact hpayload

theorem compose_cksum (hpayload : a.length = o.datalen) (n : Nat) :
    inCksum order ((compose order o now n a).bytes order) = 0 := by
  have hlength : (compose order o now n a).icmpData.length = o.datalen :=
    length_compose hpayload n
  have hle := o.datalen_le
  have hzero : order.store 2 (0 : UInt16).toNat = [0, 0] := by
    cases order <;> rfl
  unfold compose Icmp.bytes at *
  dsimp only at hlength ⊢
  rw [hzero]
  generalize (if o.timing then now.toTimeval.bytes order ++ a.drop 16 else a) = data at hlength ⊢
  refine @inCksum_field order [ICMP_ECHO, 0]
    (order.store 2 o.ident.toNat ++ order.store 2 (icmpSeq n).toNat ++ data) ⟨1, rfl⟩ ?_
  simp only [List.length_append, List.length_cons, List.length_nil, ByteOrder.store_length, hlength]
  unfold MAXPAYLOAD IP_MAXPACKET MAXIPLEN ICMP_MINLEN at hle
  omega

/-! ## What every step keeps -/

def SameData (o : Filled) (a : Bytes) : Prop :=
  a.length = o.datalen ∧ a.drop o.dataStart = o.fill.drop o.dataStart

structure Filling (o : Filled) (s : Outgoing) : Prop where
  payload : SameData o s.payload
  sent : ∀ p ∈ s.sent, SameData o p.icmpData

theorem sameData_compose (h : SameData o a) (n : Nat) :
    SameData o (compose order o now n a).icmpData := by
  refine ⟨length_compose h.1 n, ?_⟩
  show List.drop o.dataStart (if o.timing then now.toTimeval.bytes order ++ a.drop 16 else a) = _
  rw [← h.2]
  split
  · next htiming =>
    rw [Filled.dataStart, if_pos htiming,
      List.drop_left' (length_timeval order now.toTimeval)]
  · rfl

theorem start_filling (o : Filled) : Filling o (.start o) where
  payload := ⟨length_fill o, rfl⟩
  sent := fun _ hp => absurd hp List.not_mem_nil

theorem dataStep_filling {e : DataEvent} (hs : Filling o s) (h : dataStep order o s e = some t) :
    Filling o t := by
  cases e with
  | send now =>
    cases h
    refine ⟨sameData_compose hs.payload s.ntransmitted, fun p hp => ?_⟩
    rcases List.mem_append.mp hp with hp | hp
    · exact hs.sent p hp
    · obtain rfl := List.mem_singleton.mp hp
      exact sameData_compose hs.payload s.ntransmitted
  | reply n cp =>
    rw [dataStep] at h
    split at h
    · cases h
      exact hs
    · cases h

/-- The request number `n` passes the check of its receiver, it can be told by its numbers, and its
data are the ones that replies are compared with. -/
structure Verifies (order : ByteOrder) (o : Filled) (n : Nat) (p : Icmp) : Prop where
  cksum : inCksum order (p.bytes order) = 0
  icmpType : p.icmpType = ICMP_ECHO
  icmpId : p.icmpId = o.ident
  icmpSeq : p.icmpSeq = Ping.icmpSeq n
  data : SameData o p.icmpData

structure Requests (order : ByteOrder) (o : Filled) (s : Outgoing) : Prop where
  payload : SameData o s.payload
  count : s.ntransmitted = s.sent.length
  sent : ∀ n p, s.sent[n]? = some p → Verifies order o n p

theorem dataStep_requests {e : DataEvent} (hs : Requests order o s)
    (h : dataStep order o s e = some t) : Requests order o t := by
  cases e with
  | send now =>
    have hnew : Verifies order o s.ntransmitted (compose order o now s.ntransmitted s.payload) :=
      ⟨compose_cksum hs.payload.1 _, rfl, rfl, rfl, sameData_compose hs.payload _⟩
    unfold dataStep Outgoing.send at h
    dsimp only at h
    generalize compose order o now s.ntransmitted s.payload = icmp at h hnew
    cases h
    refine ⟨hnew.data, ?_, fun n p hp => ?_⟩
    · rw [List.length_append, hs.count]
      rfl
    · by_cases hn : n < s.sent.length
      · rw [List.getElem?_append_left hn] at hp
        exact hs.sent n p hp
      · have hlt := (List.getElem?_eq_some_iff.mp hp).1
        rw [List.length_append, List.length_singleton] at hlt
        have hlast : n = s.sent.length := by omega
        rw [hlast, List.getElem?_concat_length] at hp
        rw [hlast, ← hs.count, ← Option.some.inj hp]
        exact hnew
  | reply n cp =>
    rw [dataStep] at h
    split at h
    · cases h
      exact hs
    · cases h

/-- In every run, of any options and over any clock. -/
theorem requests_verified {es : List DataEvent} {u : Outgoing}
    (hrun : run (dataStep order o) (.start o) es = some u) {n : Nat} {p : Icmp}
    (hp : u.sent[n]? = some p) : Verifies order o n p :=
  (run_invariant (fun _ _ _ hs h => dataStep_requests hs h)
    ⟨⟨length_fill o, rfl⟩, rfl, fun _ _ h => (by cases h)⟩ hrun).sent n p hp

/-! ## The check -/

theorem checkPacketData_ne (o : Settings) (cp dp : Bytes) :
    checkPacketData o cp dp ≠ "" ↔ Differ cp dp 0 (o.datalen - ICMP_MINLEN) := by
  have hfind : (wrongByte o cp dp).isSome = true ↔ Differ cp dp 0 (o.datalen - ICMP_MINLEN) := by
    rw [wrongByte, List.find?_isSome]
    constructor
    · rintro ⟨k, hk, hne⟩
      exact ⟨k, List.mem_range.mp hk, Nat.zero_le k, bne_iff_ne.mp hne⟩
    · rintro ⟨k, hk, -, hne⟩
      exact ⟨k, List.mem_range.mpr hk, bne_iff_ne.mpr hne⟩
  rw [← hfind, checkPacketData]
  cases wrongByte o cp dp with
  | none => exact ⟨fun h => absurd rfl h, fun h => absurd h Bool.false_ne_true⟩
  | some i =>
    refine ⟨fun _ => rfl, fun _ h => ?_⟩
    have hlength := congrArg String.length h
    simp only [String.length_append] at hlength
    have hfirst : "\nwrong data byte #".length = 18 := rfl
    have hnone : "".length = 0 := rfl
    omega

theorem differ_split (hij : i ≤ j) (hjk : j ≤ k) :
    Differ a b i k ↔ Differ a b i j ∨ Differ a b j k := by
  constructor
  · rintro ⟨m, hm, him, hne⟩
    by_cases hmj : m < j
    · exact Or.inl ⟨m, hmj, him, hne⟩
    · exact Or.inr ⟨m, hm, Nat.le_of_not_lt hmj, hne⟩
  · rintro (⟨m, hm, him, hne⟩ | ⟨m, hm, him, hne⟩)
    · exact ⟨m, by omega, him, hne⟩
    · exact ⟨m, hm, by omega, hne⟩

theorem differ_empty (hji : j ≤ i) : ¬ Differ a b i j := by
  rintro ⟨m, hm, him, -⟩
  omega

theorem differ_fill (h : SameData o b) (hi : o.dataStart ≤ i) :
    Differ a b i j ↔ Differ a o.fill i j := by
  have hsame (k : Nat) (hk : i ≤ k) : b.getD k 0 = o.fill.getD k 0 := by
    have hget := congrArg (fun l => l.getD (k - o.dataStart) 0) h.2
    simp only [List.getD_eq_getElem?_getD, List.getElem?_drop] at hget ⊢
    rw [Nat.add_sub_cancel' (hi.trans hk)] at hget
    exact hget
  constructor
  · rintro ⟨m, hm, him, hne⟩
    exact ⟨m, hm, him, hsame m him ▸ hne⟩
  · rintro ⟨m, hm, him, hne⟩
    exact ⟨m, hm, him, (hsame m him).symm ▸ hne⟩

theorem dataStart_le (o : Filled) : o.dataStart ≤ o.datalen := by
  unfold Filled.dataStart
  split
  · next htiming => exact timing_le htiming
  · exact Nat.zero_le _

theorem exact_iff_told {e : DataEvent} (hs : Filling o s) (h : dataStep order o s e = some t) :
    Exact o s e ↔ Told o s e := by
  cases e with
  | send now => exact Iff.rfl
  | reply n cp =>
    have hstart := dataStart_le o
    rw [dataStep] at h
    split at h
    case isFalse => cases h
    case isTrue hreply =>
    obtain ⟨p, hp⟩ : ∃ p, s.sent[n]? = some p := ⟨_, List.getElem?_eq_getElem hreply.1⟩
    have hsent := hs.sent p (List.mem_of_getElem? hp)
    have hclaim : Exact o s (.reply n cp) ↔
        (checkPacketData o.toSettings cp s.payload ≠ "" ↔
          Differ cp p.icmpData o.dataStart o.datalen) := by
      constructor
      · exact fun hall => hall p hp
      · intro hiff q hq
        obtain rfl := Option.some.inj (hp.symm.trans hq)
        exact hiff
    rw [hclaim, checkPacketData_ne, differ_fill hsent (Nat.le_refl _), Told]
    by_cases hle : o.dataStart ≤ o.datalen - ICMP_MINLEN
    · rw [differ_split (Nat.zero_le _) hle, differ_fill hs.payload (Nat.le_refl _),
        differ_split hle (Nat.sub_le _ _), Nat.min_eq_left hle, Nat.max_eq_right hle]
      by_cases hmiddle : Differ cp o.fill o.dataStart (o.datalen - ICMP_MINLEN)
      · simp only [hmiddle, or_true, true_or]
      · simp only [hmiddle, or_false, false_or]
    · -- the timeval reaches into the last eight bytes
      have hge : o.datalen - ICMP_MINLEN ≤ o.dataStart := Nat.le_of_not_le hle
      have hnone : ¬ Differ cp o.fill o.dataStart (o.datalen - ICMP_MINLEN) := differ_empty hge
      rw [Nat.min_eq_right hge, Nat.max_eq_left hge, or_iff_right hnone]

/-- In every run, the check is right for all replies exactly if they are all of the kind that it
can tell. -/
theorem checkPacketData_exact_iff (order : ByteOrder) (o : Filled) (es : List DataEvent)
    (u : Outgoing) (hrun : run (dataStep order o) (.start o) es = some u) :
    Steps (Exact o) (dataStep order o) (.start o) es ↔
      Steps (Told o) (dataStep order o) (.start o) es :=
  steps_congr (I := Filling o) (fun _ _ _ => dataStep_filling) (fun _ _ _ => exact_iff_told)
    (start_filling o) hrun

def filledDefault : Filled where
  npackets := 0
  datalen := 64 - ICMP_MINLEN
  ident := 7
  flood := false
  preload := 0
  pattern := some [0xff]
  patlen_le := fun pat hpat => by
    obtain rfl := Option.some.inj hpat
    decide
  datalen_pos := by decide
  datalen_le := by decide

def readingOne : Reading := ⟨⟨1, 0⟩, by decide, by decide, by decide, by decide⟩

theorem requests_verified_first : Verifies .little filledDefault 0
    (compose .little filledDefault readingOne 0 filledDefault.fill) :=
  have hrun : run (dataStep .little filledDefault) (.start filledDefault) [.send readingOne] =
      some ((Outgoing.start filledDefault).send .little filledDefault readingOne) := rfl
  requests_verified hrun rfl

/-- The last byte of the reply is not what was sent, and nothing is printed. -/
theorem not_checkPacketData_exact :
    ¬ ∀ (order : ByteOrder) (o : Filled) (es : List DataEvent) (u : Outgoing),
      run (dataStep order o) (.start o) es = some u →
        Steps (Exact o) (dataStep order o) (.start o) es := by
  intro h
  let s := (Outgoing.start filledDefault).send .little filledDefault readingOne
  have hexact := h .little filledDefault [.send readingOne, .reply 0 (s.payload.set 55 0)] s
    (by decide +kernel)
  have hiff := (hexact.2 s rfl).1 _ rfl
  have hnone : checkPacketData filledDefault.toSettings (s.payload.set 55 0) s.payload = "" := by
    decide +kernel
  exact absurd hnone (hiff.mpr (by decide +kernel))

/-- A wrong byte in the midst of the data. -/
theorem checkPacketData_exact_midst :
    Steps (Exact filledDefault) (dataStep .little filledDefault) (.start filledDefault)
      [.send readingOne, .reply 0 (List.replicate 56 0)] :=
  (checkPacketData_exact_iff .little filledDefault [.send readingOne, .reply 0 (List.replicate 56 0)]
    ((Outgoing.start filledDefault).send .little filledDefault readingOne) (by decide +kernel)).mpr
    (by decide +kernel)

end Netkit.Ping

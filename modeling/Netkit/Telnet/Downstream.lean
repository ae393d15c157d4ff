import Netkit.Foundations.Runs
import Netkit.Telnet.Client.Telrcv
import Netkit.Telnet.Daemon.Options
import Netkit.Telnet.Daemon.PtyInput

/-!
# From the pty to the screen

What telnetd reads from the pty is copied, quoted, into `netobuf`, flushed to the network, read
by the client into `netiring`, unquoted by `telrcv` into `ttyoring` and flushed to the terminal.
As in the other direction, each step moves as many bytes as it happens to, and the steps come in
any order.

telnetd looks ahead in what it has read to choose the byte behind a carriage return, the client
looks ahead in what it has received. Neither has to see what the other saw.

* `downstream_transparent`: the bytes added to the terminal ring are the bytes of the pty.
-/

namespace Netkit.Telnet

open Netkit.Foundations Client Daemon

structure Downstream where
  options : Daemon.OptionState
  /-- The bytes that the pty has delivered. -/
  produced : List UInt8
  /-- The `pcc` bytes at `ptyip`. -/
  ptyibuf : List UInt8
  netbuf : NetBuf
  /-- How many of the bytes sent by telnetd the client has read. -/
  arrived : Nat
  client : Client.NetInput
  /-- The bytes that the terminal has taken. -/
  shown : List UInt8

inductive DownstreamEvent where
  | ptyread (bytes : List UInt8)
  | copy
  | netflush (answer : WriteAnswer)
  | netread (n : Nat)
  | telrcv (hooks : RecvHooks)
  | ttyflush (answers : List Int)

/-- `my_state_is_will(TELOPT_BINARY)` at telnetd. -/
def Downstream.binary (d : Downstream) : Bool := (d.options.options.willWont TELOPT_BINARY).state

/-- Both ends before the first byte, with empty rings in the given memory. -/
def Downstream.start (options : Daemon.OptionState) (client : Client.NetInput)
    (net tty : List UInt8) : Downstream where
  options := options
  produced := []
  ptyibuf := []
  netbuf := .empty
  arrived := 0
  client := { client with
    netiring := .init net, ttyoring := .init tty, telrcvState := .data }
  shown := []

/-- One step of either program. telnetd reads again when it has used up what it has read; the
first byte of a read says that the rest is data. The network delivers as many bytes as there are
and as there is room for, at most. -/
def downstreamStep (d : Downstream) : DownstreamEvent → Option Downstream
  | .ptyread bytes =>
    if d.ptyibuf = [] ∧ bytes.length < BUFSIZ then
      some { d with produced := d.produced ++ bytes, ptyibuf := bytes }
    else none
  | .copy =>
    let result := copyPty d.binary d.ptyibuf d.netbuf
    some { d with ptyibuf := result.1, netbuf := result.2 }
  | .netflush answer =>
    match NetBuf.netflush answer d.netbuf with
    | none => none
    | some b => some { d with netbuf := b }
  | .netread n =>
    if d.arrived + n ≤ d.netbuf.sent.length ∧ (n : Int) ≤ d.client.netiring.room then
      let bytes := slice d.netbuf.sent d.arrived (d.arrived + n)
      some { d with
        arrived := d.arrived + n
        client := { d.client with
          netiring := (d.client.netiring.readSource (some bytes)).2 } }
    else none
  | .telrcv hooks => some { d with client := Client.telrcv hooks d.client }
  | .ttyflush answers =>
    match d.client.ttyoring.flush answers with
    | none => none
    | some (_, bytes, r) =>
      some { d with client := { d.client with ttyoring := r }, shown := d.shown ++ bytes }

def Downstream.Drained (d : Downstream) : Prop :=
  d.ptyibuf = [] ∧ d.netbuf.pending = [] ∧ d.arrived = d.netbuf.sent.length ∧
    d.client.netiring.contents = []

/-- The contents of the terminal ring, with what the terminal has already taken. -/
def Downstream.added (d : Downstream) : List UInt8 := d.shown ++ d.client.ttyoring.contents

/-! ## What every step keeps -/

/-- `consumed` has been copied; quoted, it is `quoted`, the beginning of which the client has
received, and `received` of that it has decoded. -/
structure Downstream.Stream (binary : Bool) (d : Downstream)
    (consumed quoted received : List UInt8) (st : NvtState) : Prop where
  produced : d.produced = consumed ++ d.ptyibuf
  word : Decodes (nvtStep [0] binary) .data quoted consumed
  netbuf : d.netbuf.Good quoted
  taken : slice d.netbuf.sent 0 d.arrived = received ++ d.client.netiring.contents
  decoded : feed (nvtStep [0] binary) .data received = some (st, d.added)
  state : d.client.AtData st

structure Downstream.Inv (binary : Bool) (d : Downstream) : Prop where
  option : d.binary = binary
  arrived : d.arrived ≤ d.netbuf.sent.length
  net : d.client.netiring.Inv
  slot : d.client.netiring.count + 1 ≤ d.client.netiring.size
  tty : d.client.ttyoring.Inv
  plain : d.client.Plain binary
  stream : ∃ consumed quoted received st, d.Stream binary consumed quoted received st

variable {binary : Bool} {d d' : Downstream}

theorem downstream_start_inv {o : Daemon.OptionState} {s : Client.NetInput}
    {net tty : List UInt8} (hs : s.Plain binary)
    (hbin : (o.options.willWont TELOPT_BINARY).state = binary) (hnet : 0 < net.length)
    (htty : 0 < tty.length) : (Downstream.start o s net tty).Inv binary := by
  refine ⟨hbin, Nat.zero_le _, Ringbuf.init_inv hnet, ?_, Ringbuf.init_inv htty,
    hs.update _ _ _, [], [], [], .data, rfl, decodes_nil _, NetBuf.empty_good, ?_, rfl, rfl⟩
  · simp only [Downstream.start, Ringbuf.init]
    omega
  · rfl

theorem inv_ptyread (h : d.Inv binary) {bytes : List UInt8}
    (hs : downstreamStep d (.ptyread bytes) = some d') : d'.Inv binary := by
  simp only [downstreamStep] at hs
  split at hs
  · rename_i hread
    cases hs
    obtain ⟨consumed, quoted, received, st, hst⟩ := h.stream
    refine ⟨h.option, h.arrived, h.net, h.slot, h.tty, h.plain, consumed, quoted, received, st,
      ?_, hst.word, hst.netbuf, hst.taken, hst.decoded, hst.state⟩
    rw [hst.produced, hread.1, List.append_nil]
  · cases hs

theorem inv_copy (h : d.Inv binary) (hs : downstreamStep d .copy = some d') : d'.Inv binary := by
  cases hs
  obtain ⟨consumed, quoted, received, st, hst⟩ := h.stream
  rw [h.option]
  obtain ⟨read, word, hcopied⟩ := copyPty_spec binary d.ptyibuf hst.netbuf
  have hsent := hcopied.sent
  refine ⟨h.option, ?_, h.net, h.slot, h.tty, h.plain, consumed ++ read, quoted ++ word, received,
    st, ?_, hst.word.append hcopied.decodes, hcopied.good, ?_, hst.decoded, hst.state⟩
  · rw [hsent]
    exact h.arrived
  · show d.produced = consumed ++ read ++ (copyPty binary d.ptyibuf d.netbuf).1
    rw [hst.produced, List.append_assoc, ← hcopied.taken]
  · rw [hsent]
    exact hst.taken

theorem inv_netflush_down (h : d.Inv binary) {answer : WriteAnswer}
    (hs : downstreamStep d (.netflush answer) = some d') : d'.Inv binary := by
  simp only [downstreamStep] at hs
  split at hs
  · cases hs
  · rename_i b hf
    cases hs
    obtain ⟨consumed, quoted, received, st, hst⟩ := h.stream
    obtain ⟨bytes, hsent⟩ := NetBuf.netflush_sent hf
    have harrived := h.arrived
    refine ⟨h.option, ?_, h.net, h.slot, h.tty, h.plain, consumed, quoted, received, st,
      hst.produced, hst.word, NetBuf.netflush_good hst.netbuf hf, ?_, hst.decoded, hst.state⟩
    · simp only [hsent, List.length_append]
      omega
    · rw [hsent, slice_append_left harrived]
      exact hst.taken

theorem inv_netread_down (h : d.Inv binary) {n : Nat}
    (hs : downstreamStep d (.netread n) = some d') : d'.Inv binary := by
  simp only [downstreamStep] at hs
  split at hs
  · rename_i hread
    obtain ⟨hn, hroom⟩ := hread
    cases hs
    obtain ⟨consumed, quoted, received, st, hst⟩ := h.stream
    have hlen : (slice d.netbuf.sent d.arrived (d.arrived + n)).length = n := by
      rw [slice_length hn, Nat.add_sub_cancel_left]
    have hfit : ((slice d.netbuf.sent d.arrived (d.arrived + n)).length : Int) ≤
        d.client.netiring.room := by
      rw [hlen]
      exact hroom
    obtain ⟨hI, hc, hsize, hslot⟩ := Ringbuf.readSource_spec h.net h.slot hfit
    refine ⟨h.option, hn, hI, ?_, h.tty, h.plain.update _ _ _, consumed, quoted, received, st,
      hst.produced, hst.word, hst.netbuf, ?_, hst.decoded, hst.state.netread hc⟩
    · rw [hsize]
      exact hslot
    · rw [slice_split (Nat.zero_le d.arrived) (Nat.le_add_right d.arrived n), hst.taken, hc,
        List.append_assoc]
  · cases hs

theorem Downstream.Stream.quoted_eq {consumed quoted received : List UInt8} {st : NvtState}
    (h : d.Stream binary consumed quoted received st) :
    quoted = received ++ d.client.netiring.contents ++
      (d.netbuf.sent.drop d.arrived ++ d.netbuf.pending) := by
  rw [← h.taken, ← h.netbuf.bytes, ← List.append_assoc]
  simp [slice]

theorem inv_telrcv_down (h : d.Inv binary) {hooks : RecvHooks}
    (hs : downstreamStep d (.telrcv hooks) = some d') : d'.Inv binary := by
  cases hs
  obtain ⟨consumed, quoted, received, st, hst⟩ := h.stream
  have hword := hst.word
  rw [hst.quoted_eq] at hword
  obtain ⟨st', out, hfeed, -⟩ := hword.feed_front
  obtain ⟨st'', x, y, hold, hnew, rfl⟩ := feed_append_eq_some.mp hfeed
  rw [hst.decoded] at hold
  cases hold
  obtain ⟨st₁, read, z, hdec⟩ :=
    telrcv_data hooks h.net h.tty h.plain hst.state hnew
  refine ⟨h.option, h.arrived, hdec.net, ?_, hdec.tty, hdec.plain, consumed, quoted,
    received ++ read, st₁, hst.produced, hst.word, hst.netbuf, ?_, ?_, hdec.state⟩
  · have hslot := h.slot
    have hlen := Ringbuf.contents_length h.net
    have hlen' := Ringbuf.contents_length hdec.net
    rw [hdec.taken, List.length_append] at hlen
    show (Client.telrcv hooks d.client).netiring.count + 1 ≤ _
    rw [hdec.size]
    omega
  · rw [hst.taken, hdec.taken, List.append_assoc]
  · refine feed_append_eq_some.mpr ⟨st, d.added, z, hst.decoded, hdec.feed, ?_⟩
    simp only [Downstream.added]
    rw [hdec.added, List.append_assoc]

theorem inv_ttyflush (h : d.Inv binary) {answers : List Int}
    (hs : downstreamStep d (.ttyflush answers) = some d') : d'.Inv binary := by
  simp only [downstreamStep] at hs
  split at hs
  · cases hs
  · rename_i rv bytes r hf
    cases hs
    obtain ⟨hI, -, hc⟩ := Ringbuf.flush_spec h.tty hf
    obtain ⟨consumed, quoted, received, st, hst⟩ := h.stream
    refine ⟨h.option, h.arrived, h.net, h.slot, hI, h.plain.update _ _ _, consumed, quoted,
      received, st, hst.produced, hst.word, hst.netbuf, hst.taken, ?_, hst.state⟩
    rw [hst.decoded]
    simp only [Downstream.added, hc, List.append_assoc]

theorem downstream_inv_step (h : d.Inv binary) {e : DownstreamEvent}
    (hs : downstreamStep d e = some d') : d'.Inv binary := by
  cases e with
  | ptyread bytes => exact inv_ptyread h hs
  | copy => exact inv_copy h hs
  | netflush answer => exact inv_netflush_down h hs
  | netread n => exact inv_netread_down h hs
  | telrcv hooks => exact inv_telrcv_down h hs
  | ttyflush answers => exact inv_ttyflush h hs

/-- The bytes added to the terminal ring are bytes of the pty, in order, and when nothing is on
its way any more, they are all of them. -/
theorem Downstream.Inv.added (h : d.Inv binary) :
    d.added <+: d.produced ∧ (d.Drained → d.added = d.produced) := by
  obtain ⟨consumed, quoted, received, st, hst⟩ := h.stream
  have hword := hst.word
  rw [hst.quoted_eq] at hword
  rw [hst.produced]
  constructor
  · rw [List.append_assoc] at hword
    obtain ⟨st', out, hfeed, hout⟩ := hword.feed_front
    rw [hst.decoded] at hfeed
    cases hfeed
    exact hout.trans (List.prefix_append _ _)
  · rintro ⟨hpty, hpending, harrived, hnet⟩
    rw [hnet, hpending, harrived, List.drop_length, List.append_nil, List.append_nil,
      List.append_nil, Decodes, hst.decoded] at hword
    cases hword
    rw [hpty, List.append_nil]

/-! ## Transparency -/

/-- Whatever the pty delivers, with `BINARY` off or on at both ends, and in whatever pieces it
travels: when the server echoes and `crmod` is off, the terminal ring gets the bytes of the pty,
in order. -/
theorem downstream_transparent {o : Daemon.OptionState} {s : Client.NetInput}
    {net tty : List UInt8} (hs : s.Plain binary)
    (hbin : (o.options.willWont TELOPT_BINARY).state = binary) (hnet : 0 < net.length)
    (htty : 0 < tty.length) {es : List DownstreamEvent}
    (hrun : run downstreamStep (Downstream.start o s net tty) es = some d) :
    d.added <+: d.produced ∧ (d.Drained → d.added = d.produced) :=
  (run_invariant (I := Downstream.Inv binary) (fun _ _ _ h hstep => downstream_inv_step h hstep)
    (downstream_start_inv hs hbin hnet htty) hrun).added

def echoed : Client.OptionState :=
  (Client.OptionState.initial false).modDo TELOPT_ECHO fun _ => ⟨true, true, 0⟩

/-- telnetd has the byte behind the first carriage return before it, but not the one behind the
second; with the client it is the other way round. -/
def lineRun : List DownstreamEvent :=
  let hooks : RecvHooks := ⟨fun _ s => s, false, id, id, id⟩
  [.ptyread [13, 10, IAC, 13], .copy, .netflush (.wrote 6), .ptyread [10], .copy,
    .netflush (.wrote 1), .netread 1, .telrcv hooks, .netread 5, .telrcv hooks,
    .ttyflush [3], .netread 1, .telrcv hooks]

theorem downstream_transparent_lines :
    ∃ d, run downstreamStep
        (Downstream.start .initial (.initial echoed [] []) (List.replicate 8 0)
          (List.replicate 8 0)) lineRun = some d ∧
      d.produced = [13, 10, IAC, 13, 10] ∧ d.added = [13, 10, IAC, 13, 10] := by
  have hrun : ∃ d, run downstreamStep
        (Downstream.start .initial (.initial echoed [] []) (List.replicate 8 0)
          (List.replicate 8 0)) lineRun = some d ∧
      d.produced = [13, 10, IAC, 13, 10] ∧ d.Drained :=
    ⟨_, rfl, rfl, rfl, rfl, rfl, rfl⟩
  obtain ⟨d, hrun, hproduced, hdrained⟩ := hrun
  have hplain : (Client.NetInput.initial echoed [] []).Plain false := ⟨rfl, rfl, rfl, rfl, rfl⟩
  have h := downstream_transparent hplain rfl (by decide) (by decide) hrun
  exact ⟨d, hrun, hproduced, (h.2 hdrained).trans hproduced⟩

end Netkit.Telnet

import Netkit.Foundations.Runs
import Netkit.Telnet.Client.Telsnd
import Netkit.Telnet.Daemon.Telrcv

/-!
# From the keyboard to the pty

What is typed goes into `ttyiring`, is taken from there by `telsnd`, quoted into `netoring`,
flushed to the network, read by telnetd into `netibuf`, unquoted by `telrcv` into `ptyobuf` and
written to the pty. Each of these steps moves as many bytes as it happens to, and they come in
any order.

* `upstream_transparent`: the bytes in the pty buffer are the bytes typed.
-/

namespace Netkit.Telnet

open Netkit.Foundations Client Daemon

structure Upstream where
  client : SendState
  /-- The bytes that were typed. -/
  typed : List UInt8
  /-- The bytes on the network. -/
  wire : List UInt8
  /-- The `ncc` bytes at `netip`. -/
  netibuf : List UInt8
  server : Daemon.NetInput

inductive UpstreamEvent where
  | typing (bytes : List UInt8)
  | telsnd (hooks : SendHooks)
  | netflush (answers : List Int)
  | netread (n : Nat)
  | telrcv
  | ptyflush (n : Nat)

/-- Both ends before the first byte, with empty rings in the given memory. -/
def Upstream.start (client : SendState) (options : Daemon.OptionState) (tty net : List UInt8) :
    Upstream where
  client := { client with ttyiring := .init tty, netoring := .init net }
  typed := []
  wire := []
  netibuf := []
  server := { Daemon.NetInput.initial with options := options }

/-- One step of either program. The terminal delivers as many bytes as there is room for, at
most, none of them an escape; telnetd reads again when it has used up what it has read. -/
def upstreamStep (m : SendSettings) (u : Upstream) : UpstreamEvent → Option Upstream
  | .typing bytes =>
    if (bytes.length : Int) ≤ u.client.ttyiring.room ∧ AllOrdinary m bytes then
      some { u with
        client := { u.client with ttyiring := (u.client.ttyiring.readSource (some bytes)).2 }
        typed := u.typed ++ bytes }
    else none
  | .telsnd hooks => some { u with client := telsnd hooks u.client }
  | .netflush answers =>
    match u.client.netoring.flush answers with
    | none => none
    | some (_, bytes, r) =>
      some { u with client := { u.client with netoring := r }, wire := u.wire ++ bytes }
  | .netread n =>
    if u.netibuf = [] ∧ n ≤ BUFSIZ then
      some { u with wire := u.wire.drop n, netibuf := u.wire.take n }
    else none
  | .telrcv =>
    let result := Daemon.telrcv u.netibuf u.server
    some { u with netibuf := result.1, server := result.2 }
  | .ptyflush n =>
    if u.server.pty.pbackp + n ≤ u.server.pty.pfrontp then
      some { u with server := { u.server with pty := u.server.pty.flush n } }
    else none

def Upstream.Drained (u : Upstream) : Prop :=
  u.client.ttyiring.contents = [] ∧ u.client.netoring.contents = [] ∧ u.wire = [] ∧
    u.netibuf = []

/-- The contents of the pty buffer, with what the pty has already taken. -/
def Upstream.arrived (u : Upstream) : List UInt8 :=
  u.server.pty.written ++
    slice u.server.pty.ptyobuf u.server.pty.pbackp u.server.pty.pfrontp

/-! ## One byte across the network -/

theorem decodes_wireBytes (m : SendSettings) (c : UInt8) :
    Decodes (nvtStep [0, 10] m.wantBinary) .data (wireBytes m c) [c] := by
  by_cases hi : c = IAC
  · subst hi
    rw [wireBytes_iac]
    exact decodes_iac
  · by_cases hcr : m.wantBinary = false ∧ c = 13
    · obtain ⟨hbin, rfl⟩ := hcr
      rw [wireBytes_cr hbin, hbin]
      apply decodes_cr_dropped
      cases m.crlf <;> simp
    · have hcr' : m.wantBinary = false → c ≠ 13 := fun hbin hc => hcr ⟨hbin, hc⟩
      rw [wireBytes_self hcr' hi]
      exact decodes_self hi hcr'

theorem decodes_flatMap_wireBytes (m : SendSettings) (bytes : List UInt8) :
    Decodes (nvtStep [0, 10] m.wantBinary) .data (bytes.flatMap (wireBytes m)) bytes := by
  have h : Decodes (nvtStep [0, 10] m.wantBinary) .data (bytes.flatMap (wireBytes m))
      (bytes.flatMap fun c => [c]) := Decodes.flatMap fun c _ => decodes_wireBytes m c
  rwa [List.flatMap_singleton'] at h

/-! ## What every step keeps -/

/-- `consumed` has left `ttyiring`; quoted, it is `received`, which telnetd has decoded, and what
is on its way. -/
structure Upstream.Stream (m : SendSettings) (u : Upstream) (consumed received : List UInt8)
    (st : NvtState) : Prop where
  typed : u.typed = consumed ++ u.client.ttyiring.contents
  quoted : consumed.flatMap (wireBytes m) =
    received ++ (u.netibuf ++ (u.wire ++ u.client.netoring.contents))
  decoded : feed (nvtStep [0, 10] m.wantBinary) .data received = some (st, u.server.pty.placed)
  state : u.server.AtData m.wantBinary st

structure Upstream.Inv (m : SendSettings) (u : Upstream) : Prop where
  tty : u.client.ttyiring.Inv
  slot : u.client.ttyiring.count + 1 ≤ u.client.ttyiring.size
  net : u.client.netoring.Inv
  plain : u.client.Plain m
  ordinary : AllOrdinary m u.client.ttyiring.contents
  pty : u.server.pty.Good
  stream : ∃ consumed received st, u.Stream m consumed received st

variable {m : SendSettings} {u v : Upstream}

theorem upstream_start_inv {s : SendState} {o : Daemon.OptionState} {tty net : List UInt8}
    (hs : s.Plain m) (hbin : o.hisStateIsWill TELOPT_BINARY = m.wantBinary)
    (htty : 0 < tty.length) (hnet : 0 < net.length) :
    (Upstream.start s o tty net).Inv m := by
  refine ⟨Ringbuf.init_inv htty, ?_, Ringbuf.init_inv hnet, ?_, ?_, PtyBuf.empty_good,
    [], [], .data, rfl, rfl, rfl, rfl, hbin⟩
  · simp only [Upstream.start, Ringbuf.init]
    omega
  · exact ⟨hs.rlogin, hs.escapechar, hs.crlf, hs.wantBinary, hs.edit, hs.trapsig, hs.local_⟩
  · intro c hc
    cases hc

theorem inv_typing (h : u.Inv m) {bytes : List UInt8}
    (hs : upstreamStep m u (.typing bytes) = some v) : v.Inv m := by
  simp only [upstreamStep] at hs
  split at hs
  · rename_i hb
    obtain ⟨hroom, hord⟩ := hb
    cases hs
    obtain ⟨hI, hc, hsize, hslot⟩ := Ringbuf.readSource_spec h.tty h.slot hroom
    have hp := h.plain
    obtain ⟨consumed, received, st, hst⟩ := h.stream
    refine ⟨hI, ?_, h.net, ?_, ?_, h.pty, consumed, received, st, ?_, hst.quoted, hst.decoded,
      hst.state⟩
    · rw [hsize]
      exact hslot
    · exact ⟨hp.rlogin, hp.escapechar, hp.crlf, hp.wantBinary, hp.edit, hp.trapsig, hp.local_⟩
    · intro c hmem
      rw [hc, List.mem_append] at hmem
      rcases hmem with hmem | hmem
      · exact h.ordinary c hmem
      · exact hord c hmem
    · rw [hc, hst.typed, List.append_assoc]
  · cases hs

theorem inv_telsnd (h : u.Inv m) {hooks : SendHooks}
    (hs : upstreamStep m u (.telsnd hooks) = some v) : v.Inv m := by
  cases hs
  obtain ⟨⟨sent, hsent⟩, -⟩ := telsnd_spec hooks h.tty h.net h.plain h.ordinary
  obtain ⟨consumed, received, st, hst⟩ := h.stream
  refine ⟨hsent.tty, ?_, hsent.net, hsent.plain, ?_, h.pty, consumed ++ sent, received, st, ?_,
    ?_, hst.decoded, hst.state⟩
  · have hslot := h.slot
    have hold := Ringbuf.contents_length h.tty
    have hnew := Ringbuf.contents_length hsent.tty
    rw [hsent.taken, List.length_append] at hold
    show (telsnd hooks u.client).ttyiring.count + 1 ≤ _
    rw [hsent.size]
    omega
  · intro c hc
    refine h.ordinary c ?_
    rw [hsent.taken]
    exact List.mem_append_right _ hc
  · rw [hst.typed, hsent.taken, List.append_assoc]
  · rw [List.flatMap_append, hst.quoted, hsent.added]
    simp only [List.append_assoc]

theorem inv_netflush (h : u.Inv m) {answers : List Int}
    (hs : upstreamStep m u (.netflush answers) = some v) : v.Inv m := by
  simp only [upstreamStep] at hs
  split at hs
  · cases hs
  · rename_i rv bytes r hf
    cases hs
    obtain ⟨hI, -, hc⟩ := Ringbuf.flush_spec h.net hf
    have hp := h.plain
    obtain ⟨consumed, received, st, hst⟩ := h.stream
    refine ⟨h.tty, h.slot, hI, ?_, h.ordinary, h.pty, consumed, received, st, hst.typed, ?_,
      hst.decoded, hst.state⟩
    · exact ⟨hp.rlogin, hp.escapechar, hp.crlf, hp.wantBinary, hp.edit, hp.trapsig, hp.local_⟩
    · rw [hst.quoted, hc, List.append_assoc]

theorem inv_netread (h : u.Inv m) {n : Nat} (hs : upstreamStep m u (.netread n) = some v) :
    v.Inv m := by
  simp only [upstreamStep] at hs
  split at hs
  · rename_i hread
    cases hs
    obtain ⟨consumed, received, st, hst⟩ := h.stream
    refine ⟨h.tty, h.slot, h.net, h.plain, h.ordinary, h.pty, consumed, received, st,
      hst.typed, ?_, hst.decoded, hst.state⟩
    rw [hst.quoted, hread.1, List.nil_append, ← List.append_assoc (u.wire.take n),
      List.take_append_drop]
  · cases hs

theorem inv_telrcv (h : u.Inv m) (hs : upstreamStep m u .telrcv = some v) : v.Inv m := by
  cases hs
  cases hrun : Daemon.telrcv u.netibuf u.server with
  | mk rest t =>
    obtain ⟨read, hread, rfl⟩ := telrcv_eq hrun
    obtain ⟨consumed, received, st, hst⟩ := h.stream
    -- what has been read so far is a beginning of the quoted bytes, so it is decoded
    have hquoted := hst.quoted
    rw [hread] at hquoted
    have hfront := decodes_flatMap_wireBytes m consumed
    rw [hquoted, List.append_assoc, ← List.append_assoc] at hfront
    obtain ⟨st', out, hfeed, -⟩ := hfront.feed_front
    obtain ⟨st'', x, y, hold, hnew, rfl⟩ := feed_append_eq_some.mp hfeed
    rw [hst.decoded] at hold
    cases hold
    obtain ⟨hstate, hplaced⟩ := (Daemon.receive_simulates m.wantBinary).foldl hst.state hnew
    refine ⟨h.tty, h.slot, h.net, h.plain, h.ordinary, telrcv_good h.pty hrun, consumed,
      received ++ read, st', hst.typed, ?_, ?_, hstate⟩
    · rw [hquoted]
      simp only [List.append_assoc]
    · rw [hfeed]
      exact congrArg (fun out => some (st', out)) hplaced.symm

theorem inv_ptyflush (h : u.Inv m) {n : Nat} (hs : upstreamStep m u (.ptyflush n) = some v) :
    v.Inv m := by
  simp only [upstreamStep] at hs
  split at hs
  · rename_i hn
    cases hs
    obtain ⟨consumed, received, st, hst⟩ := h.stream
    refine ⟨h.tty, h.slot, h.net, h.plain, h.ordinary, PtyBuf.flush_good h.pty hn, consumed,
      received, st, hst.typed, hst.quoted, ?_, hst.state.state, hst.state.binary⟩
    rw [PtyBuf.flush_placed]
    exact hst.decoded
  · cases hs

theorem upstream_inv_step (h : u.Inv m) {e : UpstreamEvent}
    (hs : upstreamStep m u e = some v) : v.Inv m := by
  cases e with
  | typing bytes => exact inv_typing h hs
  | telsnd hooks => exact inv_telsnd h hs
  | netflush answers => exact inv_netflush h hs
  | netread n => exact inv_netread h hs
  | telrcv => exact inv_telrcv h hs
  | ptyflush n => exact inv_ptyflush h hs

/-- The bytes in the pty buffer are bytes typed, in order, and when nothing is on its way any
more, they are all of them. -/
theorem Upstream.Inv.arrived (h : u.Inv m) :
    u.arrived <+: u.typed ∧ (u.Drained → u.arrived = u.typed) := by
  obtain ⟨consumed, received, st, hst⟩ := h.stream
  have hplaced : u.arrived = u.server.pty.placed := h.pty.bytes
  have hall := decodes_flatMap_wireBytes m consumed
  rw [hst.quoted] at hall
  rw [hplaced, hst.typed]
  constructor
  · obtain ⟨st', out, hfeed, hout⟩ := hall.feed_front
    rw [hst.decoded] at hfeed
    cases hfeed
    exact hout.trans (List.prefix_append _ _)
  · rintro ⟨htty, hnet, hwire, hnetibuf⟩
    rw [hnet, hwire, hnetibuf, List.append_nil, List.append_nil, List.append_nil, Decodes,
      hst.decoded] at hall
    cases hall
    rw [htty, List.append_nil]

/-! ## Transparency -/

/-- Whatever is typed, with or without `crlf` and `BINARY`, and in whatever pieces it travels:
the pty buffer gets the bytes typed, in order. -/
theorem upstream_transparent {s : SendState} {o : Daemon.OptionState} {tty net : List UInt8}
    (hs : s.Plain m) (hbin : o.hisStateIsWill TELOPT_BINARY = m.wantBinary)
    (htty : 0 < tty.length) (hnet : 0 < net.length) {es : List UpstreamEvent}
    (hrun : run (upstreamStep m) (Upstream.start s o tty net) es = some u) :
    u.arrived <+: u.typed ∧ (u.Drained → u.arrived = u.typed) :=
  (run_invariant (I := Upstream.Inv m) (fun _ _ _ h hstep => upstream_inv_step h hstep)
    (upstream_start_inv hs hbin htty hnet) hrun).arrived

/-- Two bytes that are quoted, cut behind the carriage return and between the two `IAC`. -/
def quotedRun : List UpstreamEvent :=
  [.typing [13, IAC], .telsnd ⟨fun _ s => s, fun _ s => (1, s), id⟩, .netflush [8], .netread 1,
    .telrcv, .netread 2, .telrcv, .ptyflush 1, .netread 1, .telrcv]

theorem upstream_transparent_quoted :
    ∃ u, run (upstreamStep (SendState.initial [] []).settings)
        (Upstream.start (.initial [] []) .initial (List.replicate 4 0) (List.replicate 8 0))
        quotedRun = some u ∧
      u.typed = [13, IAC] ∧ u.arrived = [13, IAC] := by
  have hrun : ∃ u, run (upstreamStep (SendState.initial [] []).settings)
        (Upstream.start (.initial [] []) .initial (List.replicate 4 0) (List.replicate 8 0))
        quotedRun = some u ∧ u.typed = [13, IAC] ∧ u.Drained :=
    ⟨_, rfl, rfl, rfl, rfl, rfl, rfl⟩
  obtain ⟨u, hrun, htyped, hdrained⟩ := hrun
  have h := upstream_transparent (s := .initial [] []) ⟨rfl, rfl, rfl, rfl, rfl, rfl, rfl⟩ rfl
    (by decide) (by decide) hrun
  exact ⟨u, hrun, htyped, (h.2 hdrained).trans htyped⟩

end Netkit.Telnet

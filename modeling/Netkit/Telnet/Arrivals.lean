import Netkit.Foundations.Runs
import Netkit.Telnet.Client.Reader

/-!
# How the stream is cut into arrivals

The bytes from the server arrive in pieces of any size, `telrcv` is called at any time, and the
terminal takes what is in `ttyoring` at any time. What counts is the terminal output that `telrcv`
produces: the bytes that it gives to `TTYADD` and that are not suppressed.

* `same_output_iff`: the output depends on the cuts exactly when a place is doubtful.
-/

namespace Netkit.Telnet.Client

open Netkit.Foundations NetInput

/-- What the loop gives to `TTYADD`, pass for pass as in `telrcvLoop`. -/
def handed (hooks : RecvHooks) : Nat → NetInput → List UInt8
  | 0, _ => []
  | fuel + 1, s =>
    if s.ttyoring.emptyCount > 2 then
      match s.netiring.getch with
      | none => []
      | some (_, c, r) =>
        added hooks c { s with netiring := r } ++
          handed hooks fuel ({ s with netiring := r }.receive hooks c)
    else []

structure Receiver where
  input : NetInput
  /-- What the server has sent and the client has read. -/
  arrived : List UInt8
  /-- The terminal output. -/
  output : List UInt8

inductive ReceiverEvent where
  | netread (bytes : List UInt8)
  | telrcv
  | ttytake (n : Nat)

def Receiver.start (s : NetInput) : Receiver := ⟨s, [], []⟩

/-- `read_source`, `telrcv`, and one `write` to the terminal. -/
def receiverStep (hooks : RecvHooks) (r : Receiver) : ReceiverEvent → Option Receiver
  | .netread bytes =>
    if (bytes.length : Int) ≤ r.input.netiring.room then
      some { r with
        input := { r.input with netiring := (r.input.netiring.readSource (some bytes)).2 }
        arrived := r.arrived ++ bytes }
    else none
  | .telrcv =>
    some { r with
      input := telrcv hooks r.input
      output := r.output ++ handed hooks (r.input.netiring.count.toNat + 1) r.input }
  | .ttytake n =>
    if (n : Int) ≤ r.input.ttyoring.count ∧ r.input.ttyoring.tail + n ≤ r.input.ttyoring.size then
      some { r with input := { r.input with ttyoring := r.input.ttyoring.took n } }
    else none

/-- The whole stream has arrived and `telrcv` has read it. -/
def Receiver.Finished (stream : List UInt8) (r : Receiver) : Prop :=
  r.arrived = stream ∧ r.input.netiring.contents = []

def SameOutput (hooks : RecvHooks) (s : NetInput) (stream : List UInt8) : Prop :=
  ∀ es es' r r', run (receiverStep hooks) (.start s) es = some r →
    run (receiverStep hooks) (.start s) es' = some r' →
    r.Finished stream → r'.Finished stream → r.output = r'.output

def readOneByOne (hooks : RecvHooks) (s : NetInput) (bytes : List UInt8) : NetInput :=
  ((telrcvReader hooks).reads s.blank bytes).1

/-- The rings hold nothing, and are not too small. -/
structure Idle (s : NetInput) : Prop where
  net : s.netiring.Roomy
  tty : s.ttyoring.Roomy

/-! ## Every run -/

structure Receiver.Inv (hooks : RecvHooks) (s : NetInput) (r : Receiver) : Prop where
  net : r.input.netiring.Inv
  slot : r.input.netiring.count + 1 ≤ r.input.netiring.size
  accounts : (telrcvReader hooks).Accounts s.blank r.arrived
    ⟨r.input.blank, r.input.netiring.contents, r.output⟩

variable {hooks : RecvHooks} {s t : NetInput} {stream arrived out : List UInt8}

/-- The induction is on the passes that are left. -/
theorem telrcvLoop_accounts (hh : hooks.Blind)
    (hclear : (telrcvReader hooks).Unambiguous s.blank stream) (harrived : arrived <+: stream)
    (fuel : Nat) (hnet : t.netiring.Inv)
    (h : (telrcvReader hooks).Accounts s.blank arrived ⟨t.blank, t.netiring.contents, out⟩) :
    (telrcvLoop hooks fuel t).netiring.Inv ∧
      (telrcvLoop hooks fuel t).netiring.size = t.netiring.size ∧
      (telrcvLoop hooks fuel t).netiring.contents.length ≤ t.netiring.contents.length ∧
      (telrcvReader hooks).Accounts s.blank arrived ⟨(telrcvLoop hooks fuel t).blank,
        (telrcvLoop hooks fuel t).netiring.contents, out ++ handed hooks fuel t⟩ := by
  have hstop : ∀ x, x = [] → (telrcvReader hooks).Accounts s.blank arrived
      ⟨t.blank, t.netiring.contents, out ++ x⟩ := by
    rintro x rfl
    rw [List.append_nil]
    exact h
  induction fuel generalizing t out with
  | zero => exact ⟨hnet, rfl, Nat.le_refl _, hstop _ rfl⟩
  | succ fuel ih =>
    rw [telrcvLoop, handed]
    by_cases hroom : t.ttyoring.emptyCount > 2
    · rw [if_pos hroom, if_pos hroom]
      cases hg : t.netiring.getch with
      | none => exact ⟨hnet, rfl, Nat.le_refl _, hstop _ rfl⟩
      | some y =>
        obtain ⟨rv, c, r⟩ := y
        obtain ⟨hI, hc⟩ := Ringbuf.getch_spec hnet hg
        obtain ⟨-, -, -, hsize, -⟩ := Ringbuf.getch_eq_some hg
        have hpass := @receive_pass { t with netiring := r } hooks hh hI c out
        obtain ⟨hI', hsize', -⟩ := @receive_rings { t with netiring := r } hooks hh hI c
        have hlength := Reader.pass_length hpass
        rw [hc] at h
        have hnext := h.pass (telrcvReader_lawful hh) hclear harrived hpass
        obtain ⟨hI'', hsize'', hlength', haccounts⟩ := ih hI' hnext (fun x hx => by
          rw [hx, List.append_nil]
          exact hnext)
        refine ⟨hI'', hsize''.trans (hsize'.trans hsize), ?_, ?_⟩
        · rw [hc]
          exact hlength'.trans hlength.le
        · rw [← List.append_assoc]
          exact haccounts
    · rw [if_neg hroom, if_neg hroom]
      exact ⟨hnet, rfl, Nat.le_refl _, hstop _ rfl⟩

theorem receiver_inv_step (hh : hooks.Blind)
    (hclear : (telrcvReader hooks).Unambiguous s.blank stream) {r r' : Receiver}
    {e : ReceiverEvent} (h : r.arrived <+: stream → r.Inv hooks s)
    (hstep : receiverStep hooks r e = some r') : r'.arrived <+: stream → r'.Inv hooks s := by
  intro harrived
  cases e with
  | netread bytes =>
    rw [receiverStep] at hstep
    split at hstep
    · rename_i hroom
      cases hstep
      obtain ⟨hnet, hslot, haccounts⟩ := h ((List.prefix_append _ _).trans harrived)
      obtain ⟨hI, hc, hsize, hslot'⟩ := Ringbuf.readSource_spec hnet hslot hroom
      refine ⟨hI, ?_, ?_⟩
      · dsimp only
        rw [hsize]
        exact hslot'
      · dsimp only
        rw [hc]
        exact haccounts.arrive bytes
    · cases hstep
  | telrcv =>
    cases hstep
    obtain ⟨hnet, hslot, haccounts⟩ := h harrived
    obtain ⟨hI, hsize, hlength, haccounts'⟩ := telrcvLoop_accounts hh hclear harrived
      (r.input.netiring.count.toNat + 1) hnet haccounts
    refine ⟨hI, ?_, haccounts'⟩
    have hcount := Ringbuf.contents_length hnet
    have hcount' := Ringbuf.contents_length hI
    show (telrcvLoop hooks _ _).netiring.count + 1 ≤ (telrcvLoop hooks _ _).netiring.size
    rw [hsize]
    omega
  | ttytake n =>
    rw [receiverStep] at hstep
    split at hstep
    · cases hstep
      obtain ⟨hnet, hslot, haccounts⟩ := h harrived
      exact ⟨hnet, hslot, haccounts⟩
    · cases hstep

theorem Idle.inv (hs : Idle s) : (Receiver.start s).Inv hooks s := by
  have hlength := Ringbuf.contents_length hs.net.inv
  have hsize := hs.net.size
  rw [hs.net.contents] at hlength
  refine ⟨hs.net.inv, ?_, ?_⟩
  · show s.netiring.count + 1 ≤ s.netiring.size
    rw [← hlength, List.length_nil]
    omega
  · show (telrcvReader hooks).Accounts s.blank [] ⟨s.blank, s.netiring.contents, []⟩
    rw [hs.net.contents]
    exact Reader.accounts_start s.blank

theorem receiver_accounts (hh : hooks.Blind) (hs : Idle s)
    (hclear : (telrcvReader hooks).Unambiguous s.blank stream) {es : List ReceiverEvent}
    {r : Receiver} (hrun : run (receiverStep hooks) (.start s) es = some r)
    (hr : r.Finished stream) : r.output = ((telrcvReader hooks).reads s.blank stream).2 := by
  have hinv := run_invariant (fun _ _ _ h hstep => receiver_inv_step hh hclear h hstep)
    (fun _ => hs.inv) hrun
  have haccounts := (hinv (hr.1 ▸ List.prefix_rfl)).accounts
  rw [hr.1] at haccounts
  exact haccounts.output hr.2

/-! ## Two runs -/

theorem room_pos {r : Ringbuf} (h : r.Inv) (hroom : r.count + 2 ≤ r.size) : 1 ≤ r.room := by
  have hh := h.head
  have ht := h.tail
  have hn := h.nonneg
  simp only [wrap] at hh
  simp only [Ringbuf.room]
  split_ifs at hh ⊢ <;> omega

theorem supply_run {r : Receiver} {bytes : List UInt8} (hnet : r.input.netiring.Inv)
    (hroom : r.input.netiring.count + bytes.length + 1 ≤ r.input.netiring.size) :
    ∃ ring : Ringbuf, ring.Inv ∧ ring.size = r.input.netiring.size ∧
      ring.contents = r.input.netiring.contents ++ bytes ∧
      run (receiverStep hooks) r (bytes.map fun b => .netread [b]) =
        some ⟨{ r.input with netiring := ring }, r.arrived ++ bytes, r.output⟩ := by
  induction bytes generalizing r with
  | nil =>
    refine ⟨r.input.netiring, hnet, rfl, (List.append_nil _).symm, ?_⟩
    rw [List.map_nil, run_nil, List.append_nil]
  | cons b bytes ih =>
    rw [List.length_cons] at hroom
    have hpos := room_pos hnet (by omega)
    obtain ⟨hI, hc, hsize, hslot⟩ := @Ringbuf.readSource_spec _ hnet (by omega) [b] hpos
    have hcount := Ringbuf.contents_length hnet
    have hcount' := Ringbuf.contents_length hI
    rw [hc, List.length_append, List.length_singleton] at hcount'
    obtain ⟨ring, hI', hsize', hc', hrun⟩ := @ih
      ⟨{ r.input with netiring := (r.input.netiring.readSource (some [b])).2 },
        r.arrived ++ [b], r.output⟩ hI (by dsimp only; rw [hsize]; omega)
    have hstep : receiverStep hooks r (.netread [b]) = some
        ⟨{ r.input with netiring := (r.input.netiring.readSource (some [b])).2 },
          r.arrived ++ [b], r.output⟩ := if_pos hpos
    refine ⟨ring, hI', hsize'.trans hsize, ?_, ?_⟩
    · rw [hc']
      dsimp only
      rw [hc, List.append_assoc, List.singleton_append]
    · rw [List.map_cons, run_cons, hstep, Option.bind_some, hrun, List.append_assoc,
        List.singleton_append]

theorem drain_run {r : Receiver} {n : Nat} (htty : r.input.ttyoring.Inv)
    (hn : r.input.ttyoring.contents.length = n) :
    ∃ ring : Ringbuf, ring.Inv ∧ ring.size = r.input.ttyoring.size ∧ ring.contents = [] ∧
      run (receiverStep hooks) r (List.replicate n (.ttytake 1)) =
        some ⟨{ r.input with ttyoring := ring }, r.arrived, r.output⟩ := by
  induction n generalizing r with
  | zero => exact ⟨r.input.ttyoring, htty, rfl, List.length_eq_zero_iff.mp hn, rfl⟩
  | succ n ih =>
    have hcount := Ringbuf.contents_length htty
    have htail := htty.tail
    have hguard : ((1 : Nat) : Int) ≤ r.input.ttyoring.count ∧
        r.input.ttyoring.tail + 1 ≤ r.input.ttyoring.size := ⟨by omega, by omega⟩
    obtain ⟨hI, hc⟩ := Ringbuf.took_spec htty hguard.1 hguard.2
    have hlength := congrArg List.length hc
    have hcount' := Ringbuf.contents_length hI
    have htook : (r.input.ttyoring.took 1).count = r.input.ttyoring.count - 1 := rfl
    obtain ⟨ring, hI', hsize, hempty, hrun⟩ := @ih
      ⟨{ r.input with ttyoring := r.input.ttyoring.took 1 }, r.arrived, r.output⟩ hI
      (by dsimp only; omega)
    have hstep : receiverStep hooks r (.ttytake 1) = some
        ⟨{ r.input with ttyoring := r.input.ttyoring.took 1 }, r.arrived, r.output⟩ :=
      if_pos hguard
    refine ⟨ring, hI', hsize, hempty, ?_⟩
    rw [List.replicate_succ, run_cons, hstep, Option.bind_some, hrun]

theorem telrcvLoop_of_empty (fuel : Nat) (hnet : t.netiring.Inv)
    (hempty : t.netiring.contents = []) :
    telrcvLoop hooks fuel t = t ∧ handed hooks fuel t = [] := by
  cases fuel with
  | zero => exact ⟨rfl, rfl⟩
  | succ fuel =>
    rw [telrcvLoop, handed, (Ringbuf.getch_none hnet).mpr hempty]
    split
    · exact ⟨rfl, rfl⟩
    · exact ⟨rfl, rfl⟩

theorem reachable_pass (hh : hooks.Blind) {r : Receiver} (hr : Idle r.input) {c : UInt8}
    {bytes x : List UInt8} {u : NetInput} (hlength : bytes.length ≤ 1)
    (hpass : (telrcvReader hooks).pass ⟨r.input.blank, c :: bytes, r.output⟩ =
      some ⟨u, [], r.output ++ x⟩) :
    ∃ es r', run (receiverStep hooks) r es = some r' ∧ Idle r'.input ∧ r'.input.blank = u ∧
      r'.arrived = r.arrived ++ c :: bytes ∧ r'.output = r.output ++ x := by
  obtain ⟨hnet, htty⟩ := hr
  have hcount := Ringbuf.contents_length hnet.inv
  have hsize := hnet.size
  rw [hnet.contents, List.length_nil] at hcount
  obtain ⟨ring, hI, hrsize, hring, hsupply⟩ := @supply_run hooks r (c :: bytes) hnet.inv
    (by rw [List.length_cons]; omega)
  rw [hnet.contents, List.nil_append] at hring
  have hringCount := Ringbuf.contents_length hI
  rw [hring, List.length_cons] at hringCount
  cases hg : ring.getch with
  | none =>
    rw [(Ringbuf.getch_none hI).mp hg] at hring
    cases hring
  | some y =>
    obtain ⟨rv, c', ring'⟩ := y
    obtain ⟨hI', hc⟩ := Ringbuf.getch_spec hI hg
    rw [hring] at hc
    obtain ⟨rfl, hbytes⟩ := List.cons.inj hc
    rw [hbytes] at hpass
    -- The loop makes one pass, which empties the ring.
    have hreceive := @receive_pass { r.input with netiring := ring' } hooks hh hI' c r.output
    have hresult := Option.some.inj (hpass.symm.trans hreceive)
    obtain ⟨hblank, hempty, houtput⟩ := Reading.mk.inj hresult
    obtain ⟨hI'', hsize'', htty''⟩ :=
      @receive_rings { r.input with netiring := ring' } hooks hh hI' c
    obtain ⟨httyI, httySize⟩ := htty'' htty.inv
    have hroom : r.input.ttyoring.emptyCount > 2 := by
      have httyCount := Ringbuf.contents_length htty.inv
      have httySize := htty.size
      rw [htty.contents, List.length_nil] at httyCount
      rw [Ringbuf.emptyCount]
      omega
    have hadded := List.append_cancel_left houtput
    have hloop : ∀ fuel, telrcvLoop hooks (fuel + 1) { r.input with netiring := ring } =
        { r.input with netiring := ring' }.receive hooks c ∧
          handed hooks (fuel + 1) { r.input with netiring := ring } = x := by
      intro fuel
      obtain ⟨hdone, hnothing⟩ := @telrcvLoop_of_empty hooks _ fuel hI'' hempty.symm
      constructor
      · rw [telrcvLoop, if_pos hroom, hg]
        exact hdone
      · rw [handed, if_pos hroom, hg]
        show added hooks c _ ++ handed hooks fuel _ = x
        rw [hnothing, List.append_nil]
        exact hadded.symm
    obtain ⟨ttyring, httyI', httySize', httyEmpty, hdrain⟩ := @drain_run hooks
      ⟨{ r.input with netiring := ring' }.receive hooks c, r.arrived ++ c :: bytes,
        r.output ++ x⟩ _ httyI rfl
    have htelrcv : receiverStep hooks ⟨{ r.input with netiring := ring },
        r.arrived ++ c :: bytes, r.output⟩ .telrcv =
          some ⟨{ r.input with netiring := ring' }.receive hooks c, r.arrived ++ c :: bytes,
            r.output ++ x⟩ := by
      obtain ⟨hstate, hout⟩ := hloop ring.count.toNat
      rw [receiverStep, telrcv, hstate, hout]
    refine ⟨_, _, run_append_eq_some.mpr ⟨_, hsupply, run_cons_eq_some.mpr ⟨_, htelrcv, hdrain⟩⟩,
      ⟨⟨hI'', ?_, hempty.symm⟩, ⟨httyI', ?_, httyEmpty⟩⟩, hblank.symm, rfl, rfl⟩
    · obtain ⟨-, -, -, hrsize', -⟩ := Ringbuf.getch_eq_some hg
      dsimp only at hsize'' ⊢
      omega
    · have httySize₀ := htty.size
      dsimp only at httySize httySize' ⊢
      omega

theorem reachable_reads (hh : hooks.Blind) {r : Receiver} (hr : Idle r.input)
    (bytes : List UInt8) :
    ∃ es r', run (receiverStep hooks) r es = some r' ∧ Idle r'.input ∧
      r'.input.blank = ((telrcvReader hooks).reads r.input.blank bytes).1 ∧
      r'.arrived = r.arrived ++ bytes ∧
      r'.output = r.output ++ ((telrcvReader hooks).reads r.input.blank bytes).2 := by
  induction bytes generalizing r with
  | nil => exact ⟨[], r, rfl, hr, rfl, (List.append_nil _).symm, (List.append_nil _).symm⟩
  | cons b bytes ih =>
    obtain ⟨es, r₁, hrun, hidle, hblank, harrived, houtput⟩ :=
      @reachable_pass hooks hh r hr b [] _ _ (Nat.zero_le _) rfl
    obtain ⟨es', r₂, hrun', hidle', hblank', harrived', houtput'⟩ := ih hidle
    refine ⟨es ++ es', r₂, run_append_eq_some.mpr ⟨r₁, hrun, hrun'⟩, hidle', ?_, ?_, ?_⟩
    · rw [hblank', hblank, Reader.reads]
    · rw [harrived', harrived, List.append_assoc, List.singleton_append]
    · rw [houtput', houtput, hblank, Reader.reads, List.append_assoc]

/-! ## The output and the cuts -/

/-- Wherever a carriage return comes, in the state after the bytes before it, the next byte is
not one that makes a difference. -/
def Clear (hooks : RecvHooks) (s : NetInput) (stream : List UInt8) : Prop :=
  ∀ before d behind, stream = before ++ 13 :: d :: behind →
    ¬ (readOneByOne hooks s before).Doubtful d

theorem unambiguous_of_clear (hh : hooks.Blind) (hclear : Clear hooks s stream) :
    (telrcvReader hooks).Unambiguous s.blank stream := by
  intro before c d behind hstream
  rw [agrees_iff hh]
  rintro ⟨rfl, hdoubtful⟩
  exact hclear before d behind hstream hdoubtful

/-- The output does not depend on how the stream is cut exactly when no place of it is doubtful. -/
theorem same_output_iff (hh : hooks.Blind) (hs : Idle s) (stream : List UInt8) :
    SameOutput hooks s stream ↔ Clear hooks s stream := by
  constructor
  · intro hsame before d behind hstream hdoubtful
    have hnot : ¬ (telrcvReader hooks).Agrees (readOneByOne hooks s before) 13 d :=
      fun hagrees => (agrees_iff hh).mp hagrees ⟨rfl, hdoubtful⟩
    rw [Reader.Agrees] at hnot
    push Not at hnot
    obtain ⟨t, x, hahead, hx⟩ := hnot
    have hstart : Idle (Receiver.start s).input := hs
    obtain ⟨es, r, hrun, hidle, -, harrived, houtput⟩ := reachable_reads hh hstart stream
    -- In the other run the two bytes arrive together.
    obtain ⟨es₁, r₁, hrun₁, hidle₁, hblank₁, harrived₁, houtput₁⟩ :=
      reachable_reads hh hstart before
    have hpass : (telrcvReader hooks).pass ⟨r₁.input.blank, [13, d], r₁.output⟩ =
        some ⟨t, [], r₁.output ++ x⟩ := by
      have hahead' : (telrcvReader hooks).ahead r₁.input.blank 13 d = (t, x, true) := by
        rw [hblank₁]
        exact hahead
      rw [Reader.pass]
      dsimp only
      rw [hahead']
      rfl
    obtain ⟨es₂, r₂, hrun₂, hidle₂, hblank₂, harrived₂, houtput₂⟩ :=
      @reachable_pass hooks hh r₁ hidle₁ 13 [d] x t (Nat.le_refl 1) hpass
    obtain ⟨es₃, r₃, hrun₃, hidle₃, -, harrived₃, houtput₃⟩ := reachable_reads hh hidle₂ behind
    have hrun' : run (receiverStep hooks) (.start s) (es₁ ++ (es₂ ++ es₃)) = some r₃ :=
      run_append_eq_some.mpr ⟨r₁, hrun₁, run_append_eq_some.mpr ⟨r₂, hrun₂, hrun₃⟩⟩
    have harrived' : r₃.arrived = stream := by
      rw [harrived₃, harrived₂, harrived₁, hstream, List.append_assoc, List.append_assoc]
      rfl
    have heq := hsame es (es₁ ++ (es₂ ++ es₃)) r r₃ hrun hrun' ⟨harrived, hidle.net.contents⟩
      ⟨harrived', hidle₃.net.contents⟩
    rw [houtput, houtput₃, houtput₂, houtput₁, hblank₂, List.append_assoc, List.append_assoc,
      hstream] at heq
    exact Reader.reads_ne_of_not_agrees (telrcvReader_lawful hh) hahead hx heq.symm
  · intro hclear es es' r r' hrun hrun' hr hr'
    have hunambiguous := unambiguous_of_clear hh hclear
    rw [receiver_accounts hh hs hunambiguous hrun hr, receiver_accounts hh hs hunambiguous hrun' hr']

/-! ## Two streams -/

def plainHooks : RecvHooks := ⟨fun _ s => s, false, id, id, id⟩

theorem plainHooks_blind : plainHooks.Blind := ⟨fun _ => blind_id, blind_id, blind_id, blind_id⟩

/-- The client as `init_telnet` leaves it: the server does not echo yet. -/
def freshClient : NetInput :=
  .initial (.initial false) (List.replicate 8 0) (List.replicate 8 0)

theorem freshClient_idle : Idle freshClient :=
  ⟨⟨Ringbuf.init_inv (by decide), by decide, rfl⟩,
    ⟨Ringbuf.init_inv (by decide), by decide, rfl⟩⟩

theorem same_output_overtyped : SameOutput plainHooks freshClient [65, 13, 66] := by
  refine (same_output_iff plainHooks_blind freshClient_idle _).mpr ?_
  rintro before d behind hstream ⟨-, -, -, hd⟩
  have hmem : d ∈ [65, 13, 66] := by
    rw [hstream]
    exact List.mem_append_right _ (List.mem_cons_of_mem _ List.mem_cons_self)
  rcases hd with ⟨rfl, -⟩ | ⟨rfl, -⟩
  · exact absurd hmem (by decide)
  · exact absurd hmem (by decide)

/-- The end of a line gives one byte if it arrives together, and two if it does not. -/
theorem not_same_output_newline : ¬ SameOutput plainHooks freshClient [13, 10] := by
  intro hsame
  have htogether : (run (receiverStep plainHooks) (.start freshClient)
      [.netread [13, 10], .telrcv]).map
        (fun r => (r.arrived, r.input.netiring.contents, r.output)) =
      some ([13, 10], [], [10]) := by decide +kernel
  have hapart : (run (receiverStep plainHooks) (.start freshClient)
      [.netread [13], .telrcv, .netread [10], .telrcv]).map
        (fun r => (r.arrived, r.input.netiring.contents, r.output)) =
      some ([13, 10], [], [13, 10]) := by decide +kernel
  obtain ⟨r, hrun, hr⟩ := Option.map_eq_some_iff.mp htogether
  obtain ⟨r', hrun', hr'⟩ := Option.map_eq_some_iff.mp hapart
  obtain ⟨harrived, hrest⟩ := Prod.mk.inj hr
  obtain ⟨hnet, houtput⟩ := Prod.mk.inj hrest
  obtain ⟨harrived', hrest'⟩ := Prod.mk.inj hr'
  obtain ⟨hnet', houtput'⟩ := Prod.mk.inj hrest'
  have heq := hsame _ _ r r' hrun hrun' ⟨harrived, hnet⟩ ⟨harrived', hnet'⟩
  rw [houtput, houtput'] at heq
  exact absurd heq (by decide)

end Netkit.Telnet.Client

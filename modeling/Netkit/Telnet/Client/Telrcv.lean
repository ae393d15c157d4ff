import Netkit.Telnet.Client.Options
import Netkit.Telnet.Client.Ring
import Netkit.Telnet.Protocol

/-!
# The client reads from the network

`telrcv` of `telnet.cc`: it takes bytes from `netiring` as long as there is room for more than
two in `ttyoring`. Behind a carriage return it looks at the next byte, if there is one, and
returns it to the ring if it is neither dropped nor part of a newline; otherwise it remembers
the carriage return in its state.

What the client does after a suboption or a change of mode is left to `RecvHooks`.
-/

namespace Netkit.Telnet.Client

open Netkit.Foundations

def SUBBUFSIZE : Nat := 256

/-- `TS_*`. -/
inductive TelrcvState where
  | data
  | iac
  | will
  | wont
  | doo
  | dont
  | cr
  | sb
  | se
  deriving DecidableEq

structure NetInput where
  netiring : Ringbuf
  ttyoring : Ringbuf
  telrcvState : TelrcvState
  /-- `subbuffer`, up to `subpointer`. -/
  subbuffer : List UInt8
  options : OptionState
  SYNCHing : Bool
  crmod : Bool

/-- The state set up by `init_telnet`, with the given options. -/
def NetInput.initial (options : OptionState) (net tty : List UInt8) : NetInput where
  netiring := .init net
  ttyoring := .init tty
  telrcvState := .data
  subbuffer := []
  options := options
  SYNCHing := false
  crmod := false

structure RecvHooks where
  /-- `suboption()` on the bytes up to `subend`. -/
  suboption : List UInt8 → NetInput → NetInput
  /-- `nlink.stilloob()`. -/
  stilloob : Bool
  /-- `sendnaws()`. -/
  sendnaws : NetInput → NetInput
  /-- `setcommandmode()`. -/
  setcommandmode : NetInput → NetInput
  /-- `setconnmode(0)`. -/
  setconnmode : NetInput → NetInput

namespace NetInput

/-- `my_want_state_is_do(option)`. -/
def wantDo (option : UInt8) (s : NetInput) : Bool := (s.options.options.doDont option).wantState

def ttyadd (c : UInt8) (s : NetInput) : NetInput :=
  if s.SYNCHing || s.options.flushout then s else { s with ttyoring := s.ttyoring.putch c }

/-- `SB_ACCUM`. -/
def accum (c : UInt8) (s : NetInput) : NetInput :=
  if s.subbuffer.length < SUBBUFSIZE then { s with subbuffer := s.subbuffer ++ [c] } else s

/-- `ttyflush(1)`: the null sink takes all that it is offered, in one or two runs. -/
def ttyflushDrop (s : NetInput) : NetInput :=
  match s.ttyoring.flush [s.ttyoring.size, s.ttyoring.size] with
  | none => s
  | some (_, _, r) => { s with ttyoring := r }

/-! ## One pass of the loop -/

/-- The carriage return and, with `crmod`, a newline behind it. -/
def addCr (s : NetInput) : NetInput :=
  if s.crmod then (s.ttyadd 13).ttyadd 10 else s.ttyadd 13

/-- The case `TS_DATA`. -/
def receiveData (c : UInt8) (s : NetInput) : NetInput :=
  if c = IAC then { s with telrcvState := .iac }
  else if c = 13 ∧ s.wantDo TELOPT_BINARY = false then
    match s.netiring.getch with
    | some (_, d, r) =>
      if d = 0 then { s with netiring := r }.ttyadd 13 -- a "true" CR
      else if s.wantDo TELOPT_ECHO = false ∧ d = 10 then { s with netiring := r }.ttyadd 10
      else { s with netiring := r.ungetch d }.addCr
    | none => { s with telrcvState := .cr }.addCr
  else s.ttyadd c

/-- The case `TS_IAC`. -/
def receiveIac (hooks : RecvHooks) (c : UInt8) (s : NetInput) : NetInput :=
  if c = WILL then { s with telrcvState := .will }
  else if c = WONT then { s with telrcvState := .wont }
  else if c = DO then { s with telrcvState := .doo }
  else if c = DONT then { s with telrcvState := .dont }
  else if c = DM then
    { { s with SYNCHing := true }.ttyflushDrop with
      SYNCHing := hooks.stilloob, telrcvState := .data }
  else if c = SB then { s with subbuffer := [], telrcvState := .sb }
  else if c = IAC then { s.ttyadd IAC with telrcvState := .data }
  else { s with telrcvState := .data }

def endSuboption (hooks : RecvHooks) (c : UInt8) (s : NetInput) : NetInput :=
  let s := (s.accum IAC).accum c
  hooks.suboption s.subbuffer.dropLast.dropLast s

/-- The body of the loop, after `getch` has returned `c`. -/
def receive (hooks : RecvHooks) (c : UInt8) (s : NetInput) : NetInput :=
  match s.telrcvState with
  | .cr =>
    let s := { s with telrcvState := .data }
    if c = 0 then s -- ignore `\0` after CR
    else if c = 10 ∧ s.wantDo TELOPT_ECHO = false ∧ s.crmod = false then s.ttyadd c
    else s.receiveData c
  | .data => s.receiveData c
  | .iac => s.receiveIac hooks c
  | .will => { s with options := willoption c s.options, telrcvState := .data }
  | .wont => { s with options := wontoption c s.options, telrcvState := .data }
  | .doo =>
    let s := { s with options := dooption c s.options }
    let s := if c = TELOPT_NAWS then hooks.sendnaws s
      else if c = TELOPT_LFLOW then hooks.setconnmode (hooks.setcommandmode s)
      else s
    { s with telrcvState := .data }
  | .dont =>
    { hooks.setconnmode { s with options := dontoption c s.options } with telrcvState := .data }
  | .sb => if c = IAC then { s with telrcvState := .se } else s.accum c
  | .se =>
    if c ≠ SE then
      if c ≠ IAC then { s.endSuboption hooks c with telrcvState := .iac }.receiveIac hooks c
      else { s.accum c with telrcvState := .sb }
    else { s.endSuboption hooks c with telrcvState := .data }

end NetInput

/-- The loop. Every pass takes a byte out of `netiring`, so as many passes as there are bytes
are enough. -/
def telrcvLoop (hooks : RecvHooks) : Nat → NetInput → NetInput
  | 0, s => s
  | fuel + 1, s =>
    if s.ttyoring.emptyCount > 2 then
      match s.netiring.getch with
      | none => s
      | some (_, c, r) => telrcvLoop hooks fuel ({ s with netiring := r }.receive hooks c)
    else s

def telrcv (hooks : RecvHooks) (s : NetInput) : NetInput :=
  telrcvLoop hooks (s.netiring.count.toNat + 1) s

/-! ## Data -/

namespace NetInput

/-- The server echoes, `crmod` is off and nothing is being flushed. -/
structure Plain (binary : Bool) (s : NetInput) : Prop where
  echo : s.wantDo TELOPT_ECHO = true
  binary : s.wantDo TELOPT_BINARY = binary
  synching : s.SYNCHing = false
  flushout : s.options.flushout = false
  crmod : s.crmod = false

/-- The state of the client as that of a decoder. A carriage return that has been looked behind
is forgotten, but then the next byte is not one that is dropped. -/
def AtData (s : NetInput) : NvtState → Prop
  | .data => s.telrcvState = .data
  | .iac => s.telrcvState = .iac
  | .cr => s.telrcvState = .cr ∨
      s.telrcvState = .data ∧ ∃ d rest, s.netiring.contents = d :: rest ∧ d ≠ 0

/-- More bytes in `netiring` change nothing for the decoder. -/
theorem AtData.netread {s : NetInput} {st : NvtState} {r : Ringbuf} {bytes : List UInt8}
    (h : s.AtData st) (hc : r.contents = s.netiring.contents ++ bytes) :
    { s with netiring := r }.AtData st := by
  cases st with
  | data => exact h
  | iac => exact h
  | cr =>
    rcases h with hstate | ⟨hstate, d, rest, hcont, hd⟩
    · exact Or.inl hstate
    · refine Or.inr ⟨hstate, d, rest ++ bytes, ?_, hd⟩
      show r.contents = _
      rw [hc, hcont, List.cons_append]

/-- `t` is `s` after the bytes `read` have been taken out of `netiring` and decoded, from the
state `st` to the state `st'`. -/
structure Decoded (binary : Bool) (s t : NetInput) (st st' : NvtState)
    (read x : List UInt8) : Prop where
  net : t.netiring.Inv
  size : t.netiring.size = s.netiring.size
  tty : t.ttyoring.Inv
  plain : t.Plain binary
  taken : s.netiring.contents = read ++ t.netiring.contents
  feed : feed (nvtStep [0] binary) st read = some (st', x)
  added : t.ttyoring.contents = s.ttyoring.contents ++ x
  state : t.AtData st'

variable {binary : Bool} {s t u : NetInput} {st st' st'' : NvtState} {c : UInt8}
  {read read' x x' : List UInt8}

theorem Decoded.refl (hnet : s.netiring.Inv) (htty : s.ttyoring.Inv) (hs : s.Plain binary)
    (hst : s.AtData st) : s.Decoded binary s st st [] [] :=
  ⟨hnet, rfl, htty, hs, rfl, rfl, (List.append_nil _).symm, hst⟩

theorem Decoded.trans (h : s.Decoded binary t st st' read x)
    (h' : t.Decoded binary u st' st'' read' x') :
    s.Decoded binary u st st'' (read ++ read') (x ++ x') := by
  refine ⟨h'.net, h'.size.trans h.size, h'.tty, h'.plain, ?_, ?_, ?_, h'.state⟩
  · rw [h.taken, h'.taken, List.append_assoc]
  · exact feed_append_eq_some.mpr ⟨st', x, x', h.feed, h'.feed, rfl⟩
  · rw [h'.added, h.added, List.append_assoc]

theorem Plain.update (h : s.Plain binary) (net tty : Ringbuf) (state : TelrcvState) :
    { s with netiring := net, ttyoring := tty, telrcvState := state }.Plain binary :=
  ⟨h.echo, h.binary, h.synching, h.flushout, h.crmod⟩

theorem putch_room {r : Ringbuf} (h : r.Inv) (hroom : r.emptyCount > 2) (c : UInt8) :
    (r.putch c).Inv ∧ (r.putch c).contents = r.contents ++ [c] := by
  rw [Ringbuf.emptyCount] at hroom
  obtain ⟨hI, hc, -⟩ := Ringbuf.write_spec h [c]
  rw [List.take_of_length_le (by rw [List.length_singleton]; omega)] at hc
  exact ⟨hI, hc⟩

theorem ttyadd_plain (hs : s.Plain binary) (c : UInt8) :
    s.ttyadd c = { s with ttyoring := s.ttyoring.putch c } := by
  unfold ttyadd
  rw [if_neg]
  simp [hs.synching, hs.flushout]

theorem addCr_plain (hs : s.Plain binary) :
    s.addCr = { s with ttyoring := s.ttyoring.putch 13 } := by
  rw [addCr, if_neg (by simp [hs.crmod]), ttyadd_plain hs]

theorem nvtStep_iac {y : NvtState × List UInt8} (h : nvtStep [0] binary .iac c = some y) :
    c = IAC ∧ y = (.data, [IAC]) := by
  rw [nvtStep] at h
  split at h
  · rename_i hi
    exact ⟨hi, (Option.some.inj h).symm⟩
  · cases h

theorem feed_one {y : NvtState × List UInt8} (h : nvtStep [0] binary st c = some y) :
    Foundations.feed (nvtStep [0] binary) st [c] = some y := by
  simp [Foundations.feed, h]

/-- The case `TS_DATA`, on the ring behind `c`. -/
theorem receiveData_decoded (hnet : t.netiring.Inv) (hsize : t.netiring.size = s.netiring.size)
    (htake : s.netiring.contents = c :: t.netiring.contents)
    (htty : t.ttyoring.Inv) (hsame : t.ttyoring = s.ttyoring)
    (hroom : t.ttyoring.emptyCount > 2) (hs : t.Plain binary) (hstate : t.telrcvState = .data)
    (hstep : nvtStep [0] binary st c = some (nvtData binary c)) :
    ∃ st' read x, s.Decoded binary (t.receiveData c) st st' read x := by
  have hfeed := feed_one hstep
  have hput : ∀ d, (t.ttyoring.putch d).contents = s.ttyoring.contents ++ [d] := by
    intro d
    rw [(putch_room htty hroom d).2, hsame]
  have hputI : ∀ d, (t.ttyoring.putch d).Inv := fun d => (putch_room htty hroom d).1
  unfold receiveData
  by_cases hi : c = IAC
  · rw [if_pos hi]
    rw [nvtData, if_pos hi] at hfeed
    refine ⟨.iac, [c], [], hnet, hsize, htty, hs.update _ _ _, htake, hfeed, ?_, rfl⟩
    show t.ttyoring.contents = _
    rw [hsame, List.append_nil]
  · rw [if_neg hi, hs.binary]
    by_cases hcr : c = 13 ∧ binary = false
    · rw [if_pos hcr]
      rw [nvtData, if_neg hi, if_pos hcr] at hfeed
      obtain ⟨rfl, rfl⟩ := hcr
      split
      · rename_i rv d r hg
        obtain ⟨hI, hc⟩ := Ringbuf.getch_spec hnet hg
        obtain ⟨-, -, -, hrsize, -⟩ := Ringbuf.getch_eq_some hg
        split
        · -- a carriage return and the byte that is dropped behind it
          rename_i hd
          subst hd
          rw [ttyadd_plain (hs.update r t.ttyoring t.telrcvState)]
          refine ⟨.data, [13, 0], [13], hI, hrsize.trans hsize, hputI 13, hs.update _ _ _, ?_, ?_,
            hput 13, hstate⟩
          · rw [htake, hc]
            rfl
          · have hdrop : nvtStep [0] false .cr 0 = some (.data, []) :=
              nvtStep_cr_dropped List.mem_cons_self
            exact feed_append_eq_some.mpr ⟨.cr, [13], [], hfeed, feed_one hdrop, rfl⟩
        · rename_i hd
          rw [hs.echo, if_neg (fun h => Bool.noConfusion h.1),
            addCr_plain (hs.update (r.ungetch d) t.ttyoring t.telrcvState)]
          obtain ⟨hfree, hcell⟩ := Ringbuf.getch_ungetch (d := d) hnet hg
          obtain ⟨hI', hc', -⟩ := Ringbuf.ungetch_spec hI hfree hcell
          refine ⟨.cr, [13], [13], hI', hrsize.trans hsize, hputI 13, hs.update _ _ _, ?_, hfeed,
            hput 13, Or.inr ⟨hstate, d, r.contents, hc', hd⟩⟩
          rw [htake, hc, ← hc']
          rfl
      · rw [addCr_plain (hs.update t.netiring t.ttyoring .cr)]
        exact ⟨.cr, [13], [13], hnet, hsize, hputI 13, hs.update _ _ _, htake, hfeed, hput 13,
          Or.inl rfl⟩
    · rw [if_neg hcr, ttyadd_plain hs]
      rw [nvtData, if_neg hi, if_neg hcr] at hfeed
      exact ⟨.data, [c], [c], hnet, hsize, hputI c, hs.update _ _ _, htake, hfeed, hput c, hstate⟩

theorem receive_decoded (hooks : RecvHooks) {rv : Nat} {r : Ringbuf} (hnet : s.netiring.Inv)
    (htty : s.ttyoring.Inv) (hroom : s.ttyoring.emptyCount > 2) (hs : s.Plain binary)
    (hst : s.AtData st) (hg : s.netiring.getch = some (rv, c, r))
    {y : NvtState × List UInt8} (hstep : nvtStep [0] binary st c = some y) :
    ∃ st' read x,
      s.Decoded binary ({ s with netiring := r }.receive hooks c) st st' read x := by
  obtain ⟨hI, hc⟩ := Ringbuf.getch_spec hnet hg
  obtain ⟨-, -, -, hsize, -⟩ := Ringbuf.getch_eq_some hg
  have hs' : ∀ state, { s with netiring := r, telrcvState := state }.Plain binary := fun state =>
    hs.update r s.ttyoring state
  have hdata : s.telrcvState = .data → nvtStep [0] binary st c = some (nvtData binary c) →
      ∃ st' read x,
        s.Decoded binary ({ s with netiring := r }.receive hooks c) st st' read x := by
    intro hstate hstep
    rw [receive]
    dsimp only
    rw [hstate]
    exact receiveData_decoded hI hsize hc htty rfl hroom (hs' .data) rfl hstep
  cases st with
  | data => exact hdata hst rfl
  | cr =>
    rcases hst with hstate | ⟨hstate, d, rest, hcont, hd⟩
    · rw [receive]
      dsimp only
      rw [hstate]
      dsimp only
      by_cases h0 : c = 0
      · rw [if_pos h0]
        subst h0
        exact ⟨.data, [0], [], hI, hsize, htty, hs' .data, hc,
          feed_one (nvtStep_cr_dropped List.mem_cons_self), (List.append_nil _).symm, rfl⟩
      · have hecho : { s with netiring := r, telrcvState := .data }.wantDo TELOPT_ECHO = true :=
          hs.echo
        rw [if_neg h0, hecho, if_neg (fun h => Bool.noConfusion h.2.1)]
        refine receiveData_decoded hI hsize hc htty rfl hroom (hs' .data) rfl ?_
        rw [nvtStep, if_neg (by simpa using h0)]
    · rw [hc] at hcont
      cases hcont
      refine hdata hstate ?_
      rw [nvtStep, if_neg (by simpa using hd)]
  | iac =>
    obtain ⟨hi, rfl⟩ := nvtStep_iac hstep
    subst hi
    have hstate : s.telrcvState = .iac := hst
    obtain ⟨hputI, hput⟩ := putch_room htty hroom IAC
    have hreceive : { s with netiring := r }.receive hooks IAC =
        { s with netiring := r, ttyoring := s.ttyoring.putch IAC, telrcvState := .data } := by
      rw [receive]
      dsimp only
      rw [hstate]
      dsimp only
      rw [receiveIac, if_neg (by decide), if_neg (by decide), if_neg (by decide),
        if_neg (by decide), if_neg (by decide), if_neg (by decide), if_pos rfl,
        ttyadd_plain (hs.update r s.ttyoring .iac)]
    rw [hreceive]
    exact ⟨.data, [IAC], [IAC], hI, hsize, hputI, hs.update _ _ _, hc, feed_one hstep, hput, rfl⟩

end NetInput

/-! ## The loop on data -/

open NetInput

variable {binary : Bool} {s : NetInput} {st : NvtState}

theorem telrcvLoop_data (hooks : RecvHooks) {fuel : Nat} (hnet : s.netiring.Inv) (htty : s.ttyoring.Inv)
    (hs : s.Plain binary) (hst : s.AtData st) {y : NvtState × List UInt8}
    (hfeed : feed (nvtStep [0] binary) st s.netiring.contents = some y) :
    ∃ st' read x, s.Decoded binary (telrcvLoop hooks fuel s) st st' read x := by
  induction fuel generalizing s st y with
  | zero => exact ⟨st, [], [], .refl hnet htty hs hst⟩
  | succ fuel ih =>
    rw [telrcvLoop]
    split
    · rename_i hroom
      split
      · exact ⟨st, [], [], .refl hnet htty hs hst⟩
      · rename_i rv c r hg
        have hfirst := hfeed
        rw [(Ringbuf.getch_spec hnet hg).2] at hfirst
        obtain ⟨u, x, z, hstep, -, -⟩ := feed_cons_eq_some.mp hfirst
        obtain ⟨st', read, x, hdec⟩ :=
          receive_decoded hooks hnet htty hroom hs hst hg hstep
        rw [hdec.taken] at hfeed
        obtain ⟨v, x', z', hread, hrest, -⟩ := feed_append_eq_some.mp hfeed
        rw [hdec.feed] at hread
        cases hread
        obtain ⟨st'', read', x'', hdec'⟩ :=
          ih hdec.net hdec.tty hdec.plain hdec.state hrest
        exact ⟨st'', read ++ read', x ++ x'', hdec.trans hdec'⟩
    · exact ⟨st, [], [], .refl hnet htty hs hst⟩

theorem telrcv_data (hooks : RecvHooks) (hnet : s.netiring.Inv) (htty : s.ttyoring.Inv) (hs : s.Plain binary)
    (hst : s.AtData st) {y : NvtState × List UInt8}
    (hfeed : feed (nvtStep [0] binary) st s.netiring.contents = some y) :
    ∃ st' read x, s.Decoded binary (telrcv hooks s) st st' read x :=
  telrcvLoop_data hooks hnet htty hs hst hfeed

end Netkit.Telnet.Client

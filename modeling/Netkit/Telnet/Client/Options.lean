import Netkit.Telnet.Protocol

/-!
# The client's option negotiation

`send_do`, `send_dont`, `send_will`, `send_wont` and the four handlers of `telnet.cc`, built
without `TN3270` and with `KLUDGELINEMODE` (the `Makefile`). The commands that a call puts
into `netoring` are collected in `sent`. `setconnmode`, `slc_init` and `settimer` change
the terminal mode, the special characters and the clocks, not the option tables; they are
not part of this state.
-/

namespace Netkit.Telnet.Client

structure OptionState where
  options : Options
  flushout : Bool
  kludgelinemode : Bool
  linemode : UInt8
  /-- `env_getvalue("DISPLAY", 0)` is not `NULL`. -/
  display : Bool
  /-- The commands added to `netoring`, in order. -/
  sent : List Msg

namespace OptionState

/-- The state set up by `init_telnet`. -/
def initial (display : Bool) : OptionState where
  options := .negative
  flushout := false
  kludgelinemode := true
  linemode := 0
  display := display
  sent := []

def modDo (c : UInt8) (f : Negotiation → Negotiation) (s : OptionState) : OptionState :=
  { s with options := s.options.modDo c f }

def modWill (c : UInt8) (f : Negotiation → Negotiation) (s : OptionState) : OptionState :=
  { s with options := s.options.modWill c f }

def emit (verb : Verb) (c : UInt8) (s : OptionState) : OptionState :=
  { s with sent := s.sent ++ [⟨verb, c⟩] }

@[simp] theorem modDo_options (c : UInt8) (f : Negotiation → Negotiation) (s : OptionState) :
    (s.modDo c f).options = s.options.modDo c f := rfl

@[simp] theorem modWill_options (c : UInt8) (f : Negotiation → Negotiation) (s : OptionState) :
    (s.modWill c f).options = s.options.modWill c f := rfl

@[simp] theorem modDo_sent (c : UInt8) (f : Negotiation → Negotiation) (s : OptionState) :
    (s.modDo c f).sent = s.sent := rfl

@[simp] theorem modWill_sent (c : UInt8) (f : Negotiation → Negotiation) (s : OptionState) :
    (s.modWill c f).sent = s.sent := rfl

@[simp] theorem emit_options (verb : Verb) (c : UInt8) (s : OptionState) :
    (s.emit verb c).options = s.options := rfl

@[simp] theorem emit_sent (verb : Verb) (c : UInt8) (s : OptionState) :
    (s.emit verb c).sent = s.sent ++ [⟨verb, c⟩] := rfl

end OptionState

open OptionState

/-! ## Requests -/

/-- `send_do` and `send_dont`: ask for `new` in the DO direction. -/
def sendDoDont (new : Bool) (verb : Verb) (c : UInt8) (init : Bool) (s : OptionState) :
    OptionState :=
  if init then
    match (s.options.doDont c).request new new with
    | none => s
    | some n => (s.modDo c fun _ => n).emit verb c
  else s.emit verb c

/-- `send_will` and `send_wont`: ask for `new` in the WILL direction. -/
def sendWillWont (new : Bool) (verb : Verb) (c : UInt8) (init : Bool) (s : OptionState) :
    OptionState :=
  if init then
    match (s.options.willWont c).request new new with
    | none => s
    | some n => (s.modWill c fun _ => n).emit verb c
  else s.emit verb c

def sendDo : UInt8 → Bool → OptionState → OptionState := sendDoDont true .doo

def sendDont : UInt8 → Bool → OptionState → OptionState := sendDoDont false .dont

def sendWill : UInt8 → Bool → OptionState → OptionState := sendWillWont true .will

def sendWont : UInt8 → Bool → OptionState → OptionState := sendWillWont false .wont

/-! ## Received commands -/

/-- `new_state_ok` of `willoption`: the options the client lets the server turn on. -/
def willoptionOk (option : UInt8) : Bool :=
  option = TELOPT_ECHO || option = TELOPT_BINARY || option = TELOPT_SGA ||
    option = TELOPT_STATUS

def willoption (option : UInt8) (s : OptionState) : OptionState :=
  let s := s.modDo option (·.answered true)
  let n := s.options.doDont option
  if n.resp = 0 ∧ n.wantState = false then
    if option = TELOPT_TM then
      -- pretend we got back a WONT, and never reply
      { s with flushout := false }.modDo option ({ · with wantState := false, state := false })
    else if willoptionOk option then
      (sendDo option false (s.modDo option ({ · with wantState := true }))).modDo option
        ({ · with state := true })
    else
      (sendDont option false (s.modDo option fun n => { n with resp := n.resp + 1 })).modDo
        option ({ · with state := true })
  else s.modDo option ({ · with state := true })

def wontoption (option : UInt8) (s : OptionState) : OptionState :=
  let s := s.modDo option (·.answered false)
  let n := s.options.doDont option
  if n.resp = 0 ∧ n.wantState = true then
    if option = TELOPT_TM then
      { s with flushout := false }.modDo option ({ · with wantState := false, state := false })
    else
      let s := s.modDo option ({ · with wantState := false })
      let s := if n.state then sendDont option false s else s
      s.modDo option ({ · with state := false })
  else if option = TELOPT_TM then
    { s with flushout := false }.modDo option ({ · with wantState := false, state := false })
  else s.modDo option ({ · with state := false })

/-- `new_state_ok` of `dooption`: the options the client turns on for the server. -/
def dooptionOk (option : UInt8) (s : OptionState) : Bool :=
  option = TELOPT_BINARY || option = TELOPT_NAWS || option = TELOPT_TSPEED ||
    option = TELOPT_LFLOW || option = TELOPT_TTYPE || option = TELOPT_SGA ||
    option = TELOPT_ENVIRON || (option = TELOPT_XDISPLOC && s.display)

def dooption (option : UInt8) (s : OptionState) : OptionState :=
  let s := s.modWill option (·.answered true)
  let n := s.options.willWont option
  if n.resp = 0 then
    if n.wantState = false then
      if option = TELOPT_TM then
        -- send a WILL, but pretend we sent WONT
        (sendWill option false s).modWill TELOPT_TM
          ({ · with wantState := false, state := false })
      else if option = TELOPT_LINEMODE then
        let s := sendDo TELOPT_SGA true { s with kludgelinemode := false }
        let s := s.modWill TELOPT_LINEMODE ({ · with wantState := true })
        (sendWill option false s).modWill TELOPT_LINEMODE ({ · with state := true })
      else if dooptionOk option s then
        (sendWill option false (s.modWill option ({ · with wantState := true }))).modWill
          option ({ · with state := true })
      else
        (sendWont option false (s.modWill option fun n => { n with resp := n.resp + 1 })).modWill
          option ({ · with state := true })
    else if option = TELOPT_LINEMODE then
      let s := sendDo TELOPT_SGA true { s with kludgelinemode := false }
      sendDo TELOPT_SGA false (s.modWill option ({ · with state := true }))
    else s.modWill option ({ · with state := true })
  else s.modWill option ({ · with state := true })

def dontoption (option : UInt8) (s : OptionState) : OptionState :=
  let s := s.modWill option (·.answered false)
  let n := s.options.willWont option
  if n.resp = 0 ∧ n.wantState = true then
    let s := if option = TELOPT_LINEMODE then { s with linemode := 0 } else s
    let s := s.modWill option ({ · with wantState := false })
    let s := if n.state then sendWont option false s else s
    s.modWill option ({ · with state := false })
  else s.modWill option ({ · with state := false })

/-- The handler `telrcv` calls for a received command. -/
def receive (m : Msg) (s : OptionState) : OptionState :=
  match m.verb with
  | .will => willoption m.option s
  | .wont => wontoption m.option s
  | .doo => dooption m.option s
  | .dont => dontoption m.option s

end Netkit.Telnet.Client

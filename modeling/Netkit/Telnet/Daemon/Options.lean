import Netkit.Telnet.Protocol

/-!
# telnetd's option negotiation

`send_do`, `send_dont`, `send_will`, `send_wont` and the four handlers of `state.c`, built
without `LINEMODE`, `AUTHENTICATE` and `ENCRYPT` (the `Makefile` defines none of them). In
telnetd's words the DO direction is the peer's: `his_state_is_will` is the `state` of
`doDont`, `his_want_state_is_will` its `wantState`. The commands that a call formats into
`netobuf` are collected in `sent`. The terminal settings (`tty_binaryin` and the like), the
flow control characters in `slctab` and the suboption timers do not feed back into the
option tables and are not part of this state.
-/

namespace Netkit.Telnet.Daemon

structure OptionState where
  options : Options
  not42 : Bool
  /-- "When we get a DONT SGA, we will try once to turn it back on." -/
  turnOnSga : Bool
  /-- `cleanup(0)` has been called: the process is gone. -/
  exited : Bool
  /-- The commands formatted into `netobuf`, in order. -/
  sent : List Msg

namespace OptionState

def initial : OptionState where
  options := .negative
  not42 := true
  turnOnSga := false
  exited := false
  sent := []

def modDo (c : UInt8) (f : Negotiation → Negotiation) (s : OptionState) : OptionState :=
  { s with options := s.options.modDo c f }

def modWill (c : UInt8) (f : Negotiation → Negotiation) (s : OptionState) : OptionState :=
  { s with options := s.options.modWill c f }

def emit (verb : Verb) (c : UInt8) (s : OptionState) : OptionState :=
  { s with sent := s.sent ++ [⟨verb, c⟩] }

@[simp] theorem modDo_options (c : UInt8) (f : Negotiation → Negotiation) (s : OptionState) :
    (s.modDo c f).options = s.options.modDo c f := rfl

@[simp] theorem modWill_options (c : UInt8) (f : Negotiation → Negotiation) (s : OptionState) :
    (s.modWill c f).options = s.options.modWill c f := rfl

@[simp] theorem modDo_sent (c : UInt8) (f : Negotiation → Negotiation) (s : OptionState) :
    (s.modDo c f).sent = s.sent := rfl

@[simp] theorem modWill_sent (c : UInt8) (f : Negotiation → Negotiation) (s : OptionState) :
    (s.modWill c f).sent = s.sent := rfl

@[simp] theorem emit_options (verb : Verb) (c : UInt8) (s : OptionState) :
    (s.emit verb c).options = s.options := rfl

@[simp] theorem emit_sent (verb : Verb) (c : UInt8) (s : OptionState) :
    (s.emit verb c).sent = s.sent ++ [⟨verb, c⟩] := rfl

/-- `his_state_is_will(option)`. -/
def hisStateIsWill (s : OptionState) (option : UInt8) : Bool := (s.options.doDont option).state

/-- `his_want_state_is_will(option)`. -/
def hisWantStateIsWill (s : OptionState) (option : UInt8) : Bool :=
  (s.options.doDont option).wantState

end OptionState

open OptionState

/-! ## Requests -/

/-- Special case for `TELOPT_TM`: we send a DO, but pretend that we sent a DONT, so that we
can send more DOs if we want to. -/
def sendDo (option : UInt8) (init : Bool) (s : OptionState) : OptionState :=
  if init then
    match (s.options.doDont option).request true (option ≠ TELOPT_TM) with
    | none => s
    | some n => (s.modDo option fun _ => n).emit .doo option
  else s.emit .doo option

def sendDont (option : UInt8) (init : Bool) (s : OptionState) : OptionState :=
  if init then
    match (s.options.doDont option).request false false with
    | none => s
    | some n => (s.modDo option fun _ => n).emit .dont option
  else s.emit .dont option

/-- `send_will` and `send_wont`: ask for `new` in the WILL direction. -/
def sendWillWont (new : Bool) (verb : Verb) (c : UInt8) (init : Bool) (s : OptionState) :
    OptionState :=
  if init then
    match (s.options.willWont c).request new new with
    | none => s
    | some n => (s.modWill c fun _ => n).emit verb c
  else s.emit verb c

def sendWill : UInt8 → Bool → OptionState → OptionState := sendWillWont true .will

def sendWont : UInt8 → Bool → OptionState → OptionState := sendWillWont false .wont

/-! ## Received commands -/

/-- `changeok` of `willoption`: the options telnetd lets the client turn on. -/
def willoptionOk (option : UInt8) : Bool :=
  option = TELOPT_BINARY || option = TELOPT_LFLOW || option = TELOPT_TTYPE ||
    option = TELOPT_SGA || option = TELOPT_NAWS || option = TELOPT_TSPEED ||
    option = TELOPT_XDISPLOC || option = TELOPT_ENVIRON

def willoption (option : UInt8) (s : OptionState) : OptionState :=
  let s := s.modDo option (·.answered true)
  let n := s.options.doDont option
  if n.resp = 0 then
    if n.wantState = false then
      if option = TELOPT_TM then s -- we never respond to a WILL TM, and leave the state WONT
      else
        let s := if option = TELOPT_ECHO then { s with not42 := false } else s
        if willoptionOk option then
          (sendDo option false (s.modDo option ({ · with wantState := true }))).modDo option
            ({ · with state := true })
        else
          (sendDont option false (s.modDo option fun n => { n with resp := n.resp + 1 })).modDo
            option ({ · with state := true })
    else if option = TELOPT_ECHO then
      -- "Egads, he responded WILL ECHO. Turn it off right now!"
      (sendDont option true { s with not42 := false }).modDo option ({ · with state := true })
    else s.modDo option ({ · with state := true })
  else s.modDo option ({ · with state := true })

/-- Unlike the three other handlers this one ends without recording the new state. -/
def wontoption (option : UInt8) (s : OptionState) : OptionState :=
  let s := s.modDo option (·.answered false)
  let n := s.options.doDont option
  if n.resp = 0 ∧ n.wantState = true then
    if option = TELOPT_TM then s.modDo TELOPT_TM ({ · with wantState := false })
    else
      let s := if option = TELOPT_ECHO then { s with not42 := true } else s
      let s := s.modDo option ({ · with wantState := false })
      if n.state then sendDont option false s else s
  else s

/-- `changeok` of `dooption`: the options telnetd turns on for the client. -/
def dooptionOk (option : UInt8) : Bool :=
  option = TELOPT_ECHO || option = TELOPT_BINARY || option = TELOPT_SGA ||
    option = TELOPT_STATUS

def dooption (option : UInt8) (s : OptionState) : OptionState :=
  let s := s.modWill option (·.answered true)
  let n := s.options.willWont option
  if n.resp = 0 ∧ n.wantState = false then
    if option = TELOPT_TM then
      -- send a WILL, but pretend we sent a WONT
      (sendWill option false s).modWill option ({ · with wantState := false, state := false })
    else if option = TELOPT_LOGOUT then
      -- respond, make sure that it gets written out, and then just go away
      let s := sendWill TELOPT_LOGOUT false
        (s.modWill TELOPT_LOGOUT ({ · with wantState := true }))
      { s.modWill TELOPT_LOGOUT ({ · with state := true }) with exited := true }
    else
      let s := if option = TELOPT_SGA then { s with turnOnSga := false } else s
      if dooptionOk option then
        (sendWill option false (s.modWill option ({ · with wantState := true }))).modWill
          option ({ · with state := true })
      else
        (sendWont option false (s.modWill option fun n => { n with resp := n.resp + 1 })).modWill
          option ({ · with state := true })
  else s.modWill option ({ · with state := true })

def dontoption (option : UInt8) (s : OptionState) : OptionState :=
  let s := s.modWill option (·.answered false)
  let n := s.options.willWont option
  if n.resp = 0 ∧ n.wantState = true then
    let s := s.modWill option ({ · with wantState := false })
    let s := if n.state then sendWont option false s else s
    let s := s.modWill option ({ · with state := false })
    if option = TELOPT_SGA then
      let s := { s with turnOnSga := !s.turnOnSga }
      if s.turnOnSga then sendWill option true s else s
    else s
  else s.modWill option ({ · with state := false })

/-- The handler `telrcv` calls for a received command. -/
def receive (m : Msg) (s : OptionState) : OptionState :=
  match m.verb with
  | .will => willoption m.option s
  | .wont => wontoption m.option s
  | .doo => dooption m.option s
  | .dont => dontoption m.option s

end Netkit.Telnet.Daemon

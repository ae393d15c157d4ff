import Mathlib.Data.UInt
import Mathlib.Logic.Function.Basic
import Netkit.Foundations.Transducer

/-!
# The bytes of the telnet protocol

The command and option codes that the client and telnetd share (`<arpa/telnet.h>`), and
the four negotiation messages `IAC DO x`, `IAC DONT x`, `IAC WILL x` and `IAC WONT x`.

What a receiver of data has to undo: `IAC` is doubled, and without the option `BINARY` a
carriage return is followed by a byte that may have to be dropped. Telnetd drops a NUL and a
newline, the client only a NUL.

The client (`telnet.cc`) and telnetd (`state.c`) keep the same three arrays: `options`,
with four bits for each option, and the counters `do_dont_resp` and `will_wont_resp`. For
one option and one direction that is a `Negotiation`: the bit `MY_STATE_x`, the bit
`MY_WANT_STATE_x` and the counter. telnetd's `his_state_is_will` is `my_state_is_do`, and
so on (`defs.h`), so both programs read the same two records.
-/

namespace Netkit.Telnet

def IAC : UInt8 := 255
def DONT : UInt8 := 254
def DO : UInt8 := 253
def WONT : UInt8 := 252
def WILL : UInt8 := 251
def SB : UInt8 := 250
def GA : UInt8 := 249
def EL : UInt8 := 248
def EC : UInt8 := 247
def AYT : UInt8 := 246
def AO : UInt8 := 245
def IP : UInt8 := 244
def BREAK : UInt8 := 243
def DM : UInt8 := 242
def NOP : UInt8 := 241
def SE : UInt8 := 240
def EOR : UInt8 := 239
def ABORT : UInt8 := 238
def SUSP : UInt8 := 237
def xEOF : UInt8 := 236

def TELOPT_BINARY : UInt8 := 0
def TELOPT_ECHO : UInt8 := 1
def TELOPT_SGA : UInt8 := 3
def TELOPT_STATUS : UInt8 := 5
def TELOPT_TM : UInt8 := 6
def TELOPT_LOGOUT : UInt8 := 18
def TELOPT_TTYPE : UInt8 := 24
def TELOPT_NAWS : UInt8 := 31
def TELOPT_TSPEED : UInt8 := 32
def TELOPT_LFLOW : UInt8 := 33
def TELOPT_LINEMODE : UInt8 := 34
def TELOPT_XDISPLOC : UInt8 := 35
/-- Both programs define `TELOPT_ENVIRON` as `TELOPT_NEW_ENVIRON`. -/
def TELOPT_ENVIRON : UInt8 := 39

def TELQUAL_IS : UInt8 := 0
def TELQUAL_INFO : UInt8 := 2
/-- Both programs define `ENV_VAR` as `NEW_ENV_VAR`. -/
def ENV_VAR : UInt8 := 0
/-- Both programs define `ENV_VALUE` as `NEW_ENV_VALUE`. -/
def ENV_VALUE : UInt8 := 1
def ENV_ESC : UInt8 := 2

/-- `BUFSIZ` of `<stdio.h>`, the size of most buffers of both programs. -/
def BUFSIZ : Nat := 8192

/-- A variable of the environment option: its name and, if it is defined, its value. -/
abbrev Var := List UInt8 × Option (List UInt8)

/-! ## Negotiation messages -/

inductive Verb where
  | will
  | wont
  | doo
  | dont
  deriving DecidableEq

def Verb.byte : Verb → UInt8
  | .will => WILL
  | .wont => WONT
  | .doo => DO
  | .dont => DONT

/-- A three-byte option command. -/
structure Msg where
  verb : Verb
  option : UInt8
  deriving DecidableEq

def Msg.bytes (m : Msg) : List UInt8 := [IAC, m.verb.byte, m.option]

/-! ## Option tables -/

/-- One direction of one option. The counters are of type `char`; they are only compared
with zero, incremented and decremented, so they count modulo 256. -/
@[ext] structure Negotiation where
  state : Bool
  wantState : Bool
  resp : UInt8
  deriving DecidableEq

namespace Negotiation

def negative : Negotiation := ⟨false, false, 0⟩

/-- The head of `send_*(option, 1)`: `none` if there is nothing to send, else the record
after `set_*_want_state_*` (to `want`) and `resp++`. -/
def request (new want : Bool) (n : Negotiation) : Option Negotiation :=
  if (n.resp = 0 ∧ n.state = new) ∨ n.wantState = new then none
  else some { n with wantState := want, resp := n.resp + 1 }

/-- The counter after a command that says `new` has arrived. -/
def answered (new : Bool) (n : Negotiation) : Negotiation :=
  if n.resp = 0 then n
  else if n.resp - 1 ≠ 0 ∧ n.state = new then { n with resp := n.resp - 1 - 1 }
  else { n with resp := n.resp - 1 }

@[simp] theorem answered_state (new : Bool) (n : Negotiation) :
    (n.answered new).state = n.state := by
  unfold answered
  split
  · rfl
  · split <;> rfl

@[simp] theorem answered_wantState (new : Bool) (n : Negotiation) :
    (n.answered new).wantState = n.wantState := by
  unfold answered
  split
  · rfl
  · split <;> rfl

end Negotiation

/-- `options`, `do_dont_resp` and `will_wont_resp`, seen by option and direction. -/
structure Options where
  doDont : UInt8 → Negotiation
  willWont : UInt8 → Negotiation

namespace Options

def negative : Options := ⟨fun _ => .negative, fun _ => .negative⟩

def modDo (c : UInt8) (f : Negotiation → Negotiation) (o : Options) : Options :=
  { o with doDont := Function.update o.doDont c (f (o.doDont c)) }

def modWill (c : UInt8) (f : Negotiation → Negotiation) (o : Options) : Options :=
  { o with willWont := Function.update o.willWont c (f (o.willWont c)) }

variable (c d : UInt8) (f : Negotiation → Negotiation) (o : Options)

@[simp] theorem modDo_doDont : (o.modDo c f).doDont c = f (o.doDont c) := by
  simp [modDo]

theorem modDo_doDont_ne (h : d ≠ c) : (o.modDo c f).doDont d = o.doDont d := by
  simp [modDo, h]

@[simp] theorem modDo_willWont : (o.modDo c f).willWont = o.willWont := rfl

@[simp] theorem modWill_willWont : (o.modWill c f).willWont c = f (o.willWont c) := by
  simp [modWill]

@[simp] theorem modWill_doDont : (o.modWill c f).doDont = o.doDont := rfl

end Options

/-! ## The data -/

open Netkit.Foundations

inductive NvtState where
  | data
  | iac
  | cr
  deriving DecidableEq

/-- A byte that is not behind an `IAC` and not dropped. -/
def nvtData (binary : Bool) (c : UInt8) : NvtState × List UInt8 :=
  if c = IAC then (.iac, [])
  else if c = 13 ∧ binary = false then (.cr, [c])
  else (.data, [c])

/-- `dropped` are the bytes that are dropped behind a carriage return. -/
def nvtStep (dropped : List UInt8) (binary : Bool) :
    NvtState → UInt8 → Option (NvtState × List UInt8)
  | .data, c => some (nvtData binary c)
  | .cr, c => if c ∈ dropped then some (.data, []) else some (nvtData binary c)
  | .iac, c => if c = IAC then some (.data, [IAC]) else none

variable {dropped : List UInt8} {binary : Bool} {c d : UInt8}

theorem nvtData_self (hi : c ≠ IAC) (hcr : binary = false → c ≠ 13) :
    nvtData binary c = (.data, [c]) := by
  rw [nvtData, if_neg hi, if_neg (fun h => hcr h.2 h.1)]

theorem nvtData_cr : nvtData false 13 = (.cr, [13]) := rfl

theorem nvtStep_cr_dropped (hd : d ∈ dropped) :
    nvtStep dropped binary .cr d = some (.data, []) := if_pos hd

theorem decodes_self (hi : c ≠ IAC) (hcr : binary = false → c ≠ 13) :
    Decodes (nvtStep dropped binary) .data [c] [c] := by
  simp [Decodes, feed, nvtStep, nvtData_self hi hcr]

theorem decodes_iac : Decodes (nvtStep dropped binary) .data [IAC, IAC] [IAC] := by
  simp [Decodes, feed, nvtStep, nvtData]

theorem decodes_cr_dropped (hd : d ∈ dropped) :
    Decodes (nvtStep dropped false) .data [13, d] [13] := by
  simp [Decodes, feed, nvtStep, nvtData_cr, hd]

theorem decodes_cr_kept (hd : d ∉ dropped) (hi : d ≠ IAC) (hcr : d ≠ 13) :
    Decodes (nvtStep dropped false) .data [13, d] [13, d] := by
  simp [Decodes, feed, nvtStep, nvtData_cr, hd, nvtData_self hi (fun _ => hcr)]

end Netkit.Telnet

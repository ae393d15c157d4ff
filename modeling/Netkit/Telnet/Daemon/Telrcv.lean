import Netkit.Telnet.Daemon.NetBuf
import Netkit.Telnet.Daemon.Options
import Netkit.Telnet.Daemon.Suboption
import Netkit.Telnet.Protocol

/-!
# telnetd reads from the network

`telrcv` of `state.c`: one byte of `netibuf` at a time, with a state that survives from one call
to the next. Data goes into `ptyobuf`, a suboption into `subbuffer`, and the four option
commands to their handlers. The call ends when the input or the room in `ptyobuf` does.

The other commands (`IP`, `BREAK`, `AYT`, `AO`, `EC`, `EL`, `DM`, `EOR`, `xEOF`, `SUSP`, `ABORT`)
call functions that work on the pty and on the terminal settings. They are recorded in
`commands` and do nothing else here.
-/

namespace Netkit.Telnet.Daemon

open Netkit.Foundations

/-! ## The pty output buffer -/

structure PtyBuf where
  ptyobuf : List UInt8
  pbackp : Nat
  pfrontp : Nat
  /-- The bytes that were put into the buffer. -/
  placed : List UInt8
  /-- The bytes that the pty has taken. -/
  written : List UInt8

namespace PtyBuf

def empty : PtyBuf := ⟨List.replicate (BUFSIZ + NETSLOP) 0, 0, 0, [], []⟩

/-- `*pfrontp++ = c`. -/
def put (c : UInt8) (b : PtyBuf) : PtyBuf :=
  { b with
    ptyobuf := b.ptyobuf.set b.pfrontp c
    pfrontp := b.pfrontp + 1
    placed := b.placed ++ [c] }

/-- `ptyflush`, when the pty takes `n` bytes. -/
def flush (n : Nat) (b : PtyBuf) : PtyBuf :=
  let pbackp := b.pbackp + n
  let written := b.written ++ slice b.ptyobuf b.pbackp pbackp
  if pbackp = b.pfrontp then { b with pbackp := 0, pfrontp := 0, written := written }
  else { b with pbackp := pbackp, written := written }

/-- The test at the head of the loop of `telrcv` does not break it. -/
def hasRoom (b : PtyBuf) : Bool := ¬ (BUFSIZ : Int) - b.pfrontp < 2

structure Good (b : PtyBuf) : Prop where
  size : b.ptyobuf.length = BUFSIZ + NETSLOP
  order : b.pbackp ≤ b.pfrontp
  bound : b.pfrontp ≤ BUFSIZ
  bytes : b.written ++ slice b.ptyobuf b.pbackp b.pfrontp = b.placed

theorem empty_good : empty.Good := by
  refine ⟨?_, Nat.le_refl 0, Nat.zero_le _, ?_⟩
  · simp [empty]
  · simp [empty]

theorem put_good {b : PtyBuf} (h : b.Good) (hroom : b.hasRoom = true) (c : UInt8) :
    (b.put c).Good := by
  have hord := h.order
  have hfree : ¬ (BUFSIZ : Int) - b.pfrontp < 2 := of_decide_eq_true hroom
  refine ⟨by simpa [put] using h.size, ?_, ?_, ?_⟩
  · simp only [put]
    omega
  · simp only [put]
    omega
  · simp only [put]
    rw [slice_set_push c hord (by rw [h.size]; omega), ← List.append_assoc, h.bytes]

theorem flush_good {b : PtyBuf} (h : b.Good) {n : Nat} (hn : b.pbackp + n ≤ b.pfrontp) :
    (b.flush n).Good := by
  have hbytes := h.bytes
  rw [slice_split (Nat.le_add_right b.pbackp n) hn, ← List.append_assoc] at hbytes
  unfold flush
  dsimp only
  split
  · rename_i hall
    refine ⟨h.size, Nat.le_refl 0, Nat.zero_le _, ?_⟩
    rw [hall, slice_self, List.append_nil] at hbytes
    simpa [hall] using hbytes
  · exact ⟨h.size, hn, h.bound, hbytes⟩

@[simp] theorem flush_placed (n : Nat) (b : PtyBuf) : (b.flush n).placed = b.placed := by
  unfold flush
  dsimp only
  split <;> rfl

end PtyBuf

/-! ## One byte -/

inductive TelrcvState where
  | data
  | iac
  | cr
  | sb
  | se
  | will
  | wont
  | doo
  | dont
  deriving DecidableEq

structure NetInput where
  state : TelrcvState
  sub : SubBuffer
  options : OptionState
  pty : PtyBuf
  /-- The changes of the environment of the login process, in order. -/
  environ : List EnvCall
  /-- The commands received that are neither data nor negotiation. -/
  commands : List UInt8

namespace NetInput

def initial : NetInput :=
  ⟨.data, ⟨List.replicate subbufferSize 0, 0, 0⟩, .initial, .empty, [], []⟩

/-- The case `TS_DATA`. -/
def receiveData (c : UInt8) (s : NetInput) : NetInput :=
  if c = IAC then { s with state := .iac }
  else if c = 13 ∧ s.options.hisStateIsWill TELOPT_BINARY = false then
    { s with state := .cr, pty := s.pty.put c }
  else { s with state := .data, pty := s.pty.put c }

/-- The case `TS_IAC`. -/
def receiveIac (c : UInt8) (s : NetInput) : NetInput :=
  if c = SB then { s with state := .sb, sub := s.sub.clear }
  else if c = WILL then { s with state := .will }
  else if c = WONT then { s with state := .wont }
  else if c = DO then { s with state := .doo }
  else if c = DONT then { s with state := .dont }
  else if c = IAC then { s with state := .data, pty := s.pty.put c }
  else { s with state := .data, commands := s.commands ++ [c] }

/-- `SB_TERM` and `suboption`, with the byte behind the `IAC` that ended the body. -/
def endSuboption (c : UInt8) (s : NetInput) : NetInput :=
  let result := suboption (s.sub.terminate c)
  { s with sub := result.1, environ := s.environ ++ result.2 }

def receive (s : NetInput) (c : UInt8) : NetInput :=
  match s.state with
  | .cr =>
    -- strip off `\n` or `\0` after a `\r`
    if c = 0 ∨ c = 10 then { s with state := .data } else s.receiveData c
  | .data => s.receiveData c
  | .iac => s.receiveIac c
  | .sb => if c = IAC then { s with state := .se } else { s with sub := s.sub.accum c }
  | .se =>
    if c ≠ SE then
      if c ≠ IAC then
        -- bad form of suboption negotiation: treat the rest as another command
        (s.endSuboption c).receiveIac c
      else { s with state := .sb, sub := s.sub.accum c }
    else { s.endSuboption c with state := .data }
  | .will => { s with state := .data, options := willoption c s.options }
  | .wont => { s with state := .data, options := wontoption c s.options }
  | .doo => { s with state := .data, options := dooption c s.options }
  | .dont => { s with state := .data, options := dontoption c s.options }

end NetInput

/-! ## The call -/

/-- `telrcv` on the `ncc` bytes at `netip`: the bytes that are left, and the new state. -/
def telrcv : List UInt8 → NetInput → List UInt8 × NetInput
  | [], s => ([], s)
  | c :: rest, s => if s.pty.hasRoom then telrcv rest (s.receive c) else (c :: rest, s)

theorem telrcv_eq {input rest : List UInt8} {s t : NetInput} (h : telrcv input s = (rest, t)) :
    ∃ read, input = read ++ rest ∧ t = read.foldl NetInput.receive s := by
  induction input generalizing s with
  | nil =>
    cases h
    exact ⟨[], rfl, rfl⟩
  | cons c input ih =>
    rw [telrcv] at h
    split at h
    · obtain ⟨read, rfl, ht⟩ := ih h
      exact ⟨c :: read, rfl, ht⟩
    · cases h
      exact ⟨[], rfl, rfl⟩

/-- A call stops early only when `ptyobuf` is full. -/
theorem telrcv_stops {input rest : List UInt8} {s t : NetInput}
    (h : telrcv input s = (rest, t)) : rest = [] ∨ t.pty.hasRoom = false := by
  induction input generalizing s with
  | nil =>
    cases h
    exact Or.inl rfl
  | cons c input ih =>
    rw [telrcv] at h
    split at h
    · exact ih h
    · rename_i hroom
      cases h
      exact Or.inr (Bool.eq_false_iff.mpr hroom)

theorem receiveData_good {s : NetInput} (h : s.pty.Good) (hroom : s.pty.hasRoom = true)
    (c : UInt8) : (s.receiveData c).pty.Good := by
  unfold NetInput.receiveData
  split
  · exact h
  · split <;> exact PtyBuf.put_good h hroom c

theorem receiveIac_good {s : NetInput} (h : s.pty.Good) (hroom : s.pty.hasRoom = true)
    (c : UInt8) : (s.receiveIac c).pty.Good := by
  unfold NetInput.receiveIac
  split_ifs
  · exact h
  · exact h
  · exact h
  · exact h
  · exact h
  · exact PtyBuf.put_good h hroom c
  · exact h

/-- A pass puts at most one byte into `ptyobuf`. -/
theorem receive_good {s : NetInput} (h : s.pty.Good) (hroom : s.pty.hasRoom = true)
    (c : UInt8) : (s.receive c).pty.Good := by
  unfold NetInput.receive
  split
  · split
    · exact h
    · exact receiveData_good h hroom c
  · exact receiveData_good h hroom c
  · exact receiveIac_good h hroom c
  · split <;> exact h
  · split
    · split
      · exact receiveIac_good (s := s.endSuboption c) h hroom c
      · exact h
    · exact h
  · exact h
  · exact h
  · exact h
  · exact h

theorem telrcv_good {input rest : List UInt8} {s t : NetInput} (h : s.pty.Good)
    (hrun : telrcv input s = (rest, t)) : t.pty.Good := by
  induction input generalizing s with
  | nil =>
    cases hrun
    exact h
  | cons c input ih =>
    rw [telrcv] at hrun
    split at hrun
    · rename_i hroom
      exact ih (receive_good h hroom c) hrun
    · cases hrun
      exact h

/-! ## Data -/

/-- The state of telnetd's receiver of data, as that of a decoder. -/
structure NetInput.AtData (binary : Bool) (s : NetInput) (st : NvtState) : Prop where
  state : s.state = match st with
    | .data => .data
    | .iac => .iac
    | .cr => .cr
  binary : s.options.hisStateIsWill TELOPT_BINARY = binary

theorem receiveData_atData {s : NetInput} {binary : Bool}
    (hbin : s.options.hisStateIsWill TELOPT_BINARY = binary) (c : UInt8) :
    (s.receiveData c).AtData binary (nvtData binary c).1 ∧
      (s.receiveData c).pty.placed = s.pty.placed ++ (nvtData binary c).2 := by
  unfold NetInput.receiveData nvtData
  rw [hbin]
  split
  · exact ⟨⟨rfl, hbin⟩, (List.append_nil _).symm⟩
  · split
    · exact ⟨⟨rfl, hbin⟩, rfl⟩
    · exact ⟨⟨rfl, hbin⟩, rfl⟩

theorem receive_simulates (binary : Bool) :
    Simulates (nvtStep [0, 10] binary) (NetInput.AtData binary) (fun s => s.pty.placed)
      NetInput.receive := by
  rintro s st c st' x ⟨hstate, hbin⟩ hstep
  have hdata : some (nvtData binary c) = some (st', x) →
      (s.receiveData c).AtData binary st' ∧
        (s.receiveData c).pty.placed = s.pty.placed ++ x := by
    intro h
    have hdata := receiveData_atData hbin c
    rw [Option.some.inj h] at hdata
    exact hdata
  cases st with
  | data =>
    rw [NetInput.receive, hstate]
    exact hdata hstep
  | cr =>
    have hmem : c ∈ [(0 : UInt8), 10] ↔ c = 0 ∨ c = 10 := by simp
    rw [nvtStep] at hstep
    rw [NetInput.receive, hstate]
    dsimp only
    by_cases hdrop : c = 0 ∨ c = 10
    · rw [if_pos (hmem.mpr hdrop)] at hstep
      cases hstep
      rw [if_pos hdrop]
      exact ⟨⟨rfl, hbin⟩, (List.append_nil _).symm⟩
    · rw [if_neg (fun h => hdrop (hmem.mp h))] at hstep
      rw [if_neg hdrop]
      exact hdata hstep
  | iac =>
    rw [nvtStep] at hstep
    split at hstep
    · rename_i hi
      cases hstep
      subst hi
      rw [NetInput.receive, hstate]
      exact ⟨⟨rfl, hbin⟩, rfl⟩
    · cases hstep

/-! ## A suboption -/

theorem telrcv_cons {c : UInt8} {rest : List UInt8} {s : NetInput}
    (hroom : s.pty.hasRoom = true) : telrcv (c :: rest) s = telrcv rest (s.receive c) := by
  rw [telrcv, if_pos hroom]

/-- Each `IAC` doubled. -/
def doubled (body : List UInt8) : List UInt8 :=
  body.flatMap fun c => if c = IAC then [IAC, IAC] else [c]

theorem doubled_append (xs ys : List UInt8) :
    doubled (xs ++ ys) = doubled xs ++ doubled ys := List.flatMap_append

theorem doubled_cons (c : UInt8) (xs : List UInt8) :
    doubled (c :: xs) = (if c = IAC then [IAC, IAC] else [c]) ++ doubled xs := List.flatMap_cons

theorem telrcv_doubled {body front : List UInt8} (rest : List UInt8) {s : NetInput} (hstate : s.state = .sb)
    (hroom : s.pty.hasRoom = true) (h : s.sub.Holds front)
    (hfit : front.length + body.length < subbufferSize) :
    ∃ sub, telrcv (doubled body ++ rest) s = telrcv rest { s with sub := sub } ∧
      sub.Holds (front ++ body) := by
  induction body generalizing s front with
  | nil => exact ⟨s.sub, rfl, by rwa [List.append_nil]⟩
  | cons c body ih =>
    rw [List.length_cons] at hfit
    have hacc := SubBuffer.accum_holds h (by omega) c
    obtain ⟨sub, hsub, hholds⟩ := ih (s := { s with sub := s.sub.accum c }) hstate hroom hacc
      (by rw [List.length_append, List.length_singleton]; omega)
    rw [List.append_assoc, List.singleton_append] at hholds
    refine ⟨sub, ?_, hholds⟩
    rw [← hsub, doubled, List.flatMap_cons, List.append_assoc]
    by_cases hc : c = IAC
    · subst hc
      rw [if_pos rfl, List.cons_append, List.singleton_append, telrcv_cons hroom,
        telrcv_cons (by simpa [NetInput.receive, hstate] using hroom)]
      simp [NetInput.receive, hstate, IAC, SE, doubled]
    · rw [if_neg hc, List.singleton_append, telrcv_cons hroom]
      simp [NetInput.receive, hstate, hc, doubled]

theorem telrcv_sb_end {rest : List UInt8} {s : NetInput} (hstate : s.state = .sb)
    (hroom : s.pty.hasRoom = true) :
    telrcv (IAC :: SE :: rest) s = telrcv rest { s.endSuboption SE with state := .data } := by
  have hse : s.receive IAC = { s with state := .se } := by simp [NetInput.receive, hstate]
  have hdata : (s.receive IAC).receive SE = { s.endSuboption SE with state := .data } := by
    rw [hse]
    simp [NetInput.receive, NetInput.endSuboption]
  rw [telrcv_cons hroom, telrcv_cons (by rw [hse]; exact hroom), hdata]

/-- A whole suboption, from `IAC SB` to `IAC SE`, is handed to `suboption`. -/
theorem telrcv_suboption {body : List UInt8} (rest : List UInt8) {s : NetInput} (hstate : s.state = .data)
    (hroom : s.pty.hasRoom = true) (hsize : s.sub.subbuffer.length = subbufferSize)
    (hfit : body.length + 2 ≤ subbufferSize - 1) :
    ∃ sub : SubBuffer, sub.subbuffer.length = subbufferSize ∧ sub.subpointer = 0 ∧
      sub.subend = body.length ∧ slice sub.subbuffer 0 body.length = body ∧
      telrcv (IAC :: SB :: (doubled body ++ IAC :: SE :: rest)) s =
        telrcv rest { s with
          sub := (suboption sub).1
          environ := s.environ ++ (suboption sub).2 } := by
  have hfit' : ([] : List UInt8).length + body.length < subbufferSize := by
    rw [List.length_nil]
    omega
  obtain ⟨sub, hrun, hholds⟩ := telrcv_doubled (IAC :: SE :: rest)
    (s := { s with state := .sb, sub := s.sub.clear }) rfl hroom (SubBuffer.clear_holds hsize)
    hfit'
  rw [List.nil_append] at hholds
  obtain ⟨h1, h2, h3, h4⟩ := SubBuffer.terminate_spec hholds hfit SE
  refine ⟨sub.terminate SE, h1, h2, h3, h4, ?_⟩
  have hopen : (s.receive IAC).receive SB = { s with state := .sb, sub := s.sub.clear } := by
    simp [NetInput.receive, hstate, NetInput.receiveData, NetInput.receiveIac]
  have hroom' : (s.receive IAC).pty.hasRoom = true := by
    simpa [NetInput.receive, hstate, NetInput.receiveData] using hroom
  rw [telrcv_cons hroom, telrcv_cons hroom', hopen, hrun,
    telrcv_sb_end (s := { s with state := .sb, sub := sub }) rfl hroom]
  simp [NetInput.endSuboption, hstate]

end Netkit.Telnet.Daemon

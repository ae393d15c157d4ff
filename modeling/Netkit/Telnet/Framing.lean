import Netkit.Telnet.Arrivals
import Netkit.Telnet.Daemon.Telrcv

/-!
# Suboptions on the wire

Both programs collect the body of a suboption in a buffer and drop what does not fit. At the end
they put the two bytes `IAC SE` behind it, for diagnostics, through the same test for room, and
take two bytes back, whether there was room for them or not.

* `framing_iff`: the bodies that they hand over whole.
-/

namespace Netkit.Telnet

open Netkit.Foundations Daemon

/-- Where a receiver is, with the bytes of the suboption. -/
inductive Phase where
  | data
  | iac
  | sb (held : List UInt8)
  | se (held : List UInt8)
  | ended

def suboptionWire (body : List UInt8) : List UInt8 :=
  IAC :: SB :: (doubled body ++ [IAC, SE])

/-- What is left of a body when `IAC SE` is put behind it, as far as it fits, and two bytes are
taken back. -/
def takenBack (limit : Nat) (body : List UInt8) : List UInt8 :=
  body.take (min (body.length + 2) limit - 2)

/-- A receiver of suboptions of at most `limit` bytes. -/
structure Collector (σ : Type*) (limit : Nat) where
  step : σ → UInt8 → σ
  /-- The body of the call of `suboption` that a byte brings about. -/
  call : σ → UInt8 → Option (List UInt8)
  At : Phase → σ → Prop
  data_iac : ∀ s, At .data s → At .iac (step s IAC) ∧ call s IAC = none
  iac_sb : ∀ s, At .iac s → At (.sb []) (step s SB) ∧ call s SB = none
  sb_byte : ∀ held c s, At (.sb held) s → c ≠ IAC → held.length < limit →
    At (.sb (held ++ [c])) (step s c) ∧ call s c = none
  sb_iac : ∀ held s, At (.sb held) s → At (.se held) (step s IAC) ∧ call s IAC = none
  se_iac : ∀ held s, At (.se held) s → held.length < limit →
    At (.sb (held ++ [IAC])) (step s IAC) ∧ call s IAC = none
  se_se : ∀ held s, At (.se held) s → held.length ≤ limit →
    At .ended (step s SE) ∧ call s SE = some (takenBack limit held)

variable {σ : Type*} {limit : Nat} {R : Collector σ limit}

/-- The collector has been fed the bytes `fed` from the state `s₀` on, and made the calls. -/
inductive Fed (R : Collector σ limit) (s₀ : σ) : List UInt8 → σ → List (List UInt8) → Prop where
  | start : Fed R s₀ [] s₀ []
  | byte {fed s calls} (c : UInt8) (h : Fed R s₀ fed s calls) :
      Fed R s₀ (fed ++ [c]) (R.step s c) (calls ++ (R.call s c).toList)
  | other {fed s t calls} (h : Fed R s₀ fed s calls) (hsame : ∀ p, R.At p s → R.At p t) :
      Fed R s₀ fed t calls

/-! ## A suboption -/

def Progress (R : Collector σ limit) (body fed : List UInt8) (s : σ)
    (calls : List (List UInt8)) : Prop :=
  (fed = [] ∧ R.At .data s ∧ calls = []) ∨
  (fed = [IAC] ∧ R.At .iac s ∧ calls = []) ∨
  (∃ held rest, body = held ++ rest ∧ fed = IAC :: SB :: doubled held ∧
    R.At (.sb held) s ∧ calls = []) ∨
  (∃ held rest, body = held ++ rest ∧ fed = IAC :: SB :: (doubled held ++ [IAC]) ∧
    R.At (.se held) s ∧ calls = []) ∨
  (fed = suboptionWire body ∧ R.At .ended s ∧ calls = [takenBack limit body])

variable {s₀ s : σ} {body fed : List UInt8} {calls : List (List UInt8)} {c : UInt8}

theorem next_byte {held rest tail : List UInt8}
    (h : IAC :: SB :: (doubled held ++ tail) ++ [c] <+:
      suboptionWire (held ++ rest)) : tail ++ [c] <+: doubled rest ++ [IAC, SE] := by
  rw [suboptionWire, doubled_append, List.append_assoc, List.cons_append, List.cons_append,
    List.append_assoc, List.prefix_cons_inj, List.prefix_cons_inj,
    List.prefix_append_right_inj] at h
  exact h

/-- Behind the first `IAC` of two comes the other one, or behind that of the end `SE`. -/
theorem behind_iac {held rest : List UInt8}
    (h : IAC :: SB :: (doubled held ++ [IAC]) ++ [c] <+: suboptionWire (held ++ rest)) :
    rest = [] ∧ c = SE ∨ ∃ rest', rest = IAC :: rest' ∧ c = IAC := by
  have hc := next_byte h
  cases rest with
  | nil =>
    obtain ⟨-, hc⟩ := List.cons_prefix_cons.mp hc
    obtain ⟨rfl, -⟩ := List.cons_prefix_cons.mp hc
    exact Or.inl ⟨rfl, rfl⟩
  | cons d rest =>
    rw [doubled_cons] at hc
    by_cases hd : d = IAC
    · rw [if_pos hd] at hc
      obtain ⟨-, hc⟩ := List.cons_prefix_cons.mp hc
      obtain ⟨rfl, -⟩ := List.cons_prefix_cons.mp hc
      exact Or.inr ⟨rest, hd ▸ rfl, rfl⟩
    · rw [if_neg hd] at hc
      exact absurd (List.cons_prefix_cons.mp hc).1.symm hd

theorem progress_step (hbody : body.length ≤ limit) (h : Progress R body fed s calls)
    (hnext : fed ++ [c] <+: suboptionWire body) :
    Progress R body (fed ++ [c]) (R.step s c) (calls ++ (R.call s c).toList) := by
  rcases h with ⟨rfl, hat, rfl⟩ | ⟨rfl, hat, rfl⟩ | ⟨held, rest, rfl, rfl, hat, rfl⟩ |
    ⟨held, rest, rfl, rfl, hat, rfl⟩ | ⟨rfl, hat, rfl⟩
  · obtain ⟨rfl, -⟩ := List.cons_prefix_cons.mp hnext
    obtain ⟨hat', hcall⟩ := R.data_iac s hat
    rw [hcall]
    exact Or.inr (Or.inl ⟨rfl, hat', rfl⟩)
  · obtain ⟨-, hnext⟩ := List.cons_prefix_cons.mp hnext
    obtain ⟨rfl, -⟩ := List.cons_prefix_cons.mp hnext
    obtain ⟨hat', hcall⟩ := R.iac_sb s hat
    rw [hcall]
    exact Or.inr (Or.inr (Or.inl ⟨[], body, rfl, rfl, hat', rfl⟩))
  · rw [List.length_append] at hbody
    rw [← List.append_nil (doubled held)] at hnext
    have hc := next_byte hnext
    rw [List.nil_append] at hc
    cases rest with
    | nil =>
      obtain ⟨rfl, -⟩ := List.cons_prefix_cons.mp hc
      obtain ⟨hat', hcall⟩ := R.sb_iac held s hat
      rw [hcall]
      exact Or.inr (Or.inr (Or.inr (Or.inl ⟨held, [], rfl, rfl, hat', rfl⟩)))
    | cons d rest =>
      rw [doubled_cons] at hc
      rw [List.length_cons] at hbody
      by_cases hd : d = IAC
      · rw [if_pos hd] at hc
        obtain ⟨rfl, -⟩ := List.cons_prefix_cons.mp hc
        obtain ⟨hat', hcall⟩ := R.sb_iac held s hat
        rw [hcall]
        exact Or.inr (Or.inr (Or.inr (Or.inl ⟨held, d :: rest, rfl, rfl, hat', rfl⟩)))
      · rw [if_neg hd] at hc
        obtain ⟨rfl, -⟩ := List.cons_prefix_cons.mp hc
        obtain ⟨hat', hcall⟩ := R.sb_byte held c s hat hd (by omega)
        rw [hcall]
        refine Or.inr (Or.inr (Or.inl ⟨held ++ [c], rest, ?_, ?_, hat', rfl⟩))
        · rw [List.append_assoc, List.singleton_append]
        · rw [doubled_append, doubled_cons, if_neg hd]
          rfl
  · rw [List.length_append] at hbody
    rcases behind_iac hnext with ⟨rfl, rfl⟩ | ⟨rest, rfl, rfl⟩
    · obtain ⟨hat', hcall⟩ := R.se_se held s hat (by omega)
      rw [hcall, List.append_nil]
      refine Or.inr (Or.inr (Or.inr (Or.inr ⟨?_, hat', rfl⟩)))
      rw [suboptionWire, List.cons_append, List.cons_append, List.append_assoc]
      rfl
    · rw [List.length_cons] at hbody
      obtain ⟨hat', hcall⟩ := R.se_iac held s hat (by omega)
      rw [hcall]
      refine Or.inr (Or.inr (Or.inl ⟨held ++ [IAC], rest, ?_, ?_, hat', rfl⟩))
      · rw [List.append_assoc, List.singleton_append]
      · rw [doubled_append, List.cons_append, List.cons_append, List.append_assoc]
        rfl
  · have hlength := hnext.length_le
    rw [List.length_append, List.length_singleton] at hlength
    omega

/-- The bytes that come in a phase. -/
inductive Phase.Awaits : Phase → UInt8 → Prop where
  | data : Awaits .data IAC
  | iac : Awaits .iac SB
  | sb (held c) : Awaits (.sb held) c
  | doubled (held) : Awaits (.se held) IAC
  | se (held) : Awaits (.se held) SE

theorem Progress.awaits (h : Progress R body fed s calls)
    (hnext : fed ++ [c] <+: suboptionWire body) : ∃ p : Phase, R.At p s ∧ p.Awaits c := by
  rcases h with ⟨rfl, hat, rfl⟩ | ⟨rfl, hat, rfl⟩ | ⟨held, rest, rfl, rfl, hat, rfl⟩ |
    ⟨held, rest, rfl, rfl, hat, rfl⟩ | ⟨rfl, hat, rfl⟩
  · obtain ⟨rfl, -⟩ := List.cons_prefix_cons.mp hnext
    exact ⟨.data, hat, .data⟩
  · obtain ⟨-, hnext⟩ := List.cons_prefix_cons.mp hnext
    obtain ⟨rfl, -⟩ := List.cons_prefix_cons.mp hnext
    exact ⟨.iac, hat, .iac⟩
  · exact ⟨.sb held, hat, .sb held c⟩
  · refine ⟨.se held, hat, ?_⟩
    rcases behind_iac hnext with ⟨-, rfl⟩ | ⟨-, -, rfl⟩
    · exact .se held
    · exact .doubled held
  · have hlength := hnext.length_le
    rw [List.length_append, List.length_singleton] at hlength
    omega

/-- The induction is on what happens to the receiver. -/
theorem Fed.progress (hbody : body.length ≤ limit) (hstart : R.At .data s₀)
    (h : Fed R s₀ fed s calls) (hfed : fed <+: suboptionWire body) :
    Progress R body fed s calls := by
  induction h with
  | start => exact Or.inl ⟨rfl, hstart, rfl⟩
  | byte c h ih => exact progress_step hbody (ih ((List.prefix_append _ [c]).trans hfed)) hfed
  | other h hsame ih =>
    rcases ih hfed with ⟨hfed, hat, hcalls⟩ | ⟨hfed, hat, hcalls⟩ |
      ⟨held, rest, hsplit, hfed, hat, hcalls⟩ | ⟨held, rest, hsplit, hfed, hat, hcalls⟩ |
      ⟨hfed, hat, hcalls⟩
    · exact Or.inl ⟨hfed, hsame _ hat, hcalls⟩
    · exact Or.inr (Or.inl ⟨hfed, hsame _ hat, hcalls⟩)
    · exact Or.inr (Or.inr (Or.inl ⟨held, rest, hsplit, hfed, hsame _ hat, hcalls⟩))
    · exact Or.inr (Or.inr (Or.inr (Or.inl ⟨held, rest, hsplit, hfed, hsame _ hat, hcalls⟩)))
    · exact Or.inr (Or.inr (Or.inr (Or.inr ⟨hfed, hsame _ hat, hcalls⟩)))

theorem length_doubled_append (xs ys : List UInt8) :
    (doubled (xs ++ ys)).length = (doubled xs).length + (doubled ys).length := by
  rw [doubled_append, List.length_append]

theorem Fed.whole (hbody : body.length ≤ limit) (hstart : R.At .data s₀)
    (h : Fed R s₀ (suboptionWire body) s calls) :
    R.At .ended s ∧ calls = [takenBack limit body] := by
  have hlength : (suboptionWire body).length = (doubled body).length + 4 := by
    rw [suboptionWire, List.length_cons, List.length_cons, List.length_append]
    rfl
  rcases h.progress hbody hstart List.prefix_rfl with ⟨hfed, -⟩ | ⟨hfed, -⟩ |
    ⟨held, rest, rfl, hfed, -⟩ | ⟨held, rest, rfl, hfed, -⟩ | ⟨-, hat, hcalls⟩
  · rw [hfed, List.length_nil] at hlength
    omega
  · rw [hfed, List.length_singleton] at hlength
    omega
  · rw [hfed, length_doubled_append, List.length_cons, List.length_cons] at hlength
    omega
  · rw [hfed, length_doubled_append, List.length_cons, List.length_cons, List.length_append,
      List.length_singleton] at hlength
    omega
  · exact ⟨hat, hcalls⟩

theorem takenBack_eq_iff (hlimit : 2 ≤ limit) (hbody : body.length ≤ limit) :
    takenBack limit body = body ↔ body.length + 2 ≤ limit := by
  rw [takenBack, List.take_eq_self_iff]
  omega

/-! ## telnetd -/

namespace Daemon

/-- What `suboption` finds between `subpointer` and `subend`, if the byte ends a suboption. -/
def calledBody (s : NetInput) (c : UInt8) : Option (List UInt8) :=
  if s.state = .se ∧ c ≠ IAC then
    let b := s.sub.terminate c
    some (slice b.subbuffer b.subpointer b.subend)
  else none

/-- The calls of `suboption` that `telrcv` makes, pass for pass. -/
def telrcvCalls : List UInt8 → NetInput → List (List UInt8)
  | [], _ => []
  | c :: rest, s =>
    if s.pty.hasRoom then (calledBody s c).toList ++ telrcvCalls rest (s.receive c) else []

structure Reading where
  input : NetInput
  /-- What is left in `netibuf`. -/
  unread : List UInt8
  arrived : List UInt8
  calls : List (List UInt8)

/-- Bytes arrive in `netibuf`, the pty takes some bytes, `telrcv` is called. -/
inductive ReadingEvent where
  | netread (bytes : List UInt8)
  | ptyflush (n : Nat)
  | telrcv

def Reading.start (s : NetInput) : Reading := ⟨s, [], [], []⟩

def readingStep (r : Reading) : ReadingEvent → Option Reading
  | .netread bytes => some { r with unread := r.unread ++ bytes, arrived := r.arrived ++ bytes }
  | .ptyflush n =>
    if r.input.pty.pbackp + n ≤ r.input.pty.pfrontp then
      some { r with input := { r.input with pty := r.input.pty.flush n } }
    else none
  | .telrcv =>
    some { r with
      input := (Daemon.telrcv r.unread r.input).2
      unread := (Daemon.telrcv r.unread r.input).1
      calls := r.calls ++ telrcvCalls r.unread r.input }

/-- The whole stream has arrived and `telrcv` has read it. -/
def Reading.Finished (stream : List UInt8) (r : Reading) : Prop :=
  r.arrived = stream ∧ r.unread = []

def subbufferLimit : Nat := subbufferSize - 1

def InPhase : Phase → NetInput → Prop
  | .data, s => s.state = .data ∧ s.sub.subbuffer.length = subbufferSize
  | .iac, s => s.state = .iac ∧ s.sub.subbuffer.length = subbufferSize
  | .sb held, s => s.state = .sb ∧ s.sub.Holds held
  | .se held, s => s.state = .se ∧ s.sub.Holds held
  | .ended, s => s.state = .data

theorem accum_takes {b : SubBuffer} {held : List UInt8} (h : b.Holds held)
    (hfit : held.length ≤ subbufferLimit) (c : UInt8) :
    (b.accum c).Holds ((held ++ [c]).take subbufferLimit) := by
  by_cases hlt : held.length < subbufferSize - 1
  · rw [List.take_of_length_le]
    · exact SubBuffer.accum_holds h hlt c
    · rw [List.length_append, List.length_singleton]
      exact hlt
  · have hfull : ¬ b.subpointer < subbufferSize - 1 := by
      rw [h.pointer]
      exact hlt
    have hlength : held.length = subbufferLimit := Nat.le_antisymm hfit (Nat.le_of_not_lt hlt)
    rw [SubBuffer.accum, if_neg hfull, List.take_left' hlength]
    exact h

theorem terminate_takes {b : SubBuffer} {held : List UInt8} (h : b.Holds held)
    (hfit : held.length ≤ subbufferLimit) (c : UInt8) :
    slice (b.terminate c).subbuffer (b.terminate c).subpointer (b.terminate c).subend =
      takenBack subbufferLimit held := by
  have h1 := accum_takes h hfit IAC
  have h2 := accum_takes h1 (List.length_take_le _ _) c
  have hpointer := h2.pointer
  have hbody := h2.body
  show slice ((b.accum IAC).accum c).subbuffer 0 (((b.accum IAC).accum c).subpointer - 2) = _
  generalize (b.accum IAC).accum c = b' at h2 hpointer hbody
  have hlong : ((held ++ [IAC]).take subbufferLimit ++ [c]).take subbufferLimit =
      (held ++ [IAC, c]).take subbufferLimit := by
    by_cases hlt : held.length < subbufferLimit
    · rw [@List.take_of_length_le _ subbufferLimit (held ++ [IAC])
        (by rw [List.length_append, List.length_singleton]; exact hlt), List.append_assoc]
      rfl
    · have hlength : held.length = subbufferLimit := Nat.le_antisymm hfit (Nat.le_of_not_lt hlt)
      rw [List.take_left' hlength, List.take_left' hlength, List.take_left' hlength]
  rw [hlong] at hpointer hbody
  have hcount : ((held ++ [IAC, c]).take subbufferLimit).length =
      min (held.length + 2) subbufferLimit := by
    rw [List.length_take, List.length_append, Nat.min_comm]
    rfl
  rw [hcount] at hpointer hbody
  have hfront : slice b'.subbuffer 0 (b'.subpointer - 2) =
      (slice b'.subbuffer 0 (min (held.length + 2) subbufferLimit)).take
        (min (held.length + 2) subbufferLimit - 2) := by
    rw [slice, slice, List.drop_zero, List.drop_zero, List.take_take, hpointer,
      Nat.min_eq_left (Nat.sub_le _ 2)]
  rw [hfront, hbody, List.take_take, takenBack, List.take_append_of_le_length]
  · congr 1
    omega
  · omega

theorem receive_se {s : NetInput} (hstate : s.state = .se) :
    s.receive SE = { s.endSuboption SE with state := .data } := by
  have hne : ¬ SE = IAC := by decide
  rw [NetInput.receive, hstate]
  simp only [ne_eq, not_true_eq_false, if_false]

def telnetdCollector : Collector NetInput subbufferLimit where
  step := NetInput.receive
  call := calledBody
  At := InPhase
  data_iac := by
    rintro s ⟨hstate, hsize⟩
    refine ⟨?_, if_neg (fun h => by rw [hstate] at h; cases h.1)⟩
    rw [NetInput.receive, hstate]
    exact ⟨rfl, hsize⟩
  iac_sb := by
    rintro s ⟨hstate, hsize⟩
    refine ⟨?_, if_neg (fun h => by rw [hstate] at h; cases h.1)⟩
    rw [NetInput.receive, hstate]
    exact ⟨rfl, SubBuffer.clear_holds hsize⟩
  sb_byte := by
    rintro held c s ⟨hstate, hholds⟩ hc hlength
    refine ⟨?_, if_neg (fun h => by rw [hstate] at h; cases h.1)⟩
    rw [NetInput.receive, hstate]
    dsimp only
    rw [if_neg hc]
    exact ⟨rfl, SubBuffer.accum_holds hholds hlength c⟩
  sb_iac := by
    rintro held s ⟨hstate, hholds⟩
    refine ⟨?_, if_neg (fun h => by rw [hstate] at h; cases h.1)⟩
    rw [NetInput.receive, hstate]
    dsimp only
    rw [if_pos rfl]
    exact ⟨rfl, hholds⟩
  se_iac := by
    rintro held s ⟨hstate, hholds⟩ hlength
    refine ⟨?_, if_neg (fun h => h.2 rfl)⟩
    rw [NetInput.receive, hstate]
    dsimp only
    rw [if_pos (by decide), if_neg (not_not_intro rfl)]
    exact ⟨rfl, SubBuffer.accum_holds hholds hlength IAC⟩
  se_se := by
    rintro held s ⟨hstate, hholds⟩ hlength
    refine ⟨?_, ?_⟩
    · rw [receive_se hstate]
      exact rfl
    · rw [calledBody, if_pos ⟨hstate, by decide⟩]
      exact congrArg some (terminate_takes hholds hlength SE)

/-- `telrcv` feeds the receiver with what it reads. -/
theorem telrcv_fed {s₀ s : NetInput} {fed input : List UInt8} {calls : List (List UInt8)}
    (h : Fed telnetdCollector s₀ fed s calls) :
    ∃ read, input = read ++ (telrcv input s).1 ∧
      Fed telnetdCollector s₀ (fed ++ read) (telrcv input s).2
        (calls ++ telrcvCalls input s) := by
  induction input generalizing s fed calls with
  | nil =>
    refine ⟨[], rfl, ?_⟩
    rw [List.append_nil, telrcvCalls, List.append_nil]
    exact h
  | cons c input ih =>
    rw [telrcv, telrcvCalls]
    by_cases hroom : s.pty.hasRoom = true
    · rw [if_pos hroom, if_pos hroom]
      obtain ⟨read, hread, hfed⟩ := ih (h.byte c)
      refine ⟨c :: read, congrArg (c :: ·) hread, ?_⟩
      rw [List.append_assoc, List.append_assoc] at hfed
      exact hfed
    · rw [if_neg hroom, if_neg hroom]
      refine ⟨[], rfl, ?_⟩
      rw [List.append_nil, List.append_nil]
      exact h

theorem reading_fed {s₀ : NetInput} {es : List ReadingEvent} {r : Reading}
    (hrun : run readingStep (.start s₀) es = some r) :
    ∃ fed, r.arrived = fed ++ r.unread ∧ Fed telnetdCollector s₀ fed r.input r.calls := by
  refine run_invariant (I := fun r => ∃ fed, r.arrived = fed ++ r.unread ∧
    Fed telnetdCollector s₀ fed r.input r.calls) ?_ ⟨[], rfl, .start⟩ hrun
  rintro r e r' ⟨fed, harrived, h⟩ hstep
  cases e with
  | netread bytes =>
    cases hstep
    refine ⟨fed, ?_, h⟩
    show r.arrived ++ bytes = fed ++ (r.unread ++ bytes)
    rw [harrived, List.append_assoc]
  | ptyflush n =>
    rw [readingStep] at hstep
    split at hstep
    · cases hstep
      refine ⟨fed, harrived, h.other fun p hp => ?_⟩
      cases p with
      | data => exact hp
      | iac => exact hp
      | sb held => exact hp
      | se held => exact hp
      | ended => exact hp
    · cases hstep
  | telrcv =>
    cases hstep
    obtain ⟨read, hread, hfed⟩ := @telrcv_fed _ _ _ r.unread _ h
    refine ⟨fed ++ read, ?_, hfed⟩
    show r.arrived = fed ++ read ++ (Daemon.telrcv r.unread r.input).1
    rw [List.append_assoc, ← hread]
    exact harrived

end Daemon

/-! ## The client -/

namespace Client

open NetInput

/-- The body up to `subpointer`, if the byte ends a suboption. -/
def calledBody (s : NetInput) (c : UInt8) : Option (List UInt8) :=
  if s.telrcvState = .se ∧ c ≠ IAC then
    some ((s.accum IAC).accum c).subbuffer.dropLast.dropLast
  else none

/-- The calls of `suboption` that the loop makes, pass for pass as in `telrcvLoop`. -/
def telrcvCalls (hooks : RecvHooks) : Nat → NetInput → List (List UInt8)
  | 0, _ => []
  | fuel + 1, s =>
    if s.ttyoring.emptyCount > 2 then
      match s.netiring.getch with
      | none => []
      | some (_, c, r) =>
        (calledBody { s with netiring := r } c).toList ++
          telrcvCalls hooks fuel ({ s with netiring := r }.receive hooks c)
    else []

/-- A receiver with the calls of `suboption` so far. -/
structure Collecting where
  receiver : Receiver
  calls : List (List UInt8)

def Collecting.start (s : NetInput) : Collecting := ⟨.start s, []⟩

def callsOf (hooks : RecvHooks) (s : NetInput) : ReceiverEvent → List (List UInt8)
  | .telrcv => telrcvCalls hooks (s.netiring.count.toNat + 1) s
  | .netread _ => []
  | .ttytake _ => []

def collectingStep (hooks : RecvHooks) (r : Collecting) (e : ReceiverEvent) : Option Collecting :=
  (receiverStep hooks r.receiver e).map fun receiver =>
    ⟨receiver, r.calls ++ callsOf hooks r.receiver.input e⟩

def InPhase : Phase → NetInput → Prop
  | .data, s => s.telrcvState = .data
  | .iac, s => s.telrcvState = .iac
  | .sb held, s => s.telrcvState = .sb ∧ s.subbuffer = held
  | .se held, s => s.telrcvState = .se ∧ s.subbuffer = held
  | .ended, s => s.telrcvState = .data

theorem accum_takes {s : NetInput} (hfit : s.subbuffer.length ≤ SUBBUFSIZE) (c : UInt8) :
    (s.accum c).subbuffer = (s.subbuffer ++ [c]).take SUBBUFSIZE := by
  rw [accum]
  by_cases hlt : s.subbuffer.length < SUBBUFSIZE
  · rw [if_pos hlt, List.take_of_length_le]
    rw [List.length_append, List.length_singleton]
    exact hlt
  · rw [if_neg hlt, List.take_left' (Nat.le_antisymm hfit (Nat.le_of_not_lt hlt))]

theorem accum_frame (c : UInt8) (s : NetInput) :
    (s.accum c).telrcvState = s.telrcvState ∧ (s.accum c).netiring = s.netiring := by
  rw [accum]
  split
  · exact ⟨rfl, rfl⟩
  · exact ⟨rfl, rfl⟩

theorem endSuboption_takes {s : NetInput} (hfit : s.subbuffer.length ≤ SUBBUFSIZE) (c : UInt8) :
    ((s.accum IAC).accum c).subbuffer.dropLast.dropLast = takenBack SUBBUFSIZE s.subbuffer := by
  have h1 := accum_takes hfit IAC
  have hlength : (s.accum IAC).subbuffer.length ≤ SUBBUFSIZE := by
    rw [h1]
    exact List.length_take_le _ _
  have h2 := accum_takes hlength c
  have hlong : ((s.accum IAC).accum c).subbuffer = (s.subbuffer ++ [IAC, c]).take SUBBUFSIZE := by
    rw [h2, h1]
    by_cases hlt : s.subbuffer.length < SUBBUFSIZE
    · rw [@List.take_of_length_le _ SUBBUFSIZE (s.subbuffer ++ [IAC])
        (by rw [List.length_append, List.length_singleton]; exact hlt), List.append_assoc]
      rfl
    · have heq : s.subbuffer.length = SUBBUFSIZE :=
        Nat.le_antisymm hfit (Nat.le_of_not_lt hlt)
      rw [List.take_left' heq, List.take_left' heq, List.take_left' heq]
  rw [hlong, List.dropLast_eq_take, List.dropLast_eq_take, takenBack]
  simp only [List.length_take, List.length_append, List.length_cons, List.length_nil,
    List.take_take]
  rw [List.take_append_of_le_length]
  · congr 1
    omega
  · omega

def clientCollector (hooks : RecvHooks) : Collector NetInput SUBBUFSIZE where
  step s c := s.receive hooks c
  call := calledBody
  At := InPhase
  data_iac := by
    intro s hstate
    have hstate : s.telrcvState = .data := hstate
    refine ⟨?_, if_neg (fun h => by rw [hstate] at h; cases h.1)⟩
    rw [NetInput.receive, hstate]
    dsimp only
    rw [Client.NetInput.receiveData, if_pos rfl]
    exact rfl
  iac_sb := by
    intro s hstate
    have hstate : s.telrcvState = .iac := hstate
    refine ⟨?_, if_neg (fun h => by rw [hstate] at h; cases h.1)⟩
    rw [NetInput.receive, hstate]
    exact ⟨rfl, rfl⟩
  sb_byte := by
    rintro held c s ⟨hstate, rfl⟩ hc hlength
    refine ⟨?_, if_neg (fun h => by rw [hstate] at h; cases h.1)⟩
    rw [NetInput.receive, hstate]
    dsimp only
    rw [if_neg hc, accum, if_pos hlength]
    exact ⟨hstate, rfl⟩
  sb_iac := by
    rintro held s ⟨hstate, rfl⟩
    refine ⟨?_, if_neg (fun h => by rw [hstate] at h; cases h.1)⟩
    rw [NetInput.receive, hstate]
    dsimp only
    rw [if_pos rfl]
    exact ⟨rfl, rfl⟩
  se_iac := by
    rintro held s ⟨hstate, rfl⟩ hlength
    refine ⟨?_, if_neg (fun h => h.2 rfl)⟩
    rw [NetInput.receive, hstate]
    dsimp only
    rw [if_pos (by decide), if_neg (not_not_intro rfl), accum, if_pos hlength]
    exact ⟨rfl, rfl⟩
  se_se := by
    rintro held s ⟨hstate, rfl⟩ hlength
    refine ⟨?_, ?_⟩
    · rw [NetInput.receive, hstate]
      dsimp only
      rw [if_neg (not_not_intro rfl)]
      exact rfl
    · rw [calledBody, if_pos ⟨hstate, by decide⟩]
      exact congrArg some (endSuboption_takes hlength SE)

theorem receive_netiring {hooks : RecvHooks}
    (hnet : ∀ body s, (hooks.suboption body s).netiring = s.netiring) {p : Phase} {s : NetInput}
    {c : UInt8} (hat : InPhase p s) (hc : p.Awaits c) :
    (s.receive hooks c).netiring = s.netiring := by
  cases hc with
  | data =>
    have hstate : s.telrcvState = .data := hat
    rw [NetInput.receive, hstate]
    dsimp only
    rw [Client.NetInput.receiveData, if_pos rfl]
  | iac =>
    have hstate : s.telrcvState = .iac := hat
    rw [NetInput.receive, hstate]
    rfl
  | sb held c =>
    rw [NetInput.receive, hat.1]
    dsimp only
    split
    · rfl
    · exact (accum_frame c s).2
  | doubled held =>
    rw [NetInput.receive, hat.1]
    dsimp only
    rw [if_pos (by decide), if_neg (not_not_intro rfl)]
    exact (accum_frame IAC s).2
  | se held =>
    rw [NetInput.receive, hat.1]
    dsimp only
    rw [if_neg (not_not_intro rfl)]
    show (Client.NetInput.endSuboption hooks SE s).netiring = _
    rw [Client.NetInput.endSuboption, hnet, (accum_frame SE _).2, (accum_frame IAC s).2]

variable {hooks : RecvHooks} {s₀ s : NetInput} {payload : List UInt8}

/-- What has been read of a stream, and what is still in `netiring`. -/
def Collected (hooks : RecvHooks) (s₀ : NetInput) (arrived : List UInt8) (s : NetInput)
    (calls : List (List UInt8)) : Prop :=
  ∃ fed, arrived = fed ++ s.netiring.contents ∧ Fed (clientCollector hooks) s₀ fed s calls

theorem inPhase_rings {s : NetInput} (net tty : Ringbuf) (p : Phase) (h : InPhase p s) :
    InPhase p { s with netiring := net, ttyoring := tty } := by
  cases p with
  | data => exact h
  | iac => exact h
  | sb held => exact h
  | se held => exact h
  | ended => exact h

/-- The induction is on the passes that are left. -/
theorem telrcvLoop_collected (hnet : ∀ body s, (hooks.suboption body s).netiring = s.netiring)
    (hstart : s₀.telrcvState = .data) (hbody : payload.length ≤ SUBBUFSIZE)
    {arrived : List UInt8} (harrived : arrived <+: suboptionWire payload) (fuel : Nat)
    {calls : List (List UInt8)} (hI : s.netiring.Inv)
    (h : Collected hooks s₀ arrived s calls) :
    (telrcvLoop hooks fuel s).netiring.Inv ∧
      (telrcvLoop hooks fuel s).netiring.size = s.netiring.size ∧
      (telrcvLoop hooks fuel s).netiring.contents.length ≤ s.netiring.contents.length ∧
      Collected hooks s₀ arrived (telrcvLoop hooks fuel s)
        (calls ++ telrcvCalls hooks fuel s) := by
  have hstop : ∀ x, x = [] → Collected hooks s₀ arrived s (calls ++ x) := by
    rintro x rfl
    rw [List.append_nil]
    exact h
  induction fuel generalizing s calls with
  | zero => exact ⟨hI, rfl, Nat.le_refl _, hstop _ rfl⟩
  | succ fuel ih =>
    rw [telrcvLoop, telrcvCalls]
    by_cases hroom : s.ttyoring.emptyCount > 2
    · rw [if_pos hroom, if_pos hroom]
      cases hg : s.netiring.getch with
      | none => exact ⟨hI, rfl, Nat.le_refl _, hstop _ rfl⟩
      | some y =>
        obtain ⟨rv, c, r⟩ := y
        obtain ⟨hI', hc⟩ := Ringbuf.getch_spec hI hg
        obtain ⟨-, -, -, hsize, -⟩ := Ringbuf.getch_eq_some hg
        obtain ⟨fed, hfed, hfeeds⟩ := h
        have htaken : Fed (clientCollector hooks) s₀ fed { s with netiring := r } calls :=
          hfeeds.other (inPhase_rings r s.ttyoring)
        have hsplit : arrived = fed ++ [c] ++ r.contents := by
          rw [hfed, hc, List.append_assoc, List.singleton_append]
        have hnext : fed ++ [c] <+: suboptionWire payload :=
          (List.prefix_append _ _).trans (hsplit ▸ harrived)
        have hprogress := htaken.progress hbody hstart ((List.prefix_append _ _).trans hnext)
        obtain ⟨p, hat, hawaits⟩ := hprogress.awaits hnext
        have hring : ({ s with netiring := r }.receive hooks c).netiring = r :=
          receive_netiring hnet hat hawaits
        have hcollected : Collected hooks s₀ arrived ({ s with netiring := r }.receive hooks c)
            (calls ++ (calledBody { s with netiring := r } c).toList) := by
          refine ⟨fed ++ [c], ?_, htaken.byte c⟩
          rw [hring]
          exact hsplit
        obtain ⟨hI'', hsize'', hlength'', hfinal⟩ := ih (hring.symm ▸ hI') hcollected
          (fun x hx => by rw [hx, List.append_nil]; exact hcollected)
        rw [hring] at hsize'' hlength''
        refine ⟨hI'', hsize''.trans hsize, ?_, ?_⟩
        · rw [hc, List.length_cons]
          exact Nat.le_succ_of_le hlength''
        · rw [← List.append_assoc]
          exact hfinal
    · rw [if_neg hroom, if_neg hroom]
      exact ⟨hI, rfl, Nat.le_refl _, hstop _ rfl⟩

/-- What holds as long as nothing but the suboption arrives. -/
structure Collecting.Inv (hooks : RecvHooks) (s₀ : NetInput) (r : Collecting) : Prop where
  net : r.receiver.input.netiring.Inv
  slot : r.receiver.input.netiring.count + 1 ≤ r.receiver.input.netiring.size
  collected : Collected hooks s₀ r.receiver.arrived r.receiver.input r.calls

theorem collecting_inv_step (hnet : ∀ body s, (hooks.suboption body s).netiring = s.netiring)
    (hstart : s₀.telrcvState = .data) (hbody : payload.length ≤ SUBBUFSIZE)
    {r r' : Collecting} {e : ReceiverEvent}
    (h : r.receiver.arrived <+: suboptionWire payload → r.Inv hooks s₀)
    (hstep : collectingStep hooks r e = some r') :
    r'.receiver.arrived <+: suboptionWire payload → r'.Inv hooks s₀ := by
  intro harrived
  obtain ⟨receiver, hreceiver, rfl⟩ := Option.map_eq_some_iff.mp hstep
  cases e with
  | netread bytes =>
    rw [receiverStep] at hreceiver
    split at hreceiver
    · rename_i hroom
      cases hreceiver
      obtain ⟨hI, hslot, fed, hfed, hfeeds⟩ := h ((List.prefix_append _ _).trans harrived)
      obtain ⟨hI', hc, hsize, hslot'⟩ := Ringbuf.readSource_spec hI hslot hroom
      refine ⟨hI', ?_, fed, ?_, ?_⟩
      · dsimp only
        rw [hsize]
        exact hslot'
      · dsimp only
        rw [hc, hfed, List.append_assoc]
      · rw [callsOf, List.append_nil]
        exact hfeeds.other (inPhase_rings _ _)
    · cases hreceiver
  | telrcv =>
    cases hreceiver
    obtain ⟨hI, hslot, hcollected⟩ := h harrived
    obtain ⟨hI', hsize, hlength, hcollected'⟩ := telrcvLoop_collected hnet hstart hbody harrived
      (r.receiver.input.netiring.count.toNat + 1) hI hcollected
    refine ⟨hI', ?_, hcollected'⟩
    have hcount := Ringbuf.contents_length hI
    have hcount' := Ringbuf.contents_length hI'
    show (telrcvLoop hooks _ _).netiring.count + 1 ≤ (telrcvLoop hooks _ _).netiring.size
    rw [hsize]
    omega
  | ttytake n =>
    rw [receiverStep] at hreceiver
    split at hreceiver
    · cases hreceiver
      obtain ⟨hI, hslot, fed, hfed, hfeeds⟩ := h harrived
      refine ⟨hI, hslot, fed, hfed, ?_⟩
      rw [callsOf, List.append_nil]
      exact hfeeds.other (inPhase_rings _ _)
    · cases hreceiver

theorem collecting_fed (hnet : ∀ body s, (hooks.suboption body s).netiring = s.netiring)
    (hs : Idle s₀) (hstart : s₀.telrcvState = .data) (hbody : payload.length ≤ SUBBUFSIZE)
    {es : List ReceiverEvent} {r : Collecting}
    (hrun : run (collectingStep hooks) (.start s₀) es = some r)
    (hr : r.receiver.Finished (suboptionWire payload)) :
    Fed (clientCollector hooks) s₀ (suboptionWire payload) r.receiver.input r.calls := by
  have hlength := Ringbuf.contents_length hs.net.inv
  have hsize := hs.net.size
  rw [hs.net.contents, List.length_nil] at hlength
  have hinv : (Collecting.start s₀).Inv hooks s₀ := by
    refine ⟨hs.net.inv, ?_, [], ?_, .start⟩
    · show s₀.netiring.count + 1 ≤ s₀.netiring.size
      omega
    · show [] = [] ++ s₀.netiring.contents
      rw [hs.net.contents]
      rfl
  have hinv := run_invariant (fun _ _ _ h hstep => collecting_inv_step hnet hstart hbody h hstep)
    (fun _ => hinv) hrun
  obtain ⟨-, -, fed, hfed, hfeeds⟩ := hinv (hr.1 ▸ List.prefix_rfl)
  rw [hr.1, hr.2, List.append_nil] at hfed
  rw [hfed]
  exact hfeeds

end Client

/-! ## The bodies that are handed over whole -/

/-- Both programs hand over a body whole, in every run that reads all of the suboption, exactly
when there is room for two bytes more. -/
theorem framing_iff {hooks : Client.RecvHooks}
    (hnet : ∀ body s, (hooks.suboption body s).netiring = s.netiring) (payload : List UInt8) :
    (payload.length ≤ subbufferLimit → ∀ s es r, s.state = .data →
      s.sub.subbuffer.length = subbufferSize → run readingStep (.start s) es = some r →
      r.Finished (suboptionWire payload) →
        (r.calls = [payload] ∧ r.input.state = .data ↔ payload.length + 2 ≤ subbufferLimit)) ∧
    (payload.length ≤ Client.SUBBUFSIZE → ∀ s es r, s.telrcvState = .data → Client.Idle s →
      run (Client.collectingStep hooks) (.start s) es = some r →
      r.receiver.Finished (suboptionWire payload) →
        (r.calls = [payload] ∧ r.receiver.input.telrcvState = .data ↔
          payload.length + 2 ≤ Client.SUBBUFSIZE)) := by
  constructor
  · intro hbody s es r hstate hsize hrun hr
    obtain ⟨fed, hfed, hfeeds⟩ := reading_fed hrun
    rw [hr.1, hr.2, List.append_nil] at hfed
    subst hfed
    have hstart : InPhase .data s := ⟨hstate, hsize⟩
    obtain ⟨hat, hcalls⟩ := hfeeds.whole hbody hstart
    have hdata : r.input.state = .data := hat
    rw [hcalls, ← takenBack_eq_iff (by decide) hbody]
    exact ⟨fun h => List.singleton_inj.mp h.1, fun h => ⟨congrArg ([·]) h, hdata⟩⟩
  · intro hbody s es r hstate hs hrun hr
    obtain ⟨hat, hcalls⟩ :=
      (Client.collecting_fed hnet hs hstate hbody hrun hr).whole hbody hstate
    have hdata : r.receiver.input.telrcvState = .data := hat
    rw [hcalls, ← takenBack_eq_iff (by decide) hbody]
    exact ⟨fun h => List.singleton_inj.mp h.1, fun h => ⟨congrArg ([·]) h, hdata⟩⟩

/-- A short body, in three reads. -/
theorem framing_short :
    (∃ r, run readingStep (.start .initial)
        [.netread [255, 250, 1, 255], .telrcv, .netread [255, 2], .netread [255, 240],
          .telrcv] = some r ∧
      r.calls = [[1, 255, 2]] ∧ r.input.state = .data) ∧
    ∃ r, run (Client.collectingStep Client.plainHooks) (.start Client.freshClient)
        [.netread [255, 250, 1, 255], .telrcv, .netread [255, 2], .telrcv, .netread [255],
          .netread [240], .telrcv] = some r ∧
      r.calls = [[1, 255, 2]] ∧ r.receiver.input.telrcvState = .data := by
  obtain ⟨hdaemon, hclient⟩ := @framing_iff Client.plainHooks (fun _ _ => rfl) [1, 255, 2]
  have hdaemonRun : (run readingStep (.start .initial)
      [.netread [255, 250, 1, 255], .telrcv, .netread [255, 2], .netread [255, 240],
        .telrcv]).map (fun r => (r.arrived, r.unread)) =
      some (suboptionWire [1, 255, 2], []) := by decide +kernel
  have hclientRun : (run (Client.collectingStep Client.plainHooks) (.start Client.freshClient)
      [.netread [255, 250, 1, 255], .telrcv, .netread [255, 2], .telrcv, .netread [255],
        .netread [240], .telrcv]).map
        (fun r => (r.receiver.arrived, r.receiver.input.netiring.contents)) =
      some (suboptionWire [1, 255, 2], []) := by decide +kernel
  obtain ⟨r, hrun, hr⟩ := Option.map_eq_some_iff.mp hdaemonRun
  obtain ⟨r', hrun', hr'⟩ := Option.map_eq_some_iff.mp hclientRun
  obtain ⟨harrived, hunread⟩ := Prod.mk.inj hr
  obtain ⟨harrived', hunread'⟩ := Prod.mk.inj hr'
  refine ⟨⟨r, hrun, ?_⟩, ⟨r', hrun', ?_⟩⟩
  · exact (hdaemon (by decide) _ _ r rfl List.length_replicate hrun ⟨harrived, hunread⟩).mpr (by decide)
  · exact (hclient (by decide) _ _ r' rfl Client.freshClient_idle hrun'
      ⟨harrived', hunread'⟩).mpr (by decide)

/-- Of a body of 510 bytes telnetd hands over 509. -/
theorem framing_truncated : ¬ ∀ payload : List UInt8, payload.length ≤ subbufferLimit →
    ∀ es r, run readingStep (.start .initial) es = some r →
      r.Finished (suboptionWire payload) → r.calls = [payload] := by
  intro h
  have hread : (run readingStep (.start .initial)
      [.netread (suboptionWire (List.replicate 510 1)), .telrcv]).map
        (fun r => (r.arrived, r.unread)) =
      some (suboptionWire (List.replicate 510 1), []) := by decide +kernel
  obtain ⟨r, hrun, hr⟩ := Option.map_eq_some_iff.mp hread
  obtain ⟨harrived, hunread⟩ := Prod.mk.inj hr
  have hcalls := h (List.replicate 510 1) (by rw [List.length_replicate]; decide) _ r hrun
    ⟨harrived, hunread⟩
  obtain ⟨fed, hfed, hfeeds⟩ := reading_fed hrun
  rw [harrived, hunread, List.append_nil] at hfed
  subst hfed
  have hstart : InPhase .data NetInput.initial := ⟨rfl, List.length_replicate⟩
  obtain ⟨-, hcalls'⟩ := hfeeds.whole (by rw [List.length_replicate]; decide) hstart
  rw [hcalls] at hcalls'
  have htaken := congrArg List.length (List.singleton_inj.mp hcalls')
  rw [takenBack, List.length_take, List.length_replicate] at htaken
  exact absurd htaken (by decide)

end Netkit.Telnet

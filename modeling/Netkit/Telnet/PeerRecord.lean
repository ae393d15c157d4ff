import Netkit.Foundations.Runs
import Netkit.Telnet.Daemon.Options

/-!
# telnetd's record of its peer

After every command of the peer, telnetd should end with `my_state = new_state`: the record
`his_state_is_will(option)` is the last word of the peer about the option. `willoption`,
`dooption` and `dontoption` end with that assignment. `wontoption` does not, so the record
can only ever go from WONT to WILL.

* `follows_iff`: the record follows the peer along a run exactly when no WONT arrives for an
  option that is recorded as WILL.
-/

namespace Netkit.Telnet.Daemon

open Netkit.Foundations OptionState

/-! ## Runs of telnetd's option machine -/

inductive OptionEvent where
  | received (m : Msg)
  | sendDo (option : UInt8)
  | sendDont (option : UInt8)
  | sendWill (option : UInt8)
  | sendWont (option : UInt8)
  deriving DecidableEq

def OptionEvent.apply (s : OptionState) : OptionEvent → OptionState
  | .received m => receive m s
  | .sendDo option => Daemon.sendDo option true s
  | .sendDont option => Daemon.sendDont option true s
  | .sendWill option => Daemon.sendWill option true s
  | .sendWont option => Daemon.sendWont option true s

def optionStep (s : OptionState) (e : OptionEvent) : Option OptionState :=
  if s.exited then none else some (e.apply s)

/-! ## The record of one option -/

theorem request_state {new want : Bool} {n m : Negotiation}
    (h : n.request new want = some m) : m.state = n.state := by
  unfold Negotiation.request at h
  split at h
  · cases h
  · cases h; rfl

/-- An update of one record that keeps the bit `MY_STATE_DO` keeps it for all options. -/
theorem modDo_hisStateIsWill {c : UInt8} {f : Negotiation → Negotiation} {s : OptionState}
    (hf : (f (s.options.doDont c)).state = (s.options.doDont c).state) (option : UInt8) :
    (s.modDo c f).hisStateIsWill option = s.hisStateIsWill option := by
  by_cases h : option = c
  · subst h
    simpa [hisStateIsWill] using hf
  · simp [hisStateIsWill, Options.modDo_doDont_ne _ _ _ _ h]

@[simp] theorem sendDo_hisStateIsWill (c : UInt8) (init : Bool) (s : OptionState)
    (option : UInt8) : (sendDo c init s).hisStateIsWill option = s.hisStateIsWill option := by
  unfold sendDo
  split
  · split
    · rfl
    · rename_i n hn
      exact modDo_hisStateIsWill (f := fun _ => n) (request_state hn) option
  · rfl

@[simp] theorem sendDont_hisStateIsWill (c : UInt8) (init : Bool) (s : OptionState)
    (option : UInt8) : (sendDont c init s).hisStateIsWill option = s.hisStateIsWill option := by
  unfold sendDont
  split
  · split
    · rfl
    · rename_i n hn
      exact modDo_hisStateIsWill (f := fun _ => n) (request_state hn) option
  · rfl

theorem sendWillWont_doDont (new : Bool) (verb : Verb) (c : UInt8) (init : Bool)
    (s : OptionState) : (sendWillWont new verb c init s).options.doDont = s.options.doDont := by
  unfold sendWillWont
  split
  · split <;> simp
  · rfl

theorem dooption_doDont (c : UInt8) (s : OptionState) :
    (dooption c s).options.doDont = s.options.doDont := by
  unfold dooption
  simp only [sendWill, sendWont]
  split
  · split
    · simp [sendWillWont_doDont]
    · split
      · simp [sendWillWont_doDont]
      · split <;> split <;> simp [sendWillWont_doDont]
  · simp

theorem dontoption_doDont (c : UInt8) (s : OptionState) :
    (dontoption c s).options.doDont = s.options.doDont := by
  unfold dontoption
  simp only [sendWill, sendWont]
  split
  · split <;> split <;> (try split) <;> simp [sendWillWont_doDont]
  · simp

theorem wontoption_hisStateIsWill (c : UInt8) (s : OptionState) (option : UInt8) :
    (wontoption c s).hisStateIsWill option = s.hisStateIsWill option := by
  have hans : (s.modDo c (·.answered false)).hisStateIsWill option = s.hisStateIsWill option :=
    modDo_hisStateIsWill (Negotiation.answered_state _ _) option
  have hwant : ∀ (d : UInt8) (t : OptionState),
      (t.modDo d ({ · with wantState := false })).hisStateIsWill option =
        t.hisStateIsWill option := fun d t => modDo_hisStateIsWill rfl option
  have h42 : ∀ (t : OptionState) (b : Bool),
      OptionState.hisStateIsWill { t with not42 := b } option = t.hisStateIsWill option :=
    fun _ _ => rfl
  unfold wontoption
  dsimp only
  split
  · split
    · rw [hwant, hans]
    · split <;> split <;> simp only [sendDont_hisStateIsWill, hwant, h42, hans]
  · exact hans

theorem willoption_hisStateIsWill (c : UInt8) (s : OptionState) {option : UInt8}
    (htm : option ≠ TELOPT_TM) :
    (willoption c s).hisStateIsWill option = (c == option || s.hisStateIsWill option) := by
  have hset : ∀ t : OptionState, (t.modDo c ({ · with state := true })).hisStateIsWill option =
      (c == option || t.hisStateIsWill option) := by
    intro t
    by_cases h : c = option
    · simp [h, hisStateIsWill]
    · simp [hisStateIsWill, Options.modDo_doDont_ne _ _ _ _ (Ne.symm h), h]
  have hans : (s.modDo c (·.answered true)).hisStateIsWill option = s.hisStateIsWill option :=
    modDo_hisStateIsWill (Negotiation.answered_state _ _) option
  have hresp : ∀ t : OptionState,
      (t.modDo c fun n => { n with resp := n.resp + 1 }).hisStateIsWill option =
        t.hisStateIsWill option := fun t => modDo_hisStateIsWill rfl option
  have hwant : ∀ t : OptionState,
      (t.modDo c ({ · with wantState := true })).hisStateIsWill option =
        t.hisStateIsWill option := fun t => modDo_hisStateIsWill rfl option
  have h42 : ∀ (t : OptionState) (b : Bool),
      OptionState.hisStateIsWill { t with not42 := b } option = t.hisStateIsWill option :=
    fun _ _ => rfl
  unfold willoption
  dsimp only
  split
  · split
    · split
      · rename_i hc
        have hne : (c == option) = false := by
          rw [beq_eq_false_iff_ne]
          exact fun e => htm (e.symm.trans hc)
        rw [hans, hne, Bool.false_or]
      · split <;> split <;>
          simp only [hset, sendDo_hisStateIsWill, sendDont_hisStateIsWill, hresp, hwant, h42, hans]
    · split <;> simp only [hset, sendDont_hisStateIsWill, h42, hans]
  · simp only [hset, hans]

theorem step_hisStateIsWill {option : UInt8} (htm : option ≠ TELOPT_TM) {s t : OptionState}
    {e : OptionEvent} (h : optionStep s e = some t) :
    t.hisStateIsWill option =
      (decide (e = .received ⟨.will, option⟩) || s.hisStateIsWill option) := by
  unfold optionStep at h
  split at h
  · cases h
  · cases h
    have hwill : ∀ (new : Bool) (verb : Verb) (c : UInt8) (init : Bool),
        (sendWillWont new verb c init s).hisStateIsWill option = s.hisStateIsWill option := by
      intro new verb c init
      simp only [hisStateIsWill, sendWillWont_doDont]
    cases e with
    | received m =>
      obtain ⟨verb, c⟩ := m
      cases verb with
      | will =>
        by_cases hc : c = option <;>
          simp [OptionEvent.apply, receive, willoption_hisStateIsWill _ s htm, hc]
      | wont => simp [OptionEvent.apply, receive, wontoption_hisStateIsWill]
      | doo => simp [OptionEvent.apply, receive, hisStateIsWill, dooption_doDont]
      | dont => simp [OptionEvent.apply, receive, hisStateIsWill, dontoption_doDont]
    | sendDo c => simp [OptionEvent.apply]
    | sendDont c => simp [OptionEvent.apply]
    | sendWill c => simp [OptionEvent.apply, sendWill, hwill]
    | sendWont c => simp [OptionEvent.apply, sendWont, hwill]

/-! ## The record along a run -/

def lastHeard (option : UInt8) : List OptionEvent → Option Bool
  | [] => none
  | e :: es =>
    match lastHeard option es with
    | some b => some b
    | none =>
      if e = .received ⟨.will, option⟩ then some true
      else if e = .received ⟨.wont, option⟩ then some false
      else none

theorem lastHeard_snoc (option : UInt8) (es : List OptionEvent) (e : OptionEvent) :
    lastHeard option (es ++ [e]) =
      if e = .received ⟨.will, option⟩ then some true
      else if e = .received ⟨.wont, option⟩ then some false
      else lastHeard option es := by
  induction es with
  | nil => rfl
  | cons f es ih =>
    rw [List.cons_append, lastHeard, ih]
    by_cases h1 : e = .received ⟨.will, option⟩
    · simp [h1]
    · by_cases h2 : e = .received ⟨.wont, option⟩
      · simp [h2]
      · simp only [h1, h2, if_false, lastHeard]

/-- The record is the last word of the peer. And so, once the peer has said WONT and telnetd
does not want the option either, `send_do(option, 1)` sends a DO. -/
def FollowsPeer (option : UInt8) (heard : List OptionEvent) (s : OptionState) : Prop :=
  (∀ b, lastHeard option heard = some b → s.hisStateIsWill option = b) ∧
    (lastHeard option heard = some false → s.hisWantStateIsWill option = false →
      (sendDo option true s).sent = s.sent ++ [⟨.doo, option⟩])

theorem sendDo_emits {option : UInt8} {s : OptionState}
    (hstate : s.hisStateIsWill option = false) (hwant : s.hisWantStateIsWill option = false) :
    (sendDo option true s).sent = s.sent ++ [⟨.doo, option⟩] := by
  have hreq : (s.options.doDont option).request true (option ≠ TELOPT_TM) =
      some { s.options.doDont option with
        wantState := option ≠ TELOPT_TM, resp := (s.options.doDont option).resp + 1 } := by
    unfold Negotiation.request
    rw [if_neg]
    rintro (⟨-, h⟩ | h)
    · exact absurd (hstate.symm.trans h) (by decide)
    · exact absurd (hwant.symm.trans h) (by decide)
  simp only [sendDo, hreq, if_true, emit_sent, modDo_sent]

theorem follows_of_record {option : UInt8} {heard : List OptionEvent} {s : OptionState}
    (h : ∀ b, lastHeard option heard = some b → s.hisStateIsWill option = b) :
    FollowsPeer option heard s :=
  ⟨h, fun hlast hwant => sendDo_emits (h false hlast) hwant⟩

def NoWontOnRecordedWill (option : UInt8) (s : OptionState) (e : OptionEvent) : Prop :=
  e = .received ⟨.wont, option⟩ → s.exited = false → s.hisStateIsWill option = false

/-- In every run, telnetd's record follows the peer in all the states that are reached
exactly when the option is recorded as WONT whenever a WONT arrives. -/
theorem follows_iff {option : UInt8} (htm : option ≠ TELOPT_TM) (es : List OptionEvent) :
    Steps (NoWontOnRecordedWill option) optionStep OptionState.initial es ↔
      ∀ pre s, pre <+: es → run optionStep OptionState.initial pre = some s →
        FollowsPeer option pre s := by
  rw [steps_iff_front]
  constructor
  · intro hok pre s hpre hrun
    apply follows_of_record
    induction pre using List.reverseRecOn generalizing s with
    | nil => intro b hb; cases hb
    | append_singleton pre e ih =>
      obtain ⟨t, ht, hstep⟩ := run_snoc_eq_some.mp hrun
      intro b hb
      rw [lastHeard_snoc] at hb
      rw [step_hisStateIsWill htm hstep]
      split at hb
      · rename_i he
        cases hb
        simp [he]
      · rename_i hwill
        split at hb
        · rename_i he
          cases hb
          have hlive : t.exited = false := by
            unfold optionStep at hstep
            split at hstep
            · cases hstep
            · rename_i hx
              exact Bool.eq_false_iff.mpr hx
          simp only [hwill, decide_false, Bool.false_or]
          exact hok pre e hpre t ht he hlive
        · simp only [hwill, decide_false, Bool.false_or]
          exact ih t ((List.prefix_append pre [e]).trans hpre) ht b hb
  · intro h pre e hpre t ht he hlive
    have hstep : optionStep t e = some (e.apply t) := by simp [optionStep, hlive]
    have hrun := run_snoc_eq_some.mpr ⟨t, ht, hstep⟩
    have hlast : lastHeard option (pre ++ [e]) = some false := by
      rw [lastHeard_snoc, he]
      simp
    have hrec := (h (pre ++ [e]) _ hpre hrun).1 false hlast
    rw [step_hisStateIsWill htm hstep] at hrec
    exact (Bool.or_eq_false_iff.mp hrec).2

/-- The peer turns `BINARY` on and off again: telnetd still records WILL, and asking for it
once more sends nothing. -/
theorem wont_after_will_unrecorded :
    ∃ s, run optionStep OptionState.initial
        [.received ⟨.will, TELOPT_BINARY⟩, .received ⟨.wont, TELOPT_BINARY⟩] = some s ∧
      lastHeard TELOPT_BINARY
        [.received ⟨.will, TELOPT_BINARY⟩, .received ⟨.wont, TELOPT_BINARY⟩] = some false ∧
      s.hisStateIsWill TELOPT_BINARY = true ∧ s.hisWantStateIsWill TELOPT_BINARY = false ∧
      (sendDo TELOPT_BINARY true s).sent = s.sent :=
  ⟨_, rfl, rfl, rfl, rfl, rfl⟩

theorem follows_binary_will :
    ∃ s, run optionStep OptionState.initial [.received ⟨.will, TELOPT_BINARY⟩] = some s ∧
      FollowsPeer TELOPT_BINARY [.received ⟨.will, TELOPT_BINARY⟩] s := by
  have hok : Steps (NoWontOnRecordedWill TELOPT_BINARY) optionStep OptionState.initial
      [.received ⟨.will, TELOPT_BINARY⟩] := by
    refine ⟨?_, fun _ _ => trivial⟩
    intro h
    exact absurd h (by decide)
  have h := (follows_iff (by decide) [.received ⟨.will, TELOPT_BINARY⟩]).mp hok
  exact ⟨_, rfl, h _ _ (List.prefix_refl _) rfl⟩

end Netkit.Telnet.Daemon

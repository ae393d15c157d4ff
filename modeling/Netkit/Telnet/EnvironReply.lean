import Netkit.Telnet.Client.Environ
import Netkit.Telnet.Daemon.Telrcv

/-!
# An environment reply from the client to telnetd

The client quotes a reply twice at once, for the environment option and for the wire; `telrcv`
takes off the one quoting and `suboption` the other.

* `environ_reply_iff`: telnetd ends up with the client's variables exactly when the block in
  which the client writes the reply is large enough.
-/

namespace Netkit.Telnet

open Netkit.Foundations Client Daemon

/-! ## The two quotings -/

theorem envByte_eq (c : UInt8) : envByte c = doubled (escapeByte c) := by
  by_cases h1 : c = IAC
  · subst h1
    rfl
  · by_cases h2 : c = ENV_VALUE ∨ c = ENV_VAR ∨ c = ENV_ESC
    · have hesc : ENV_ESC ≠ IAC := by decide
      simp [envByte, escapeByte, doubled, h1, h2, hesc]
    · simp [envByte, escapeByte, doubled, h1, h2]

theorem text_eq (text : List UInt8) : text.flatMap envByte = doubled (escape text) := by
  induction text with
  | nil => rfl
  | cons c text ih =>
    rw [List.flatMap_cons, ih, envByte_eq, ← doubled_append]
    rfl

theorem addedBytes_eq (v : Var) : addedBytes v = doubled (varBytes v) := by
  have hvar : ∀ xs, doubled (ENV_VAR :: xs) = ENV_VAR :: doubled xs := fun xs => rfl
  have hvalue : ∀ xs, doubled (ENV_VALUE :: xs) = ENV_VALUE :: doubled xs := fun xs => rfl
  unfold addedBytes varBytes
  rw [hvar, doubled_append, text_eq]
  cases v.2 with
  | none => rfl
  | some value =>
    dsimp only
    rw [valueBytes, hvalue, text_eq]

theorem addedBytes_flatMap (vars : List Var) :
    vars.flatMap addedBytes = doubled (vars.flatMap varBytes) := by
  induction vars with
  | nil => rfl
  | cons v vars ih =>
    rw [List.flatMap_cons, List.flatMap_cons, doubled_append, ih, addedBytes_eq]

theorem reply_eq_doubled (vars : List Var) :
    [IAC, SB, TELOPT_ENVIRON, TELQUAL_IS] ++ vars.flatMap addedBytes ++ [IAC, SE] =
      IAC :: SB :: (doubled (environBody vars) ++ [IAC, SE]) := by
  rw [addedBytes_flatMap]
  rfl

/-! ## The round trip -/

/-- telnetd is between two items and can read a suboption: its buffers have their sizes and
there is room in `ptyobuf`. -/
structure ReadyForSuboption (s : Daemon.NetInput) : Prop where
  state : s.state = .data
  room : s.pty.hasRoom = true
  size : s.sub.subbuffer.length = subbufferSize

/-- A list of variables whose body fits in `subbuffer`, with the `IAC SE` behind it. -/
def FitsSubbuffer (vars : List Var) : Prop :=
  (environBody vars).length + 2 ≤ subbufferSize - 1

/-- The client writes the reply, telnetd reads all of it, and then it has done what the
variables ask for. -/
def RoundTrip (emptyok : Bool) (vars : List Var) (s : Daemon.NetInput) : Prop :=
  ∃ reply, envReply emptyok vars = some reply ∧ (Daemon.telrcv reply s).1 = [] ∧
    (Daemon.telrcv reply s).2.environ = s.environ ++ envCalls vars

theorem telrcv_reply {vars : List Var} (hvars : StringVars vars) (hfits : FitsSubbuffer vars)
    {s : Daemon.NetInput} (hs : ReadyForSuboption s) :
    (Daemon.telrcv (IAC :: SB :: (doubled (environBody vars) ++ [IAC, SE])) s).1 = [] ∧
      (Daemon.telrcv (IAC :: SB :: (doubled (environBody vars) ++ [IAC, SE])) s).2.environ =
        s.environ ++ envCalls vars := by
  obtain ⟨sub, hsize, hpointer, hend, hbody, hrun⟩ :=
    telrcv_suboption [] hs.state hs.room hs.size hfits
  have hcalls := suboption_environ hvars hsize hpointer hend hfits hbody
  rw [hrun, Daemon.telrcv, hcalls]
  exact ⟨rfl, rfl⟩

/-- telnetd sets the defined variables that it admits and unsets the undefined ones, in order
and nothing else, exactly when the client has not overrun the block in which it writes the
reply. -/
theorem environ_reply_iff {vars : List Var} (hvars : StringVars vars)
    (hfits : FitsSubbuffer vars) (emptyok : Bool) {s : Daemon.NetInput}
    (hs : ReadyForSuboption s) :
    RoundTrip emptyok vars s ↔ ReplyFits emptyok 4 OPT_REPLY_SIZE vars := by
  obtain ⟨hwritten, hoverrun⟩ := envReply_eq emptyok vars
  constructor
  · rintro ⟨reply, hreply, -, -⟩
    by_contra hlong
    rw [hoverrun hlong] at hreply
    cases hreply
  · intro hshort
    have hreply := hwritten hshort
    split at hreply
    · rw [reply_eq_doubled] at hreply
      exact ⟨_, hreply, telrcv_reply hvars hfits hs⟩
    · rename_i hnone
      have hnil : vars = [] := by
        by_contra hne
        exact hnone (Or.inr hne)
      subst hnil
      exact ⟨[], hreply, rfl, by simp [Daemon.telrcv, envCalls]⟩

theorem initial_ready : ReadyForSuboption Daemon.NetInput.initial :=
  ⟨rfl, rfl, by simp [Daemon.NetInput.initial]⟩

set_option maxRecDepth 4000 in
/-- `TERM` with a value of 200 bytes 255: the test of `env_opt_add` asks for 214 bytes, which
there are, but 410 are written. The body has 208 bytes and fits in `subbuffer`. -/
theorem environ_reply_overrun :
    StringVars [([84, 69, 82, 77], some (List.replicate 200 255))] ∧
      FitsSubbuffer [([84, 69, 82, 77], some (List.replicate 200 255))] ∧
      ¬ RoundTrip false [([84, 69, 82, 77], some (List.replicate 200 255))]
        Daemon.NetInput.initial := by
  refine ⟨?_, by unfold FitsSubbuffer; decide, ?_⟩
  · intro v hv
    rw [List.mem_singleton] at hv
    subst hv
    refine ⟨by decide, by decide, fun value hvalue => ?_⟩
    cases hvalue
    intro c hc
    rw [List.eq_of_mem_replicate hc]
    decide
  · have hlong : ¬ ReplyFits false 4 OPT_REPLY_SIZE
        [([84, 69, 82, 77], some (List.replicate 200 255))] := by
      rw [ReplyFits]
      exact fun hfits => absurd hfits.1 (by decide)
    rintro ⟨reply, hreply, -, -⟩
    rw [(envReply_eq _ _).2 hlong] at hreply
    cases hreply

/-- `TERM` is defined and `PATH`, which telnetd does not admit, is not; `USER` contains an
`IAC`. -/
theorem environ_reply_short :
    RoundTrip false [([84, 69, 82, 77], some [118, 116]), ([80, 65, 84, 72], none),
      ([85, 83, 69, 82], some [255, 1])] Daemon.NetInput.initial := by
  refine (environ_reply_iff ?_ (by unfold FitsSubbuffer; decide) false initial_ready).mpr ?_
  · intro v hv
    simp only [List.mem_cons, List.not_mem_nil, or_false] at hv
    rcases hv with rfl | rfl | rfl
    · exact ⟨by decide, by decide, by rintro value ⟨⟩; decide⟩
    · exact ⟨by decide, by decide, by rintro value ⟨⟩⟩
    · exact ⟨by decide, by decide, by rintro value ⟨⟩; decide⟩
  · exact ⟨by decide, by decide, by decide, fun _ => by decide⟩

end Netkit.Telnet

import Netkit.Rcp.Confined
import Netkit.Rcp.Disk

/-!
# The order of steps of rcp

The source and the sink may take their steps in any order: what they write only adds to what is on
its way, and neither looks at more than it reads.
-/

namespace Netkit.Rcp

open Netkit.Foundations

variable {d : Bool} {env : SinkEnv} {f : Frame} {fs : List Frame} {h : Host} {w : World}

/-! ## What is on its way -/

theorem takeLine_append {n : ℕ} {stream line rest : Bytes}
    (hline : takeLine n stream = some (line, rest)) (more : Bytes) :
    takeLine n (stream ++ more) = some (line, rest ++ more) := by
  induction stream generalizing n line with
  | nil => cases hline
  | cons c stream ih =>
    rw [takeLine] at hline
    rw [List.cons_append, takeLine]
    split at hline
    · rename_i hc
      obtain ⟨rfl, rfl⟩ := Prod.mk.inj (Option.some.inj hline)
      rw [if_pos hc]
    · rename_i hc
      obtain ⟨⟨line', rest'⟩, hline', heq⟩ := Option.map_eq_some_iff.mp hline
      obtain ⟨rfl, rfl⟩ := Prod.mk.inj heq
      rw [if_neg hc, ih hline']
      rfl

theorem takeRecord_append {input line rest : Bytes}
    (hline : takeRecord input = some (line, rest)) (more : Bytes) :
    takeRecord (input ++ more) = some (line, rest ++ more) := by
  cases input with
  | nil => cases hline
  | cons c input =>
    rw [takeRecord] at hline
    rw [List.cons_append, takeRecord]
    split at hline
    · rename_i hc
      obtain ⟨rfl, rfl⟩ := Prod.mk.inj (Option.some.inj hline)
      rw [if_pos hc]
    · rename_i hc
      obtain ⟨⟨line', rest'⟩, hline', heq⟩ := Option.map_eq_some_iff.mp hline
      obtain ⟨rfl, rfl⟩ := Prod.mk.inj heq
      rw [if_neg hc, takeLine_append hline']
      rfl

theorem takeResponse_append {input rest : Bytes} {r : Response}
    (hr : takeResponse input = some (r, rest)) (more : Bytes) :
    takeResponse (input ++ more) = some (r, rest ++ more) := by
  cases input with
  | nil => cases hr
  | cons c input =>
    rw [takeResponse] at hr
    rw [List.cons_append, takeResponse]
    split at hr
    · rename_i hc
      obtain ⟨rfl, rfl⟩ := Prod.mk.inj (Option.some.inj hr)
      rw [if_pos hc]
    · rename_i hc
      obtain ⟨⟨line, rest'⟩, hline, heq⟩ := Option.map_eq_some_iff.mp hr
      obtain ⟨rfl, rfl⟩ := Prod.mk.inj heq
      rw [if_neg hc, takeLine_append hline]
      rfl

/-! ## The sink -/

def SinkTurn.before (t : SinkTurn) (more : Bytes) : SinkTurn := { t with rest := t.rest ++ more }

theorem enterSink_before (targ rest more : Bytes) (read : Option Item) :
    enterSink d env targ fs (rest ++ more) read = (enterSink d env targ fs rest read).before more := by
  rw [enterSink, enterSink]
  split
  · rfl
  · rfl

theorem handle_before (r : Record) (rest more : Bytes) :
    handle d env f fs (rest ++ more) r = (handle d env f fs rest r).before more := by
  cases r with
  | file mode size name =>
    rw [handle, handle, acceptFile, acceptFile]
    repeat' split
    all_goals rfl
  | directory mode name =>
    have hgo (made : Bool) (item : Item) (why : Bytes) :
        (if made then enterSink d env (f.np name) (f :: fs) (rest ++ more) (some item)
          else ⟨⟨f.next :: fs, .record⟩, rest ++ more, some item, [some why]⟩ : SinkTurn) =
        (if made then enterSink d env (f.np name) (f :: fs) rest (some item)
          else ⟨⟨f.next :: fs, .record⟩, rest, some item, [some why]⟩ : SinkTurn).before more := by
      cases made with
      | true => exact enterSink_before _ _ _ _
      | false => rfl
    exact hgo _ _ _
  | leave =>
    rw [handle, handle]
    cases fs with
    | nil => rfl
    | cons g fs =>
      rw [leaveSink, leaveSink]
      split
      · rfl
      · rfl
  | note text => rfl
  | times mtime atime => rfl
  | fatal => rfl
  | garbage text => rfl
  | screwup why => rfl

theorem finishFile_before (np rest more : Bytes) (wrerr : Wrerr) (status : Option Bytes) :
    finishFile env f fs np wrerr (rest ++ more) status =
      (finishFile env f fs np wrerr rest status).before more := by
  unfold finishFile
  dsimp only
  split
  · rfl
  · rfl

/-- A step that is possible while the source may write more: it is the same when there is more, and
when the source has gone. -/
theorem sinkStep_append {input : Bytes} {s : Sink} {t : SinkTurn}
    (hstep : sinkStep d env false input s = some t) (closed : Bool) (more : Bytes) :
    sinkStep d env closed (input ++ more) s = some (t.before more) := by
  obtain ⟨stack, mode⟩ := s
  cases stack with
  | nil =>
    cases mode with
    | _ => cases hstep
  | cons f fs =>
    cases mode with
    | ended => cases hstep
    | start =>
      obtain rfl := Option.some.inj hstep
      exact congrArg some (enterSink_before _ _ _ _)
    | record =>
      dsimp only [sinkStep] at hstep ⊢
      cases hline : takeRecord input with
      | none =>
        rw [hline] at hstep
        cases hstep
      | some p =>
        rw [hline] at hstep
        obtain rfl := Option.some.inj hstep
        rw [takeRecord_append hline]
        exact congrArg some (handle_before _ _ _)
    | body np size =>
      dsimp only [sinkStep] at hstep ⊢
      split at hstep
      · rename_i hsize
        obtain rfl := Option.some.inj hstep
        have hmore : size ≤ (input ++ more).length :=
          Nat.le_trans hsize (List.length_append ▸ Nat.le_add_right _ _)
        rw [if_pos hmore, List.drop_append_of_le_length hsize, List.take_append_of_le_length hsize]
        rfl
      · cases hstep
    | truncate np wrerr =>
      dsimp only [sinkStep] at hstep ⊢
      split at hstep
      · rename_i htruncate
        obtain rfl := Option.some.inj hstep
        rw [if_pos htruncate]
        rfl
      · rename_i htruncate
        obtain rfl := Option.some.inj hstep
        rw [if_neg htruncate]
        rfl
    | status np wrerr =>
      dsimp only [sinkStep] at hstep ⊢
      cases hr : takeResponse input with
      | none =>
        rw [hr] at hstep
        cases hstep
      | some p =>
        obtain ⟨r, rest⟩ := p
        rw [hr] at hstep
        rw [takeResponse_append hr]
        cases r with
        | ok =>
          obtain rfl := Option.some.inj hstep
          exact congrArg some (finishFile_before _ _ _ _ _)
        | error text =>
          obtain rfl := Option.some.inj hstep
          exact congrArg some (finishFile_before _ _ _ _ _)
        | fatal =>
          obtain rfl := Option.some.inj hstep
          rfl

theorem env_append {input : Bytes} {s : Sink} {t : SinkTurn}
    (hstep : sinkStep d env false input s = some t) (more : Bytes) :
    w.env h (input ++ more) s = w.env h input s := by
  have hsubject : s.subject (input ++ more) = s.subject input := by
    obtain ⟨stack, mode⟩ := s
    cases stack with
    | nil => cases mode <;> rfl
    | cons f fs =>
      cases mode with
      | record =>
        dsimp only [sinkStep] at hstep
        cases hline : takeRecord input with
        | none =>
          rw [hline] at hstep
          cases hstep
        | some p =>
          dsimp only [Sink.subject]
          rw [takeRecord_append hline, hline]
      | _ => rfl
  rw [World.env, World.env, hsubject]

theorem after_append {input : Bytes} {s : Sink} {t : SinkTurn}
    (hstep : sinkStep d env false input s = some t) (more : Bytes) :
    w.after h (input ++ more) s = w.after h input s := by
  obtain ⟨stack, mode⟩ := s
  cases stack with
  | nil => cases mode <;> rfl
  | cons f fs =>
    cases mode with
    | record =>
      dsimp only [sinkStep] at hstep
      cases hline : takeRecord input with
      | none =>
        rw [hline] at hstep
        cases hstep
      | some p =>
        dsimp only [World.after]
        rw [takeRecord_append hline, hline]
    | body np size =>
      dsimp only [sinkStep] at hstep
      split at hstep
      · rename_i hsize
        have hmore : size ≤ (input ++ more).length :=
          Nat.le_trans hsize (List.length_append ▸ Nat.le_add_right _ _)
        dsimp only [World.after]
        rw [if_pos hmore, if_pos hsize, List.take_append_of_le_length hsize]
      · cases hstep
    | status np wrerr =>
      dsimp only [sinkStep] at hstep
      cases hr : takeResponse input with
      | none =>
        rw [hr] at hstep
        cases hstep
      | some p =>
        obtain ⟨r, rest⟩ := p
        dsimp only [World.after]
        rw [takeResponse_append hr, hr]
        cases r with
        | _ => rfl
    | _ => rfl

/-- A step is the same when the source has gone. -/
theorem sinkStep_gone {input : Bytes} {s : Sink} {t : SinkTurn}
    (hstep : sinkStep d env false input s = some t) (closed : Bool) :
    sinkStep d env closed input s = some t := by
  have happend := sinkStep_append hstep closed []
  rwa [List.append_nil, SinkTurn.before, List.append_nil] at happend

/-! ## Both ends -/

variable {c t u : Copying}

theorem tell_commutes {i : Item} {next : Source Unit} (hsource : c.net.source = .tell i next)
    (ht : copyStep h d c .source = some t) (hu : copyStep h d c .sink = some u) :
    ∃ v, copyStep h d t .sink = some v ∧ copyStep h d u .source = some v := by
  obtain ⟨n, w⟩ := c
  obtain ⟨source, sink, down, up, written, read, said, heard, answers, asks⟩ := n
  dsimp only at hsource
  subst hsource
  obtain rfl := Option.some.inj ht
  obtain ⟨net, hnet, rfl⟩ := Option.map_eq_some_iff.mp hu
  obtain ⟨turn, hturn, rfl⟩ := Option.map_eq_some_iff.mp hnet
  have hmore := fun closed => sinkStep_append hturn closed i.bytes
  have henv : w.env h (down ++ i.bytes) sink = w.env h down sink := env_append hturn i.bytes
  have hafter : w.after h (down ++ i.bytes) sink = w.after h down sink :=
    after_append hturn i.bytes
  refine ⟨_, ?_, rfl⟩
  dsimp only [copyStep, netStep]
  rw [henv, hmore, hafter]
  rfl

theorem hear_commutes {next : Bool → Source Unit} (hsource : c.net.source = .ask next)
    (ht : copyStep h d c .source = some t) (hu : copyStep h d c .sink = some u) :
    ∃ v, copyStep h d t .sink = some v ∧ copyStep h d u .source = some v := by
  obtain ⟨n, w⟩ := c
  obtain ⟨source, sink, down, up, written, read, said, heard, answers, asks⟩ := n
  dsimp only at hsource
  subst hsource
  obtain ⟨net, hnet, rfl⟩ := Option.map_eq_some_iff.mp hu
  obtain ⟨turn, hturn, rfl⟩ := Option.map_eq_some_iff.mp hnet
  have hmore := sinkStep_gone hturn
  dsimp only [copyStep, sourceStep] at ht
  cases hr : takeResponse up with
  | none =>
    -- the sink has not ended
    rw [hr] at ht
    have hgo : sink.mode ≠ .ended := by
      intro hended
      rw [hended] at ht
      obtain ⟨stack, mode⟩ := sink
      dsimp only at hended
      subst hended
      cases stack with
      | _ => cases hturn
    dsimp only at ht
    rw [if_neg hgo] at ht
    cases ht
  | some p =>
    obtain ⟨r, rest⟩ := p
    rw [hr] at ht
    have hlater := takeResponse_append hr (turn.said.flatMap responseBytes)
    dsimp only [copyStep, netStep, sourceStep, Net.turn]
    rw [hlater]
    cases r with
    | ok =>
      obtain rfl := Option.some.inj ht
      refine ⟨_, ?_, rfl⟩
      dsimp only [Net.hear]
      rw [hmore]
      rfl
    | error text =>
      obtain rfl := Option.some.inj ht
      refine ⟨_, ?_, rfl⟩
      dsimp only [Net.hear]
      rw [hmore]
      rfl
    | fatal =>
      obtain rfl := Option.some.inj ht
      refine ⟨_, ?_, rfl⟩
      dsimp only
      rw [hmore]
      rfl

theorem copyStep_commutes : Commutes (copyStep h d) := by
  have hsides {c t u : Copying} (ht : copyStep h d c .source = some t)
      (hu : copyStep h d c .sink = some u) :
      ∃ v, copyStep h d t .sink = some v ∧ copyStep h d u .source = some v := by
    cases hsource : c.net.source with
    | done a =>
      rw [copyStep, sourceStep, hsource] at ht
      cases ht
    | tell i next => exact tell_commutes hsource ht hu
    | ask next => exact hear_commutes hsource ht hu
  intro c a b t u hab ht hu
  cases a with
  | source =>
    cases b with
    | source => exact absurd rfl hab
    | sink => exact hsides ht hu
  | sink =>
    cases b with
    | sink => exact absurd rfl hab
    | source =>
      obtain ⟨v, hv, hv'⟩ := hsides hu ht
      exact ⟨v, hv', hv⟩

end Netkit.Rcp

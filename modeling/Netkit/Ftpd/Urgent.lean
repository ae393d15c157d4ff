import Netkit.Foundations.Runs
import Netkit.Ftpd.Getline

/-!
# Commands that come during a transfer

The signal handler `myoob` reads a line into `tmpline`, puts it in capitals, and leaves it there
for the scanner unless it is an `ABOR`. The scanner reads what is in `tmpline` before it goes on in
the stream.

* `handled_once_iff`: the lines that the handler has to leave alone for that.
-/

namespace Netkit.Ftpd.Urgent

open Netkit.Foundations

/-! ## A session -/

/-- A line that the handler has acted upon, or that the scanner has got. -/
inductive Handled where
  | acted (line : Bytes)
  | executed (line : Bytes)
deriving DecidableEq

def Handled.line : Handled → Bytes
  | .acted line => line
  | .executed line => line

/-- `stdin` is all that is still going to come. No code reads `handled` and `overrun`, which says
that a byte has been written behind `tmpline`. -/
structure Session where
  transflag : Bool
  tmpline : Bytes
  stdin : Bytes
  gone : Bool
  handled : List Handled
  overrun : Bool
deriving DecidableEq

def Session.start (stdin : Bytes) : Session := ⟨false, [], stdin, false, [], false⟩

/-- `sizeof(tmpline)`. -/
def tmplineSize : ℕ := 7

/-- `sizeof(cbuf)-1`. -/
def cbufSize : ℕ := 511

/-- The string that `ftpd_getline` and `upper` leave in `tmpline`. When a line is saved there it is
copied to its own place, and its first byte is cleared. -/
def Session.cp (s : Session) (g : Got) : Bytes :=
  if s.tmpline = [] then (cstring g.chars).map toupper else []

def myoob (s : Session) : Session :=
  if !s.transflag then s
  else
    let g := ftpdGetline tmplineSize s.tmpline s.stdin
    let s' := { s with stdin := g.stdin, overrun := s.overrun || decide (tmplineSize < g.stores) }
    if g.null then { s' with gone := true }
    else if s.cp g = ascii "ABOR\r\n" then
      { s' with transflag := false, tmpline := [], handled := s.handled ++ [.acted g.chars] }
    else if s.cp g = ascii "STAT\r\n" then
      { s' with tmpline := s.cp g, handled := s.handled ++ [.acted g.chars] }
    else { s' with tmpline := s.cp g }

def command (s : Session) : Session :=
  let g := ftpdGetline cbufSize s.tmpline s.stdin
  let s' := { s with tmpline := g.tmpline, stdin := g.stdin }
  if g.null then { s' with gone := true }
  else { s' with handled := s.handled ++ [.executed g.chars] }

/-- The scanner reads, a transfer begins or ends, or urgent data arrive. -/
inductive Event where
  | command
  | transfer
  | complete
  | oob
deriving DecidableEq

def sessionStep (s : Session) : Event → Option Session
  | .command => if s.gone || s.transflag then none else some (command s)
  | .transfer => if s.gone || s.transflag then none else some { s with transflag := true }
  | .complete => if s.transflag then some { s with transflag := false } else none
  | .oob => if s.gone then none else some (myoob s)

/-! ## Lines that are handled once -/

/-- `lines` are the first lines of `data`, and `rest` is what is behind them; what is longer than
`cbuf` is more than one line. -/
inductive Taken (data : Bytes) : List Bytes → Bytes → Prop where
  | start : Taken data [] data
  | next {lines : List Bytes} {rest : Bytes} (h : Taken data lines rest) (hrest : rest ≠ []) :
    Taken data (lines ++ [(takeBuffer 10 cbufSize rest).1]) (takeBuffer 10 cbufSize rest).2

/-- Of the data of the stream, every line so far has been acted upon or executed, once and in its
turn, with the bytes it came with; what the handler acts upon is `ABOR` or `STAT`. -/
structure HandledOnce (stdin : Bytes) (s : Session) : Prop where
  taken : Taken (decode stdin) (s.handled.map Handled.line) (s.tmpline ++ decode s.stdin)
  acted : ∀ line, .acted line ∈ s.handled →
    line.map toupper = ascii "ABOR\r\n" ∨ line.map toupper = ascii "STAT\r\n"
  intact : s.overrun = false

/-- The lines that survive the handler: `ABOR`, and what it can keep as it is. -/
def Harmless (line : Bytes) : Prop :=
  line.length < tmplineSize ∧ (line.map toupper = ascii "ABOR\r\n" ∨
    (∀ c ∈ line, c ≠ 0 ∧ islower c = false) ∧ line ≠ ascii "STAT\r\n")

/-- A signal during a transfer finds no saved line, and a line it does no harm to. -/
def Clear (s : Session) (e : Event) : Prop :=
  e = .oob → s.gone = false → s.transflag = true →
    s.tmpline = [] ∧ Harmless (firstLine 10 (decode s.stdin))

variable {s t : Session} {e : Event} {es : List Event} {data rest line stdin : Bytes}
  {lines : List Bytes} {g : Got}

theorem Taken.flatten (h : Taken data lines rest) : lines.flatten ++ rest = data := by
  induction h with
  | start => rfl
  | next h hrest ih =>
    rw [List.flatten_append, List.flatten_singleton, List.append_assoc, takeBuffer_append]
    exact ih

/-! ## Letters -/

theorem toupper_of_lower {c : UInt8} (h : islower c = true) :
    97 ≤ c.toNat ∧ (toupper c).toNat = c.toNat - 32 := by
  rw [toupper, if_pos h]
  rw [islower, Bool.and_eq_true, decide_eq_true_iff, decide_eq_true_iff] at h
  have hle : (32 : UInt8) ≤ c := UInt8.le_iff_toNat_le.mpr (Nat.le_trans (by decide) h.1)
  exact ⟨h.1, UInt8.toNat_sub_of_le _ _ hle⟩

theorem toupper_eq_self {c : UInt8} (h : toupper c = c) : islower c = false := by
  by_contra hlower
  obtain ⟨hle, hnat⟩ := toupper_of_lower (eq_true_of_ne_false hlower)
  rw [h] at hnat
  omega

theorem toupper_upper {c : UInt8} (h : islower c = false) : toupper c = c := by
  rw [toupper, if_neg (ne_true_of_eq_false h)]

/-- The string in `tmpline` is the line just when it is all there and has no small letters. -/
theorem upper_eq_self (h : (cstring line).map toupper = line) :
    ∀ c ∈ line, c ≠ 0 ∧ islower c = false := by
  have hlength := congrArg List.length h
  rw [List.length_map] at hlength
  have hall : cstring line = line := (List.takeWhile_prefix _).eq_of_length hlength
  intro c hc
  rw [hall] at h
  refine ⟨?_, toupper_eq_self (List.map_inj_left.mp (h.trans (List.map_id line).symm) c hc)⟩
  rw [← hall, cstring] at hc
  have hne : decide (c ≠ 0) = true := List.mem_takeWhile_imp (p := fun c => decide (c ≠ 0)) hc
  exact of_decide_eq_true hne

theorem map_toupper (h : ∀ c ∈ line, c ≠ 0 ∧ islower c = false) : line.map toupper = line :=
  (List.map_inj_left.mpr fun c hc => toupper_upper (h c hc).2).trans (List.map_id line)

theorem Harmless.cstring_eq (h : Harmless line) : cstring line = line := by
  apply cstring_eq_self
  intro hmem
  rcases h.2 with habor | ⟨hplain, -⟩
  · have hzero : toupper 0 ∈ line.map toupper := List.mem_map_of_mem hmem
    rw [habor] at hzero
    exact absurd hzero (by decide +kernel)
  · exact (hplain 0 hmem).1 rfl

/-! ## A signal -/

theorem firstLine_eq_nil : firstLine 10 data = [] ↔ data = [] := by
  cases data with
  | nil => exact Iff.rfl
  | cons c data =>
    refine ⟨fun h => ?_, fun h => absurd h (List.cons_ne_nil _ _)⟩
    rw [firstLine] at h
    split at h
    · exact absurd h (List.cons_ne_nil _ _)
    · exact absurd h (List.cons_ne_nil _ _)

/-- What the handler reads when nothing is saved. -/
structure Fetch (stdin : Bytes) (g : Got) : Prop where
  chars : g.chars = (firstLine 10 (decode stdin)).take tmplineSize
  rest : g.chars ++ decode g.stdin = decode stdin
  null : g.null = true ↔ decode stdin = []
  stores : tmplineSize < g.stores ↔ tmplineSize ≤ (firstLine 10 (decode stdin)).length

theorem fetch (stdin : Bytes) : Fetch stdin (ftpdGetline tmplineSize [] stdin) := by
  have hsaved : IsSaved [] := List.not_mem_nil
  obtain ⟨hchars, hrest, hnull⟩ := ftpdGetline_buffer hsaved (by decide) (by decide) stdin
    (n := tmplineSize)
  rw [List.nil_append] at hchars hrest hnull
  have htake := hchars.trans (takeBuffer_fst 10 tmplineSize (decode stdin))
  refine ⟨htake, by rw [hchars, hrest, takeBuffer_append], hnull, ?_⟩
  have hlength := congrArg List.length htake
  rw [List.length_take] at hlength
  rw [Got.stores]
  split
  · next h =>
    rw [firstLine_eq_nil.mpr (hnull.mp h)] at hlength ⊢
    rw [hlength]
    decide
  · omega

/-- A line that fits in `tmpline` is also what the scanner would get. -/
theorem Fetch.takeBuffer (h : Fetch stdin g)
    (hlength : (firstLine 10 (decode stdin)).length < tmplineSize) :
    g.chars = firstLine 10 (decode stdin) ∧
      takeBuffer 10 cbufSize (decode stdin) = (g.chars, decode g.stdin) := by
  have hchars : g.chars = firstLine 10 (decode stdin) :=
    h.chars.trans (List.take_of_length_le hlength.le)
  have hfst : (Foundations.takeBuffer 10 cbufSize (decode stdin)).1 = g.chars := by
    rw [takeBuffer_fst, hchars]
    exact List.take_of_length_le (hlength.le.trans (by decide))
  refine ⟨hchars, Prod.ext hfst ?_⟩
  have hboth := takeBuffer_append 10 cbufSize (decode stdin)
  rw [hfst] at hboth
  exact List.append_cancel_left (hboth.trans h.rest.symm)

/-- What holds as long as no line is harmed. -/
structure Orderly (stdin : Bytes) (s : Session) : Prop extends HandledOnce stdin s where
  saved : IsSaved s.tmpline
  short : s.tmpline.length < tmplineSize

theorem isSaved_firstLine (data : Bytes) : IsSaved (firstLine 10 data) := by
  have h := takeBuffer_dropLast 10 (firstLine 10 data).length data
  rwa [takeBuffer_fst, List.take_length] at h

theorem myoob_keeps (h : Orderly stdin s) (hempty : s.tmpline = [])
    (hline : Harmless (firstLine 10 (decode s.stdin))) : Orderly stdin (myoob s) := by
  rw [myoob]
  split
  · exact h
  · rw [hempty]
    have hg := fetch s.stdin
    generalize ftpdGetline tmplineSize [] s.stdin = g at hg
    obtain ⟨hchars, hbuffer⟩ := hg.takeBuffer hline.1
    have hwhole := hline.cstring_eq
    obtain ⟨hlength, hkept⟩ := hline
    rw [← hchars] at hwhole hkept
    have htaken := h.taken
    rw [hempty, List.nil_append] at htaken
    have hintact : (s.overrun || decide (tmplineSize < g.stores)) = false := by
      rw [h.intact, Bool.false_or, decide_eq_false_iff_not, hg.stores]
      exact Nat.not_le_of_lt hlength
    have hcp : s.cp g = g.chars.map toupper := by rw [Session.cp, if_pos hempty, hwhole]
    have hsaved : IsSaved g.chars := hchars ▸ isSaved_firstLine _
    have hshort : g.chars.length < tmplineSize := hchars ▸ hlength
    have hacted (hne : decode s.stdin ≠ []) :
        Taken (decode stdin) ((s.handled ++ [Handled.acted g.chars]).map Handled.line)
          (decode g.stdin) := by
      have hnext := htaken.next hne
      rw [hbuffer] at hnext
      rw [List.map_append]
      exact hnext
    dsimp only
    rw [hcp]
    split
    · next hnull =>
      have hnil := hg.null.mp hnull
      have hrest := hg.rest
      rw [hnil] at hrest
      rw [hnil] at htaken
      exact {
        taken := by
          rw [(List.append_eq_nil_iff.mp hrest).2, List.nil_append]
          exact htaken
        acted := h.acted
        intact := hintact
        saved := List.not_mem_nil
        short := (by decide : 0 < tmplineSize) }
    · next hnull =>
      have hne : decode s.stdin ≠ [] := fun hnil => hnull (hg.null.mpr hnil)
      split
      · next habor =>
        exact {
          taken := hacted hne
          acted := by
            intro line hmem
            rcases List.mem_append.mp hmem with hmem | hmem
            · exact h.acted line hmem
            · obtain rfl := Handled.acted.inj (List.mem_singleton.mp hmem)
              exact Or.inl habor
          intact := hintact
          saved := List.not_mem_nil
          short := (by decide : 0 < tmplineSize) }
      · next habor =>
        obtain ⟨hplain, hstat⟩ := hkept.resolve_left habor
        rw [map_toupper hplain, if_neg hstat]
        exact {
          taken := by
            rw [hg.rest]
            exact htaken
          acted := h.acted
          intact := hintact
          saved := hsaved
          short := hshort }

theorem myoob_breaks (h : Orderly stdin s) (htransfer : s.transflag = true)
    (honce : HandledOnce stdin (myoob s)) :
    s.tmpline = [] ∧ Harmless (firstLine 10 (decode s.stdin)) := by
  have hconserved := h.taken.flatten.trans honce.taken.flatten.symm
  have hintact := honce.intact
  rw [myoob, if_neg (by rw [htransfer]; exact Bool.false_ne_true)] at hconserved hintact
  dsimp only at hconserved hintact
  by_cases hempty : s.tmpline = []
  · refine ⟨hempty, ?_⟩
    have hg := fetch s.stdin
    rw [hempty] at hconserved hintact
    generalize ftpdGetline tmplineSize [] s.stdin = g at hg hconserved hintact
    have hlength : (firstLine 10 (decode s.stdin)).length < tmplineSize := by
      have hstores : (s.overrun || decide (tmplineSize < g.stores)) = false := by
        split at hintact
        · exact hintact
        · split at hintact
          · exact hintact
          · split at hintact
            · exact hintact
            · exact hintact
      rw [Bool.or_eq_false_iff, decide_eq_false_iff_not, hg.stores] at hstores
      exact Nat.lt_of_not_le hstores.2
    obtain ⟨hchars, -⟩ := hg.takeBuffer hlength
    refine ⟨hlength, ?_⟩
    rw [← hchars] at hlength ⊢
    have hcp : s.cp g = (cstring g.chars).map toupper := if_pos hempty
    rw [hcp] at hconserved
    split at hconserved
    · next hnull =>
      have hnil : g.chars = [] := by
        rw [hchars, hg.null.mp hnull]
        rfl
      rw [hnil]
      exact Or.inr ⟨fun c hc => absurd hc List.not_mem_nil, by decide +kernel⟩
    · split at hconserved
      · next habor =>
        left
        have hsix := congrArg List.length habor
        rw [List.length_map, show (ascii "ABOR\r\n").length = 6 by decide +kernel] at hsix
        have hfront : cstring g.chars <+: g.chars := List.takeWhile_prefix _
        have hle := hfront.length_le
        rw [hfront.eq_of_length (hsix.trans (by
          unfold tmplineSize at hlength
          omega))] at habor
        exact habor
      · split at hconserved
        · next hstat =>
          -- the line has been acted upon, and is still there
          exfalso
          have hcount := congrArg List.length hconserved
          rw [hstat, ← hg.rest, List.map_append, List.flatten_append] at hcount
          simp only [List.length_append, List.map_cons, List.map_nil, List.flatten_singleton,
            Handled.line, List.length_nil] at hcount
          rw [show (ascii "STAT\r\n").length = 6 by decide +kernel] at hcount
          omega
        · next hstat =>
          right
          have hsame := List.append_cancel_left hconserved
          rw [List.nil_append, ← hg.rest] at hsame
          have hself := List.append_cancel_right hsame
          exact ⟨upper_eq_self hself.symm, fun h => hstat (hself.symm.trans h)⟩
  · -- the saved line is gone
    exfalso
    obtain ⟨hchars, hrest, hnull⟩ := ftpdGetline_buffer h.saved h.short (by decide) s.stdin
    have hne : s.tmpline ++ decode s.stdin ≠ [] := fun h => hempty (List.append_eq_nil_iff.mp h).1
    have hcp (g : Got) : s.cp g = [] := if_neg hempty
    rw [if_neg (fun h => hne (hnull.mp h)), hcp, if_neg (by decide +kernel),
      if_neg (by decide +kernel)] at hconserved
    have hsame := List.append_cancel_left hconserved
    dsimp only at hsame
    rw [List.nil_append, hrest] at hsame
    have hboth := takeBuffer_append 10 tmplineSize (s.tmpline ++ decode s.stdin)
    have hfirst : (takeBuffer 10 tmplineSize (s.tmpline ++ decode s.stdin)).1 ≠ [] :=
      takeBuffer_ne_nil (by decide) hne
    rw [← hsame] at hboth
    exact hfirst (List.append_left_eq_self.mp hboth)

/-! ## The scanner -/

theorem command_keeps (h : Orderly stdin s) : Orderly stdin (command s) := by
  have hshort : s.tmpline.length < cbufSize := h.short.trans (by decide)
  obtain ⟨hchars, hrest, hnull⟩ := ftpdGetline_buffer h.saved hshort (by decide) s.stdin
  have htmpline := ftpdGetline_tmpline s.tmpline s.stdin (by decide : 2 ≤ cbufSize)
  rw [command]
  generalize ftpdGetline cbufSize s.tmpline s.stdin = g at hchars hrest hnull htmpline
  dsimp only
  rw [htmpline]
  split
  · next hend =>
    have htaken := h.taken
    rw [hnull.mp hend] at htaken hrest
    exact {
      taken := by
        rw [hrest]
        exact htaken
      acted := h.acted
      intact := h.intact
      saved := List.not_mem_nil
      short := (by decide : 0 < tmplineSize) }
  · next hend =>
    have hnext := h.taken.next fun hnil => hend (hnull.mpr hnil)
    rw [← hchars, ← hrest] at hnext
    exact {
      taken := by
        rw [List.map_append]
        exact hnext
      acted := by
        intro line hmem
        rcases List.mem_append.mp hmem with hmem | hmem
        · exact h.acted line hmem
        · cases List.mem_singleton.mp hmem
      intact := h.intact
      saved := List.not_mem_nil
      short := (by decide : 0 < tmplineSize) }

/-! ## Runs -/

theorem sessionStep_keeps (h : Orderly stdin s) (hclear : Clear s e)
    (hstep : sessionStep s e = some t) : Orderly stdin t := by
  cases e with
  | command =>
    rw [sessionStep] at hstep
    split at hstep
    · cases hstep
    · cases hstep
      exact command_keeps h
  | transfer =>
    rw [sessionStep] at hstep
    split at hstep
    · cases hstep
    · cases hstep
      exact { h with }
  | complete =>
    rw [sessionStep] at hstep
    split at hstep
    · cases hstep
      exact { h with }
    · cases hstep
  | oob =>
    rw [sessionStep] at hstep
    split at hstep
    · cases hstep
    · next hgone =>
      cases hstep
      cases htransfer : s.transflag with
      | false =>
        rw [myoob, htransfer]
        exact h
      | true =>
        obtain ⟨hempty, hline⟩ := hclear rfl (eq_false_of_ne_true hgone) htransfer
        exact myoob_keeps h hempty hline

theorem sessionStep_breaks (h : Orderly stdin s) (hclear : ¬ Clear s e) :
    ∃ t, sessionStep s e = some t ∧ ¬ HandledOnce stdin t := by
  rw [Clear, Classical.not_imp, Classical.not_imp, Classical.not_imp] at hclear
  obtain ⟨rfl, hgone, htransfer, hharm⟩ := hclear
  refine ⟨myoob s, ?_, fun honce => ?_⟩
  · rw [sessionStep, hgone]
    rfl
  · exact hharm (myoob_breaks h htransfer honce)

theorem start_orderly (stdin : Bytes) : Orderly stdin (Session.start stdin) where
  taken := .start
  acted := fun line hmem => absurd hmem List.not_mem_nil
  intact := rfl
  saved := List.not_mem_nil
  short := (by decide : 0 < tmplineSize)

/-- In a run, whatever stream it has and whatever signals arrive, every line is handled once and as it
was sent exactly if every signal during a transfer finds `tmpline` empty and a line that fits there
and is an `ABOR`, or is not `STAT` and has neither small letters nor NULs. -/
theorem handled_once_iff (stdin : Bytes) (es : List Event) :
    Steps Clear sessionStep (Session.start stdin) es ↔
      ∀ t, Reached sessionStep (Session.start stdin) es t → HandledOnce stdin t :=
  steps_iff_reached_of (fun _ _ _ h hclear hstep => sessionStep_keeps h hclear hstep)
    (fun _ h => h.toHandledOnce) (fun _ _ h hclear => sessionStep_breaks h hclear)
    (start_orderly stdin)

/-- A `STAT` is answered, and then comes again as a command. -/
theorem not_handled_once : ¬ ∀ (stdin : Bytes) (es : List Event) (t : Session),
    Reached sessionStep (Session.start stdin) es t → HandledOnce stdin t := by
  intro h
  let es : List Event := [.transfer, .oob, .complete, .command]
  let stat : Bytes := ascii "STAT\r\n"
  let t : Session := ⟨false, [], [], false, [.acted stat, .executed stat], false⟩
  have hrun : run sessionStep (Session.start stat) es = some t := by decide +kernel
  have htwice := (h stat es t ⟨es, List.prefix_refl es, hrun⟩).taken.flatten
  exact absurd htwice (by decide +kernel)

end Netkit.Ftpd.Urgent

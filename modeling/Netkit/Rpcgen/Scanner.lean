import Netkit.Foundations.Loops
import Netkit.Foundations.Pushback
import Netkit.Rpcgen.Tokens

/-!
# The scanner of rpcgen

`get_token` and `peek` of `rpc_scan.c`. The input comes through a buffer of `MAXLINESIZE`
characters; `where` points into it. Everything that the scanner takes for more than a blank is
noted down with the number of characters that were left in front of it.
-/

namespace Netkit.Rpcgen

open Netkit.Foundations

def MAXLINESIZE : ℕ := 1024

/-- What the scanner finds in the text. -/
inductive Event where
  /-- The two characters that begin a comment. -/
  | opened
  /-- The two characters that end it. -/
  | closed
  /-- A line of the preprocessor. -/
  | cpp (num : ℕ) (fname : Option Text)
  /-- A line that is copied to the output. -/
  | copied (line : Text)
  | token (t : Token)
deriving DecidableEq

abbrev Log := List (Event × ℕ)

/-- The buffer from `where` on, the rest of the input, and what has been found. -/
structure Source where
  line : Text
  fin : Text
  log : Log

def Source.left (s : Source) : ℕ := s.line.length + s.fin.length

/-- `fgets` into `curline`. -/
def fgets (fin : Text) : Text × Text := takeBuffer '\n' (MAXLINESIZE - 1) fin

def cstring (s : Text) : Text := s.takeWhile (fun c => c != '\x00')

/-- The loop that looks for the end of a comment, behind the character `c`. -/
def endcomment (c : Char) : Text → Option Text
  | [] => none
  | d :: line => if c = '*' ∧ d = '/' then some line else endcomment d line

inductive Stop where
  | eof (s : Source)
  | found (s : Source)
  | failed (message : Text)

/-- One round of the loop in `get_token`, with the flag `commenting`. -/
def pass : Bool × Source → Except Stop (Bool × Source)
  | (commenting, ⟨[], fin, log⟩) =>
    if fin = [] then .error (.eof ⟨[], [], log⟩)
    else
      let curline := cstring (fgets fin).1
      if commenting then .ok (true, ⟨curline, (fgets fin).2, log⟩)
      else if curline.head? = some '#' then
        match docppline curline with
        | .error message => .error (.failed message)
        | .ok (num, fname) =>
          .ok (false, ⟨[], (fgets fin).2, log ++ [(.cpp num fname, fin.length)]⟩)
      else if curline.head? = some '%' then
        .ok (false, ⟨[], (fgets fin).2, log ++ [(.copied curline.tail, fin.length)]⟩)
      else .ok (false, ⟨curline, (fgets fin).2, log⟩)
  | (commenting, ⟨c :: line, fin, log⟩) =>
    if isspace c then .ok (commenting, ⟨line.dropWhile isspace, fin, log⟩)
    else if commenting then
      match endcomment c line with
      | none => .ok (true, ⟨[], fin, log⟩)
      | some rest => .ok (false, ⟨rest, fin, log ++ [(.closed, rest.length + fin.length + 2)]⟩)
    else if c = '/' ∧ line.head? = some '*' then
      .ok (true, ⟨line.tail, fin, log ++ [(.opened, line.length + fin.length + 1)]⟩)
    else .error (.found ⟨c :: line, fin, log⟩)

/-- A round of the loop leaves less of the input, or as much in the buffer. -/
def measure (s : Bool × Source) : ℕ := s.2.line.length + 2 * s.2.fin.length

theorem fgets_length {fin : Text} (h : fin ≠ []) :
    (cstring (fgets fin).1).length + (fgets fin).2.length ≤ fin.length ∧
      (fgets fin).2.length < fin.length := by
  have hne : (fgets fin).1 ≠ [] := takeBuffer_ne_nil (by decide) h
  have hlength := congrArg List.length (takeBuffer_append '\n' (MAXLINESIZE - 1) fin)
  have hstring : (cstring (fgets fin).1).length ≤ (fgets fin).1.length :=
    (List.takeWhile_prefix _).length_le
  have hpos := List.length_pos_iff.mpr hne
  rw [List.length_append] at hlength
  unfold fgets at *
  omega

theorem endcomment_length {c : Char} {line rest : Text} (h : endcomment c line = some rest) :
    rest.length < line.length := by
  induction line generalizing c with
  | nil => cases h
  | cons d line ih =>
    rw [endcomment] at h
    split at h
    · cases h
      exact Nat.lt_succ_self _
    · exact Nat.lt_succ_of_lt (ih h)

/-- What a round of the loop can do. -/
inductive Passing : Bool × Source → Except Stop (Bool × Source) → Prop where
  | eof (b : Bool) (log : Log) : Passing (b, ⟨[], [], log⟩) (.error (.eof ⟨[], [], log⟩))
  | fetch {fin : Text} (b : Bool) (log : Log) (hfin : fin ≠ []) :
    Passing (b, ⟨[], fin, log⟩) (.ok (b, ⟨cstring (fgets fin).1, (fgets fin).2, log⟩))
  | illegal {fin : Text} (log : Log) (message : Text) (hfin : fin ≠ []) :
    Passing (false, ⟨[], fin, log⟩) (.error (.failed message))
  | note {fin : Text} {event : Event} (log : Log) (hfin : fin ≠ [])
    (hevent : ∀ t, event ≠ .token t) :
    Passing (false, ⟨[], fin, log⟩) (.ok (false, ⟨[], (fgets fin).2, log ++ [(event, fin.length)]⟩))
  | space {c : Char} (b : Bool) (line fin : Text) (log : Log) (hspace : isspace c = true) :
    Passing (b, ⟨c :: line, fin, log⟩) (.ok (b, ⟨line.dropWhile isspace, fin, log⟩))
  | within (c : Char) (line fin : Text) (log : Log) :
    Passing (true, ⟨c :: line, fin, log⟩) (.ok (true, ⟨[], fin, log⟩))
  | closed {c : Char} {line rest : Text} (fin : Text) (log : Log)
    (hend : endcomment c line = some rest) :
    Passing (true, ⟨c :: line, fin, log⟩)
      (.ok (false, ⟨rest, fin, log ++ [(.closed, rest.length + fin.length + 2)]⟩))
  | opened (c : Char) (line fin : Text) (log : Log) :
    Passing (false, ⟨c :: line, fin, log⟩)
      (.ok (true, ⟨line.tail, fin, log ++ [(.opened, line.length + fin.length + 1)]⟩))
  | token (c : Char) (line fin : Text) (log : Log) :
    Passing (false, ⟨c :: line, fin, log⟩) (.error (.found ⟨c :: line, fin, log⟩))

theorem pass_spec (s : Bool × Source) : Passing s (pass s) := by
  obtain ⟨commenting, ⟨line, fin, log⟩⟩ := s
  cases line with
  | nil =>
    rw [pass]
    split
    · next hfin =>
      rw [hfin]
      exact .eof _ _
    · next hfin =>
      cases commenting with
      | true => exact .fetch true log hfin
      | false =>
        dsimp only
        rw [if_neg Bool.false_ne_true]
        split_ifs
        · cases docppline (cstring (fgets fin).1) with
          | error message => exact .illegal log message hfin
          | ok r => exact .note log hfin fun _ => Event.noConfusion
        · exact .note log hfin fun _ => Event.noConfusion
        · exact .fetch false log hfin
  | cons c line =>
    rw [pass]
    split_ifs with hspace hcomment hopen
    · exact .space commenting line fin log hspace
    · rw [hcomment]
      cases hend : endcomment c line with
      | none => exact .within c line fin log
      | some rest => exact .closed fin log hend
    · rw [Bool.eq_false_of_not_eq_true hcomment]
      exact .opened c line fin log
    · rw [Bool.eq_false_of_not_eq_true hcomment]
      exact .token c line fin log

theorem passing_of_pass {s : Bool × Source} {r : Except Stop (Bool × Source)} (h : pass s = r) :
    Passing s r :=
  h ▸ pass_spec s

theorem pass_measure (s t : Bool × Source) (h : pass s = .ok t) : measure t < measure s := by
  cases passing_of_pass h with
  | fetch b log hfin =>
    have hlength := fgets_length hfin
    simp only [measure, List.length_nil]
    omega
  | note log hfin hevent =>
    have hlength := fgets_length hfin
    simp only [measure, List.length_nil]
    omega
  | space b line fin log hspace =>
    have hdrop := List.length_dropWhile_le isspace line
    simp only [measure, List.length_cons]
    omega
  | within c line fin log => simp [measure]
  | closed fin log hend =>
    have hrest := endcomment_length hend
    simp only [measure, List.length_cons]
    omega
  | opened c line fin log =>
    simp only [measure, List.length_cons, List.length_tail]
    omega

/-! ## Tokens -/

/-- The token at `where`, behind the loop. `none` is the end of the file. -/
def tokenAt : Stop → Except Text (Option Token × Source)
  | .eof s => .ok (none, s)
  | .failed message => .error message
  | .found s =>
    match readToken s.line with
    | .error message => .error message
    | .ok (t, rest) => .ok (some t, ⟨rest, s.fin, s.log ++ [(.token t, s.left)]⟩)

/-- `get_token`, where no token has been pushed back. -/
def getToken (s : Source) : Except Text (Option Token × Source) :=
  tokenAt (outcome pass measure (.failed []) (false, s))

def round (s : Bool × Source) : Except (Option Log) (Bool × Source) :=
  match pass s with
  | .ok s' => .ok s'
  | .error stop =>
    match tokenAt stop with
    | .error _ => .error none
    | .ok (none, s') => .error (some s'.log)
    | .ok (some _, s') => .ok (false, s')

def reading (s : Bool × Source) : Option Log := outcome round measure none s

theorem pass_found {s s' : Source} {commenting : Bool}
    (h : pass (commenting, s) = .error (.found s')) : s' = s ∧ commenting = false := by
  cases passing_of_pass h with
  | token c line fin log => exact ⟨rfl, rfl⟩

theorem round_measure (s t : Bool × Source) (h : round s = .ok t) : measure t < measure s := by
  rw [round] at h
  cases hpass : pass s with
  | ok s' =>
    rw [hpass] at h
    cases h
    exact pass_measure s _ hpass
  | error stop =>
    rw [hpass] at h
    cases stop with
    | eof s' => cases h
    | failed message => cases h
    | found s' =>
      obtain ⟨rfl, -⟩ := pass_found hpass
      cases hread : readToken s.2.line with
      | error message =>
        simp only [tokenAt, hread] at h
        cases h
      | ok r =>
        simp only [tokenAt, hread] at h
        cases h
        have hlength := readToken_length hread
        have hpos := readToken_pos hread
        simp only [measure]
        omega

/-! ## The equations of a reading -/

variable {s : Source} {b : Bool}

theorem reading_pass {t : Bool × Source} (h : pass (b, s) = .ok t) :
    reading (b, s) = reading t := by
  refine outcome_ok round_measure ?_
  rw [round, h]

theorem reading_failed {message : Text} (h : pass (b, s) = .error (.failed message)) :
    reading (b, s) = none := by
  refine outcome_error ?_
  rw [round, h]
  rfl

theorem reading_eof {s' : Source} (h : pass (b, s) = .error (.eof s')) :
    reading (b, s) = some s'.log := by
  refine outcome_error ?_
  rw [round, h]
  rfl

theorem reading_illegal {message : Text} (h : pass (b, s) = .error (.found s))
    (hread : readToken s.line = .error message) : reading (b, s) = none := by
  refine outcome_error ?_
  simp only [round, h, tokenAt, hread]

theorem reading_token {t : Token} {rest : Text} (h : pass (b, s) = .error (.found s))
    (hread : readToken s.line = .ok (t, rest)) :
    reading (b, s) = reading (false, ⟨rest, s.fin, s.log ++ [(.token t, s.left)]⟩) := by
  refine outcome_ok round_measure ?_
  simp only [round, h, tokenAt, hread]

/-- What a reading makes of a call of `get_token`. -/
def readOn : Except Text (Option Token × Source) → Option Log
  | .error _ => none
  | .ok (none, s) => some s.log
  | .ok (some _, s) => reading (false, s)

/-- A reading is one call of `get_token` after the other. The induction is on the rounds of the
loop in the first one. -/
theorem reading_outcome (s : Bool × Source) :
    reading s = readOn (tokenAt (outcome pass measure (.failed []) s)) := by
  induction hn : measure s using Nat.strongRecOn generalizing s with
  | _ n ih =>
    obtain ⟨b, s⟩ := s
    cases hpass : pass (b, s) with
    | ok t =>
      rw [reading_pass hpass, outcome_ok pass_measure hpass]
      exact ih (measure t) (hn ▸ pass_measure _ t hpass) t rfl
    | error stop =>
      rw [outcome_error hpass]
      cases stop with
      | eof s' => exact reading_eof hpass
      | failed message => exact reading_failed hpass
      | found s' =>
        obtain ⟨rfl, rfl⟩ := pass_found hpass
        cases hread : readToken s'.line with
        | error message =>
          rw [reading_illegal hpass hread, tokenAt, hread]
          rfl
        | ok r =>
          rw [reading_token hpass hread, tokenAt, hread]
          rfl

theorem reading_getToken (s : Source) : reading (false, s) = readOn (getToken s) :=
  reading_outcome (false, s)

/-! ## A pushed back token -/

abbrev Scanner := Pushback Source (Option Token)

def Scanner.start (text : Text) : Scanner := ⟨⟨[], text, []⟩, none⟩

def Scanner.run (calls : List Call) (s : Scanner) : Except Text (List (Option Token) × Log) :=
  Pushback.run getToken Source.log calls s

end Netkit.Rpcgen

import Netkit.Ftpd.Scanner
import Netkit.Ftpd.Answers
import Netkit.Ftpd.Pending

/-!
# One line, one command, one reply

A turn of the command loop takes one line from the connection and answers it once, whatever older
lines have left in the buffer, unless the line loses its end or the parser has to go on behind an
error.

* `oneLine_of_clean`: the runs in which every turn does it.
-/

namespace Netkit.Ftpd

open Netkit.Foundations

variable {b : Bool} {seen : Option Bool} {k : Nat}

/-! ## Trees -/

/-- Behind `k` replies the action of the command sends the rest of one. -/
def Command.Completes (c : Command) (k : Nat) : Prop :=
  k + c.answers.toNat = 1 ∨ c = .rnto true none

def Rule.Completes : Rule → Nat → Prop
  | .reduce c, k => c.Completes k
  | _, _ => False

/-- Nothing is read behind the end of the line, and a command is reduced behind `k` replies that
leave its action to send the rest of one. `seen` says whether a token has been looked at, and
whether it is the end of the line. -/
def Rule.Orderly (loggedIn : Bool) : Rule → Option Bool → Nat → Prop
  | .look next, seen, k =>
    ∀ t : Token, (∀ ended, seen = some ended → ended = decide (t = .CRLF)) →
      (next t).Orderly loggedIn (some (decide (t = .CRLF))) k
  | .shift next, some true, k => next.Completes k
  | .shift next, some false, k => next.Orderly loggedIn none k
  | .shift _, none, _ => False
  | .check next, seen, k =>
    (next loggedIn).Orderly loggedIn seen (if loggedIn then k else k + 1)
  | .path _ next, seen, k =>
    (∀ p, (next (some p)).Orderly loggedIn seen k) ∧
      (loggedIn = true → (next none).Orderly loggedIn seen (k + 1))
  | .hostPort _ next, seen, k => next.Orderly loggedIn seen k
  | .reduce _, _, _ => False
  | .fail, seen, _ => seen ≠ none

namespace Rule

theorem crlf_orderly {c : Command} (hc : c.Completes k) : (crlf c).Orderly b seen k := by
  intro t _
  by_cases ht : t = .CRLF
  · subst ht
    exact hc
  · dsimp only
    rw [if_neg ht]
    exact Option.some_ne_none _

theorem expect_orderly {t : Token} {next : Rule} (ht : t ≠ .CRLF)
    (hnext : next.Orderly b none k) : (expect t next).Orderly b seen k := by
  intro u _
  dsimp only
  by_cases hu : u = t
  · rw [if_pos hu, hu, decide_eq_false ht]
    exact hnext
  · rw [if_neg hu]
    exact Option.some_ne_none _

theorem string_orderly {next : Bytes → Rule} (hnext : ∀ s, (next s).Orderly b none k) :
    (string next).Orderly b seen k := by
  intro t _
  cases t with
  | STRING s => exact hnext s
  | _ => exact Option.some_ne_none _

theorem number_orderly {next : Int → Rule} (hnext : ∀ i, (next i).Orderly b none k) :
    (number next).Orderly b seen k := by
  intro t _
  cases t with
  | NUMBER i => exact hnext i
  | _ => exact Option.some_ne_none _

theorem letter_orderly {next : Letter → Option Rule}
    (hnext : ∀ l r, next l = some r → r.Orderly b none k) :
    (letter next).Orderly b seen k := by
  intro t _
  cases t with
  | letter l =>
    cases hl : next l with
    | none =>
      dsimp only
      rw [hl]
      exact Option.some_ne_none _
    | some r =>
      dsimp only
      rw [hl]
      exact hnext l r hl
  | _ => exact Option.some_ne_none _

theorem optional_orderly {c : Command} {next : Rule} (hc : c.Completes k)
    (hnext : next.Orderly b none k) : (optional c next).Orderly b seen k := by
  intro t _
  cases t with
  | CRLF => exact hc
  | SP => exact hnext
  | _ => exact Option.some_ne_none _

theorem pathname_orderly {c : Option Bytes → Command} (hsome : ∀ p, (c (some p)).Completes k)
    (hnone : b = true → (c none).Completes (k + 1)) : (pathname c).Orderly b seen k :=
  string_orderly (fun _ => ⟨fun p => crlf_orderly (hsome p), fun hb => crlf_orderly (hnone hb)⟩)

/-- The replies of `check_login`. -/
def told (b : Bool) : Nat := if b then 0 else 1

theorem completes_of_login {c : Command} (hc : c.answers = b) : c.Completes (told b) := by
  refine Or.inl ?_
  rw [hc]
  cases b with
  | true => rfl
  | false => rfl

theorem completes_of_path {c : Command} (hc : c.answers = false ∨ c = .rnto true none)
    (hb : b = true) : c.Completes (told b + 1) := by
  rcases hc with hc | hc
  · refine Or.inl ?_
    rw [hc, hb]
    rfl
  · exact Or.inr hc

theorem checkedPath_orderly {c : Bool → Option Bytes → Command}
    (hsome : ∀ l p, (c l (some p)).answers = l)
    (hnone : (c true none).answers = false ∨ c true none = .rnto true none) :
    (checkedPath c).Orderly b none 0 :=
  expect_orderly (fun h => nomatch h) (pathname_orderly
    (fun p => completes_of_login (hsome b p))
    (fun hb => completes_of_path (by rw [hb]; exact hnone) hb))

theorem checkedEnd_orderly {c : Bool → Command} (hc : ∀ l, (c l).answers = l) :
    (checkedEnd c).Orderly b none 0 := crlf_orderly (completes_of_login (hc b))

theorem checkedOptional_orderly {c : Bool → Option (Option Bytes) → Command}
    (hend : ∀ l, (c l none).answers = l) (hsome : ∀ l p, (c l (some (some p))).answers = l)
    (hnone : (c true (some none)).answers = false) : (checkedOptional c).Orderly b none 0 :=
  optional_orderly (completes_of_login (hend b)) (pathname_orderly
    (fun p => completes_of_login (hsome b p))
    (fun hb => completes_of_path (by rw [hb]; exact Or.inl hnone) hb))

theorem typeForm_orderly {c : FormCode → Command} (hc : ∀ f, (c f).Completes k) :
    (typeForm c).Orderly b none k := by
  intro t _
  cases t with
  | SP =>
    refine letter_orderly (fun l r hr => ?_)
    cases l with
    | N => cases hr; exact crlf_orderly (hc .N)
    | T => cases hr; exact crlf_orderly (hc .T)
    | C => cases hr; exact crlf_orderly (hc .C)
    | _ => exact nomatch hr
  | _ => exact crlf_orderly (hc .N)

theorem typeLocal_orderly {c : Int → Command} (hc : ∀ i, (c i).Completes k) :
    (typeLocal c).Orderly b none k := by
  intro t _
  cases t with
  | SP => exact number_orderly (fun i => crlf_orderly (hc i))
  | NUMBER i => exact crlf_orderly (hc i)
  | _ => exact crlf_orderly (hc 8)

theorem typeCode_orderly : (typeCode b).Orderly b none (told b) := by
  have hc (t : TypeSpec) : (Command.type b t).Completes (told b) := completes_of_login rfl
  refine letter_orderly (fun l r hr => ?_)
  cases l with
  | A => cases hr; exact typeForm_orderly (fun _ => hc _)
  | E => cases hr; exact typeForm_orderly (fun _ => hc _)
  | I => cases hr; exact crlf_orderly (hc _)
  | L => cases hr; exact typeLocal_orderly (fun _ => hc _)
  | _ => exact nomatch hr

theorem comma_orderly {next : Int → Rule} (hnext : ∀ i, (next i).Orderly b none k) :
    (comma next).Orderly b none k :=
  expect_orderly (fun h => nomatch h) (number_orderly hnext)

theorem hostPortCode_orderly : (hostPortCode b).Orderly b none (told b) :=
  number_orderly (fun _ => comma_orderly (fun _ => comma_orderly (fun _ => comma_orderly
    (fun _ => comma_orderly (fun _ => comma_orderly (fun _ =>
      crlf_orderly (completes_of_login rfl)))))))

theorem siteIdle_orderly :
    (check (fun l => expect (.command .IDLE) (optional (.siteIdle l none)
      (number (fun i => crlf (.siteIdle l (some i))))))).Orderly b seen 0 :=
  expect_orderly (fun h => nomatch h) (optional_orderly (completes_of_login rfl)
    (number_orderly (fun _ => crlf_orderly (completes_of_login rfl))))

theorem siteCode_orderly : siteCode.Orderly b none 0 := by
  intro t _
  cases t with
  | command c =>
    cases c with
    | HELP =>
      exact optional_orderly (Or.inl rfl) (string_orderly (fun _ => crlf_orderly (Or.inl rfl)))
    | UMASK =>
      exact optional_orderly (completes_of_login rfl)
        (number_orderly (fun _ => crlf_orderly (completes_of_login rfl)))
    | CHMOD =>
      refine expect_orderly (fun h => nomatch h) (number_orderly (fun i =>
        expect_orderly (fun h => nomatch h) (pathname_orderly (fun p => ?_) (fun hb => ?_))))
      · exact completes_of_login (Bool.and_true b)
      · exact completes_of_path (Or.inl (Bool.and_false b)) hb
    | _ => exact siteIdle_orderly
  | _ => exact siteIdle_orderly

end Rule

open Rule in
theorem ruleOf_orderly {name : CommandName} (h : isServed name = true) :
    (ruleOf name).Orderly b none 0 := by
  have hand (l : Bool) (p : Bytes) : (l && (some p).isSome) = l := Bool.and_true l
  cases name with
  | USER => exact expect_orderly (fun h => nomatch h) (string_orderly (fun _ => crlf_orderly (Or.inl rfl)))
  | PASS =>
    refine expect_orderly (fun h => nomatch h) (fun t _ => ?_)
    cases t with
    | STRING s => exact crlf_orderly (Or.inl rfl)
    | _ => exact crlf_orderly (Or.inl rfl)
  | PORT => exact expect_orderly (fun h => nomatch h) hostPortCode_orderly
  | PASV => exact checkedEnd_orderly (fun _ => rfl)
  | TYPE => exact expect_orderly (fun h => nomatch h) typeCode_orderly
  | STRU =>
    refine expect_orderly (fun h => nomatch h) (letter_orderly (fun l r hr => ?_))
    split at hr
    · obtain rfl := Option.some.inj hr
      exact crlf_orderly (completes_of_login rfl)
    · exact nomatch hr
  | MODE =>
    refine expect_orderly (fun h => nomatch h) (letter_orderly (fun l r hr => ?_))
    split at hr
    · obtain rfl := Option.some.inj hr
      exact crlf_orderly (completes_of_login rfl)
    · exact nomatch hr
  | ALLO =>
    refine expect_orderly (fun h => nomatch h) (number_orderly (fun _ =>
      optional_orderly (completes_of_login rfl) (expect_orderly (fun h => nomatch h)
        (expect_orderly (fun h => nomatch h) (number_orderly (fun _ =>
          crlf_orderly (completes_of_login rfl)))))))
  | RETR => exact checkedPath_orderly hand (Or.inl rfl)
  | STOR => exact checkedPath_orderly hand (Or.inl rfl)
  | APPE => exact checkedPath_orderly hand (Or.inl rfl)
  | NLST =>
    exact optional_orderly (completes_of_login rfl) (string_orderly (fun _ =>
      crlf_orderly (completes_of_login rfl)))
  | LIST => exact checkedOptional_orderly (fun _ => rfl) hand rfl
  | STAT => exact checkedOptional_orderly (fun _ => rfl) hand rfl
  | DELE => exact checkedPath_orderly hand (Or.inl rfl)
  | RNTO => exact checkedPath_orderly (fun _ _ => rfl) (Or.inr rfl)
  | ABOR => exact checkedEnd_orderly (fun _ => rfl)
  | CWD => exact checkedOptional_orderly (fun _ => rfl) hand rfl
  | HELP => exact optional_orderly (Or.inl rfl) (string_orderly (fun _ => crlf_orderly (Or.inl rfl)))
  | NOOP => exact crlf_orderly (Or.inl rfl)
  | MKD => exact checkedPath_orderly hand (Or.inl rfl)
  | RMD => exact checkedPath_orderly hand (Or.inl rfl)
  | PWD => exact checkedEnd_orderly (fun _ => rfl)
  | CDUP => exact checkedEnd_orderly (fun _ => rfl)
  | SITE => exact expect_orderly (fun h => nomatch h) siteCode_orderly
  | STOU => exact checkedPath_orderly hand (Or.inl rfl)
  | SYST => exact checkedEnd_orderly (fun _ => rfl)
  | SIZE => exact checkedPath_orderly hand (Or.inl rfl)
  | MDTM => exact checkedPath_orderly hand (Or.inl rfl)
  | QUIT => exact crlf_orderly (Or.inl rfl)
  | RNFR => exact checkedPath_orderly hand (Or.inl rfl)
  | REST =>
    exact expect_orderly (fun h => nomatch h) (number_orderly (fun _ =>
      crlf_orderly (completes_of_login rfl)))
  | _ => exact absurd h (by decide +kernel)

/-! ## The parser -/

def Server.clean (s : Server) : Server := { s with lexer := s.lexer.clean }

def seenOf (t : Option Token) : Option Bool := t.map (fun t => decide (t = .CRLF))

def Lexer.Ready (l : Lexer) (t : Option Token) : Prop :=
  if t = some .CRLF then l.state = .CMD else l.Within

/-- Neither the connection nor the login has been touched. -/
structure SameSession (s u : Server) : Prop where
  streams : SameStreams s.lexer u.lexer
  login : u.login = s.login

theorem SameSession.refl (s : Server) : SameSession s s := ⟨⟨rfl, rfl, rfl⟩, rfl⟩

theorem SameSession.trans {s t u : Server} (hst : SameSession s t) (htu : SameSession t u) :
    SameSession s u where
  streams := ⟨htu.streams.stdin.trans hst.streams.stdin,
    htu.streams.answers.trans hst.streams.answers, htu.streams.tmpline.trans hst.streams.tmpline⟩
  login := htu.login.trans hst.login

/-- What the parser comes to within a line, and what it comes to with a clean buffer. -/
inductive Parses (s : Server) : Parsed → Parsed → Prop where
  | command {c : Command} {u : Server} (same : SameSession s u) (state : u.lexer.state = .CMD)
      (completes : c.Completes u.answered) :
      Parses s (.done (.command c u)) (.done (.command c u.clean))
  | stopped {why : Stop} {u : Server} (same : SameSession s u) (state : u.lexer.state = .CMD)
      (more : why ≠ .eof) : Parses s (.done (.stopped why u)) (.done (.stopped why u.clean))
  | unexpected {t : Token} {u : Server} (same : SameSession s u)
      (state : t = .CRLF → u.lexer.state = .CMD) :
      Parses s (.unexpected t u) (.unexpected t u.clean)

theorem Parses.of_same {s t : Server} {p q : Parsed} (hst : SameSession s t)
    (h : Parses t p q) : Parses s p q := by
  cases h with
  | command same state completes => exact .command (hst.trans same) state completes
  | stopped same state more => exact .stopped (hst.trans same) state more
  | unexpected same state => exact .unexpected (hst.trans same) state

theorem checkLogin_answered (s : Server) : s.checkLogin.answered =
    if s.login.loggedIn then s.answered else s.answered + 1 := by
  unfold Server.checkLogin
  split
  · rfl
  · exact finals_reply (by decide) _ _

theorem checkLogin_session (s : Server) : SameSession s s.checkLogin := by
  unfold Server.checkLogin
  split
  · exact SameSession.refl s
  · exact ⟨⟨rfl, rfl, rfl⟩, rfl⟩

theorem checkLogin_clean (s : Server) : s.clean.checkLogin = s.checkLogin.clean := by
  unfold Server.checkLogin
  rw [show s.clean.login.loggedIn = s.login.loggedIn from rfl]
  split
  · rfl
  · rfl

/-- A path is expanded, or that is answered. -/
inductive Expands (s : Server) : Option Bytes × Server → Option Bytes × Server → Prop where
  | found (p : Bytes) : Expands s (some p, s) (some p, s.clean)
  | missing (hlogged : s.login.loggedIn = true) {u : Server} (same : SameSession s u)
      (lexer : u.lexer = s.lexer) (answered : u.answered = s.answered + 1) :
      Expands s (none, u) (none, u.clean)

theorem pathname_expands (s : Server) (glob : Bytes → Option Bytes) (p : Bytes) :
    Expands s (s.pathname glob p) (s.clean.pathname glob p) := by
  unfold Server.pathname
  rw [show s.clean.login.loggedIn = s.login.loggedIn from rfl]
  split
  · next hlogged =>
    split
    · exact .missing hlogged.1 ⟨⟨rfl, rfl, rfl⟩, rfl⟩ rfl (finals_reply (by decide) _ _)
    · exact .found _
  · exact .found p

theorem parse_orderly (glob : Bytes → Option Bytes) {r : Rule} {t : Option Token} {s : Server}
    (hr : r.Orderly s.login.loggedIn (seenOf t) s.answered) (hready : s.lexer.Ready t) :
    Parses s (parse glob r t s) (parse glob r t s.clean) := by
  induction r generalizing t s with
  | look next ih =>
    cases t with
    | some t => exact ih t (hr t (fun ended h => (Option.some.inj h).symm)) hready
    | none =>
      have hscanned : Scanned s.lexer (yylex s.lexer) (yylex s.lexer.clean) := yylex_scanned hready
      have hnext (t : Token) := hr t (fun ended h => absurd h (Option.some_ne_none ended).symm)
      unfold parse
      rw [show s.clean.lexer = s.lexer.clean from rfl]
      revert hscanned
      generalize yylex s.lexer = lexed
      generalize yylex s.lexer.clean = cleaned
      intro hscanned
      cases hscanned with
      | token streams within atEnd =>
        next t m =>
        have hready' : m.Ready (some t) := by
          unfold Lexer.Ready
          split
          · next ht => exact atEnd (Option.some.inj ht)
          · next ht => exact within (fun h => ht (congrArg some h))
        have hparse := ih t (t := some t) (s := { s with lexer := m }) (hnext t) hready'
        exact Parses.of_same (t := { s with lexer := m }) ⟨streams, rfl⟩ hparse
      | stop streams state more => exact .stopped ⟨streams, rfl⟩ state more
  | shift next ih =>
    cases t with
    | none => exact hr.elim
    | some t =>
      by_cases ht : t = .CRLF
      · subst ht
        cases next with
        | reduce c => exact .command (SameSession.refl s) hready hr
        | _ => exact hr.elim
      · have hnone : s.lexer.Ready none := by
          unfold Lexer.Ready at hready ⊢
          rw [if_neg (fun h => ht (Option.some.inj h))] at hready
          exact hready
        have hseen : seenOf (some t) = some false := congrArg some (decide_eq_false ht)
        rw [hseen] at hr
        exact ih hr hnone
  | check next ih =>
    unfold parse
    have hlogin : s.checkLogin.login = s.login := (checkLogin_session s).login
    have hlexer : s.checkLogin.lexer = s.lexer := by
      unfold Server.checkLogin
      split
      · rfl
      · rfl
    rw [checkLogin_clean]
    refine (ih s.login.loggedIn ?_ ?_).of_same (checkLogin_session s)
    · rw [hlogin, checkLogin_answered]
      exact hr
    · rw [hlexer]
      exact hready
  | path p next ih =>
    unfold parse
    have hexpands := pathname_expands s glob p
    revert hexpands
    generalize s.pathname glob p = found
    generalize s.clean.pathname glob p = cleaned
    intro hexpands
    cases hexpands with
    | found q => exact ih (some q) (hr.1 q) hready
    | missing hlogged same lexer answered =>
      refine (ih none ?_ ?_).of_same same
      · rw [same.login, answered]
        exact hr.2 hlogged
      · rw [lexer]
        exact hready
  | hostPort n next ih =>
    have hparse := ih (s := s.hostPort n) hr hready
    exact Parses.of_same (t := s.hostPort n) ⟨⟨rfl, rfl, rfl⟩, rfl⟩ hparse
  | reduce c => exact hr.elim
  | fail =>
    cases t with
    | none => exact absurd rfl hr
    | some t =>
      refine .unexpected (SameSession.refl s) (fun ht => ?_)
      change t = .CRLF at ht
      subst ht
      exact hready

/-! ## A line -/

/-- What the parser comes to at a line with `rest` behind it, in two buffers. -/
inductive LineParses (s : Server) (rest : Bytes) : Parsed → Parsed → Prop where
  | command {c : Command} {u v : Server} (login : u.login = s.login)
      (stdin : u.lexer.stdin = rest) (tmpline : u.lexer.tmpline = [])
      (state : u.lexer.state = .CMD) (completes : c.Completes u.answered)
      (clean : u.clean = v.clean) : LineParses s rest (.done (.command c u)) (.done (.command c v))
  | stopped {why : Stop} {u v : Server} (login : u.login = s.login)
      (stdin : u.lexer.stdin = rest) (tmpline : u.lexer.tmpline = [])
      (state : u.lexer.state = .CMD) (more : why ≠ .eof) (clean : u.clean = v.clean) :
      LineParses s rest (.done (.stopped why u)) (.done (.stopped why v))
  | unexpected {t : Token} {u v : Server} (login : u.login = s.login)
      (stdin : u.lexer.stdin = rest) (tmpline : u.lexer.tmpline = [])
      (state : t = .CRLF → u.lexer.state = .CMD) (clean : u.clean = v.clean) :
      LineParses s rest (.unexpected t u) (.unexpected t v)

theorem within_of_clean {m n : Lexer} (hm : m.Within) (hclean : m.clean = n.clean) :
    n.Within where
  state := by
    have hstate : m.clean.state = n.clean.state := congrArg Lexer.state hclean
    change m.state = n.state at hstate
    rw [← hstate]
    exact hm.state
  cpos := by
    have hcpos : m.clean.cpos = n.clean.cpos := congrArg Lexer.cpos hclean
    change m.cpos = n.cpos at hcpos
    have hcbuf : cstring m.cbuf = cstring n.cbuf := congrArg Lexer.cbuf hclean
    rw [← hcpos, ← hcbuf]
    exact hm.cpos

theorem lineParses_of_clean {s w : Server} {rest : Bytes} {p q r : Parsed}
    (hlogin : s.login = w.login) (hstdin : s.lexer.stdin = rest) (htmpline : s.lexer.tmpline = [])
    {x : Server} (hp : Parses s p r) (hq : Parses x q r) : LineParses w rest p q := by
  cases hp with
  | command same state completes =>
    generalize hr : Parsed.done _ = r at hq
    cases hq with
    | command same' state' completes' =>
      injection hr with hr
      injection hr with hc hclean
      subst hc
      exact .command (same.login.trans hlogin) (same.streams.stdin.trans hstdin)
        (same.streams.tmpline.trans htmpline) state completes hclean
    | stopped same' state' more' => exact nomatch hr
    | unexpected same' state' => exact nomatch hr
  | stopped same state more =>
    generalize hr : Parsed.done _ = r at hq
    cases hq with
    | command same' state' completes' => exact nomatch hr
    | stopped same' state' more' =>
      injection hr with hr
      injection hr with hc hclean
      subst hc
      exact .stopped (same.login.trans hlogin) (same.streams.stdin.trans hstdin)
        (same.streams.tmpline.trans htmpline) state more hclean
    | unexpected same' state' => exact nomatch hr
  | unexpected same state =>
    generalize hr : Parsed.unexpected _ _ = r at hq
    cases hq with
    | command same' state' completes' => exact nomatch hr
    | stopped same' state' more' => exact nomatch hr
    | unexpected same' state' =>
      injection hr with hc hclean
      subst hc
      exact .unexpected (same.login.trans hlogin) (same.streams.stdin.trans hstdin)
        (same.streams.tmpline.trans htmpline) state hclean

theorem line_parses (glob : Bytes → Option Bytes) {s : Server} {content rest : Bytes}
    (hstate : s.lexer.state = .CMD) (htmpline : s.lexer.tmpline = [])
    (hstdin : s.lexer.stdin = content ++ 10 :: rest) (hcontent : 10 ∉ content)
    (hfits : fits content = true) (hanswered : s.answered = 0) (buf : Bytes) (pos : Nat) :
    LineParses s rest (parse glob commandRule none s)
      (parse glob commandRule none (s.rebuf buf pos)) := by
  have hopened := lexCommand_opened hstdin hcontent hfits htmpline buf pos
  have hold : yylex s.lexer = s.lexer.lexCommand := by
    unfold yylex
    rw [hstate]
  have hnew : yylex (s.rebuf buf pos).lexer =
      Lexer.lexCommand { s.lexer with cbuf := buf, cpos := pos } := by
    unfold yylex
    rw [show (s.rebuf buf pos).lexer.state = s.lexer.state from rfl, hstate]
    rfl
  unfold commandRule parse
  rw [hold, hnew]
  revert hopened
  generalize s.lexer.lexCommand = lexed
  generalize Lexer.lexCommand { s.lexer with cbuf := buf, cpos := pos } = lexed'
  intro hopened
  cases hopened with
  | stop state stdin tmpline more clean =>
    exact .stopped rfl stdin tmpline state more (congrArg (fun l => { s with lexer := l }) clean)
  | token served within stdin tmpline clean =>
    next c m n =>
    have hrule (u : Server) (hu : u.answered = 0) :
        (ruleOf c).Orderly u.login.loggedIn (seenOf none) u.answered := by
      rw [hu]
      exact ruleOf_orderly served
    have hm := parse_orderly glob (t := none) (s := { s with lexer := m }) (hrule _ hanswered)
      within
    have hn := parse_orderly glob (t := none) (s := { s with lexer := n }) (hrule _ hanswered)
      (within_of_clean within clean)
    have hsame : Server.clean { s with lexer := n } = Server.clean { s with lexer := m } :=
      congrArg (fun l => { s with lexer := l }) clean.symm
    rw [hsame] at hn
    exact lineParses_of_clean (s := { s with lexer := m }) rfl stdin tmpline hm hn

/-! ## A turn -/

def Server.forget (s : Server) : Server := s.rebuf [] 0

theorem rebuf_of_forget {u v : Server} (h : v.forget = u.forget) :
    v = u.rebuf v.lexer.cbuf v.lexer.cpos := by
  have hv : v = v.forget.rebuf v.lexer.cbuf v.lexer.cpos := rfl
  rw [h] at hv
  exact hv

theorem forget_of_clean {u v : Server} (h : u.clean = v.clean) : v.forget = u.forget := by
  have hforget : v.clean.forget = u.clean.forget := congrArg Server.forget h.symm
  exact hforget

theorem Action.forget {f : Server → Server} {n : Nat} (hf : Action f n) {u v : Server}
    (h : v.forget = u.forget) : (f v).forget = (f u).forget := by
  rw [rebuf_of_forget h, hf.rebuf]
  rfl

theorem yyerror_string {l m : Lexer} (h : cstring l.cbuf = cstring m.cbuf) :
    l.yyerror.string 0 = m.yyerror.string 0 := by
  have hset {k : Lexer} {i : Nat} (hi : i < (cstring k.cbuf).length) :
      cstring (k.cbuf.set i 0) = (cstring k.cbuf).take i := by
    have htake := take_cstring (Nat.le_of_lt hi)
    have hzero : (0 : UInt8) ∉ k.cbuf.take i := by
      rw [← htake]
      exact fun hmem => zero_not_mem_cstring k.cbuf (List.mem_of_mem_take hmem)
    have hle := (List.takeWhile_prefix (l := k.cbuf) (fun c => c ≠ 0)).length_le
    have hlt : i < k.cbuf.length := Nat.lt_of_lt_of_le hi hle
    rw [List.set_eq_take_append_cons_drop, if_pos hlt, cstring_append hzero, cstring_zero,
      List.append_nil, htake]
  have hl : l.string 0 = cstring l.cbuf := rfl
  have hm : m.string 0 = cstring l.cbuf := h.symm
  unfold Lexer.yyerror
  rw [hl, hm]
  cases hfind : (cstring l.cbuf).findIdx? (fun c => c == 10) with
  | none => exact h
  | some i =>
    have hi : i < (cstring l.cbuf).length := (List.findIdx?_eq_some_iff_getElem.mp hfind).1
    change cstring (l.cbuf.set i 0) = cstring (m.cbuf.set i 0)
    rw [hset hi, hset (h ▸ hi), h]

theorem yyerror_eq (s : Server) : s.yyerror =
    (s.rebuf s.lexer.yyerror.cbuf s.lexer.cpos).reply 500
      (ascii "'" ++ s.lexer.yyerror.string 0 ++ ascii "': command not understood.") := by
  have hkeeps : s.lexer.yyerror = { s.lexer with cbuf := s.lexer.yyerror.cbuf } := by
    unfold Lexer.yyerror
    split
    · rfl
    · rfl
  unfold Server.yyerror
  conv_lhs => rw [hkeeps]
  rfl

theorem yyerror_forget {u v : Server} (h : u.clean = v.clean) :
    v.yyerror.forget = u.yyerror.forget := by
  have hcbuf : u.clean.lexer.cbuf = v.clean.lexer.cbuf := congrArg (fun s => s.lexer.cbuf) h
  have htext := yyerror_string (l := v.lexer) (m := u.lexer) hcbuf.symm
  rw [yyerror_eq, yyerror_eq, htext]
  exact (reply_action (by decide) _).forget (u := u) (v := v) (forget_of_clean h)

def Parsed.turn : Parsed → Turn
  | .done turn => turn
  | .unexpected t s => recover (s.lexer.cbuf.length + 1) t s.yyerror

theorem parseCommand_eq (glob : Bytes → Option Bytes) (s : Server) :
    parseCommand glob s = (parse glob commandRule none s).turn := by
  unfold parseCommand
  split
  · next turn h => rw [h]; rfl
  · next t u h => rw [h]; rfl

/-- The parser is answered once: an error comes at the end of the line or in the scanner, before
anything has been sent. -/
def Parsed.isRegular (env : LineEnv) : Parsed → Bool
  | .done (.command c _) => c.isRegular env
  | .done (.stopped _ s) => decide (s.answered = 0)
  | .unexpected t s => decide (t = .CRLF) && decide (s.answered = 0)

theorem reset_action (c : Command) : Action (fun s => s.reset c) 0 :=
  Action.ite id_action
    (set_action _ (fun _ => rfl) (fun _ => Iff.rfl) (fun _ => rfl) (fun _ _ _ => rfl))

/-- What a turn should come to, in two buffers. -/
structure Answered (rest : Bytes) (t v : Server) : Prop where
  stdin : t.lexer.stdin = rest
  state : t.lexer.state = .CMD
  sound : t.Sound
  answered : t.answered = 1
  forget : v.forget = t.forget

theorem Action.answered {f : Server → Server} {n : Nat} (hf : Action f n) {u v : Server}
    {rest : Bytes} (hstdin : u.lexer.stdin = rest) (hstate : u.lexer.state = .CMD)
    (hsound : u.Sound) (hn : u.answered + n = 1) (hclean : u.clean = v.clean) :
    Answered rest (f u) (f v) where
  stdin := (hf.streams u).1.trans hstdin
  state := (hf.streams u).2.trans hstate
  sound := (hf.acts u hsound).1
  answered := (hf.acts u hsound).2.trans hn
  forget := hf.forget (forget_of_clean hclean)

theorem Answered.reset {rest : Bytes} {t v : Server} (h : Answered rest t v) (c : Command) :
    Answered rest (t.reset c) (v.reset c) where
  stdin := ((reset_action c).streams t).1.trans h.stdin
  state := ((reset_action c).streams t).2.trans h.state
  sound := ((reset_action c).acts t h.sound).1
  answered := ((reset_action c).acts t h.sound).2.trans h.answered
  forget := (reset_action c).forget h.forget

theorem recover_end (fuel : Nat) (s : Server) : recover fuel .CRLF s = .command .error s := by
  rw [recover.eq_def]

theorem yyerror_answered {u v : Server} {rest : Bytes} (hstdin : u.lexer.stdin = rest)
    (hstate : u.lexer.state = .CMD) (hsound : u.Sound) (hn : u.answered = 0)
    (hclean : u.clean = v.clean) : Answered rest u.yyerror v.yyerror where
  stdin := by rw [yyerror_eq]; exact hstdin
  state := by rw [yyerror_eq]; exact hstate
  sound := by rw [yyerror_eq]; exact hsound
  answered := by
    have hone : u.yyerror.answered = u.answered + 1 := finals_reply (by decide) _ _
    rw [hone, hn]
  forget := yyerror_forget hclean

theorem turn_answered {env : LineEnv} {s : Server} {rest : Bytes} {p q : Parsed}
    (h : LineParses s rest p q) (hregular : p.isRegular env = true) (hs : s.login.Sound) :
    Answered rest (finishTurn env p.turn) (finishTurn env q.turn) := by
  cases h with
  | command login stdin tmpline state completes clean =>
    next c u v =>
    have hsound : u.Sound := ⟨by rw [login]; exact hs, tmpline⟩
    have hone : u.answered + c.answers.toNat = 1 := by
      rcases completes with h | h
      · exact h
      · rw [h] at hregular
        exact absurd hregular Bool.false_ne_true
    exact ((execute_action hregular).comp (reset_action c)).answered stdin state hsound hone clean
  | stopped login stdin tmpline state more clean =>
    next why u v =>
    have hsound : u.Sound := ⟨by rw [login]; exact hs, tmpline⟩
    have hzero : u.answered = 0 := of_decide_eq_true hregular
    cases why with
    | lexical => exact yyerror_answered stdin state hsound hzero clean
    | unimplemented name =>
      exact (reply_action (by decide) _).answered stdin state hsound (by rw [hzero]) clean
    | eof => exact absurd rfl more
  | unexpected login stdin tmpline state clean =>
    next t u v =>
    have hsound : u.Sound := ⟨by rw [login]; exact hs, tmpline⟩
    have hparts : (decide (t = .CRLF) && decide (u.answered = 0)) = true := hregular
    rw [Bool.and_eq_true, decide_eq_true_iff, decide_eq_true_iff] at hparts
    obtain ⟨rfl, hzero⟩ := hparts
    change Answered rest (finishTurn env (recover _ .CRLF _)) (finishTurn env (recover _ .CRLF _))
    rw [recover_end, recover_end]
    exact (yyerror_answered stdin (state rfl) hsound hzero clean).reset .error

/-! ## A run -/

def controlLines (lines : List Bytes) : Bytes := lines.flatMap (fun line => line ++ [10])

/-- A turn takes one line, sends one final reply, and does the same whatever older lines have left
in the buffer. -/
structure OneLine (s : Server) (env : LineEnv) (t : Server) : Prop where
  line : ∃ line, 10 ∉ line ∧ s.lexer.stdin = line ++ 10 :: t.lexer.stdin
  reply : t.answered = 1
  alone : ∀ buf pos, ∃ v, commandCycle (s.rebuf buf pos) env = some v ∧ v.forget = t.forget

def Server.line (s : Server) : Bytes := s.lexer.stdin.takeWhile (fun c => c ≠ 10)

/-- The line fits into the buffer with its newline, its first word is not cut short by a NUL, and
it is answered once: its first error is one of the scanner or the end of the line, and comes
before a `check_login` has been answered; a `RNTO` comes with a path that can be expanded; and no
urgent signal and no failure without an error number is met. -/
def CleanLine (s : Server) (env : LineEnv) : Prop :=
  s.lexer.stdin ≠ [] → fits s.line = true ∧
    (parse env.glob commandRule none { s with replies := [] }).isRegular env = true

instance (s : Server) (env : LineEnv) : Decidable (CleanLine s env) :=
  inferInstanceAs (Decidable (_ → _ ∧ _))

/-- Between lines: the scanner expects a new one, and whole lines are left. -/
structure Between (s : Server) : Prop where
  state : s.lexer.state = .CMD
  sound : s.Sound
  lines : ∃ lines : List Bytes, (∀ line ∈ lines, 10 ∉ line) ∧ s.lexer.stdin = controlLines lines

theorem line_eq {s : Server} {content rest : Bytes} (hcontent : 10 ∉ content)
    (hstdin : s.lexer.stdin = content ++ 10 :: rest) : s.line = content := by
  unfold Server.line
  rw [hstdin, List.takeWhile_append_of_pos, List.takeWhile_cons_of_neg, List.append_nil]
  · exact fun h => of_decide_eq_true h rfl
  · intro c hc
    exact decide_eq_true (fun h => hcontent (h ▸ hc))

theorem commandCycle_line {s t : Server} {env : LineEnv} {content rest : Bytes} (hs : Between s)
    (hcontent : 10 ∉ content) (hstdin : s.lexer.stdin = content ++ 10 :: rest)
    (hclean : CleanLine s env) (h : commandCycle s env = some t) :
    OneLine s env t ∧ t.lexer.stdin = rest ∧ t.lexer.state = .CMD ∧ t.Sound := by
  have hne : s.lexer.stdin ≠ [] := by
    rw [hstdin]
    exact List.append_ne_nil_of_right_ne_nil _ (List.cons_ne_nil _ _)
  obtain ⟨hfits, hregular⟩ := hclean hne
  rw [line_eq hcontent hstdin] at hfits
  have hanswered (buf : Bytes) (pos : Nat) :
      Answered rest (finishTurn env (parseCommand env.glob { s with replies := [] }))
        (finishTurn env (parseCommand env.glob (Server.rebuf { s with replies := [] } buf pos))) := by
    rw [parseCommand_eq, parseCommand_eq]
    exact turn_answered (line_parses env.glob (s := { s with replies := [] }) hs.state hs.sound.2
      hstdin hcontent hfits rfl buf pos) hregular hs.sound.1
  unfold commandCycle at h
  split at h
  · exact absurd h.symm (Option.some_ne_none t)
  · next hhere =>
    obtain rfl := Option.some.inj h
    have hone := hanswered [] 0
    refine ⟨⟨⟨content, hcontent, by rw [hone.stdin]; exact hstdin⟩, hone.answered, fun buf pos => ?_⟩,
      hone.stdin, hone.state, hone.sound⟩
    exact ⟨_, if_neg hhere, (hanswered buf pos).forget⟩

theorem commandCycle_end {s t : Server} {env : LineEnv} (hs : Between s)
    (hstdin : s.lexer.stdin = []) (h : commandCycle s env = some t) : t.login.exited = true := by
  have hget : getline 511 s.lexer.tmpline s.lexer.stdin = ⟨[], [], [], true⟩ := by
    rw [hs.sound.2, hstdin]
    rfl
  have hyylex : ∃ l, yylex s.lexer = .error (.eof, l) := by
    unfold yylex
    rw [hs.state]
    dsimp only
    unfold Lexer.lexCommand
    dsimp only
    rw [hget]
    exact ⟨_, rfl⟩
  obtain ⟨l, hl⟩ := hyylex
  have hparse : parseCommand env.glob { s with replies := [] } =
      .stopped .eof { s with replies := [], lexer := l } := by
    rw [parseCommand_eq]
    unfold commandRule parse
    dsimp only
    rw [hl]
    rfl
  unfold commandCycle at h
  split at h
  · exact absurd h.symm (Option.some_ne_none t)
  · obtain rfl := Option.some.inj h
    rw [hparse]
    rfl

theorem commandCycle_between {s t : Server} {env : LineEnv}
    (hs : s.login.exited = true ∨ Between s) (hclean : CleanLine s env)
    (h : commandCycle s env = some t) : t.login.exited = true ∨ Between t := by
  rcases hs with hexited | hs
  · unfold commandCycle at h
    rw [if_pos (Or.inl hexited)] at h
    exact absurd h.symm (Option.some_ne_none t)
  · obtain ⟨lines, hlines, hstdin⟩ := hs.lines
    cases lines with
    | nil => exact Or.inl (commandCycle_end hs hstdin h)
    | cons line lines =>
      have hnext : s.lexer.stdin = line ++ 10 :: controlLines lines := by
        rw [hstdin, controlLines, List.flatMap_cons, List.append_assoc]
        rfl
      obtain ⟨-, hrest, hstate, hsound⟩ :=
        commandCycle_line hs (hlines line List.mem_cons_self) hnext hclean h
      exact Or.inr ⟨hstate, hsound, lines, fun l hl => hlines l (List.mem_cons_of_mem line hl), hrest⟩

theorem between_start (hisAddr : Data.Address) (portcheck : Bool) (hostname : Bytes)
    {lines : List Bytes} (hlines : ∀ line ∈ lines, 10 ∉ line) :
    Between (Server.start hisAddr portcheck hostname (controlLines lines)) where
  state := rfl
  sound := ⟨fun h => absurd h Bool.false_ne_true, rfl⟩
  lines := ⟨lines, hlines, rfl⟩

/-- In a run of clean lines every turn takes one line and answers it once. -/
theorem oneLine_of_clean (hisAddr : Data.Address) (portcheck : Bool) (hostname : Bytes)
    (lines : List Bytes) (hlines : ∀ line ∈ lines, 10 ∉ line) (envs : List LineEnv)
    (hclean : Steps CleanLine commandCycle
      (Server.start hisAddr portcheck hostname (controlLines lines)) envs)
    (pre : List LineEnv) (env : LineEnv) {s t : Server} (hpre : pre ++ [env] <+: envs)
    (hs : run commandCycle (Server.start hisAddr portcheck hostname (controlLines lines)) pre =
      some s)
    (ht : commandCycle s env = some t) (hmore : s.lexer.stdin ≠ []) : OneLine s env t := by
  have hreached : Reached commandCycle
      (Server.start hisAddr portcheck hostname (controlLines lines)) envs s :=
    ⟨pre, (List.prefix_append pre [env]).trans hpre, hs⟩
  have hline : CleanLine s env := steps_iff_front.mp hclean pre env hpre s hs
  rcases steps_reached (I := fun s => s.login.exited = true ∨ Between s)
    (fun _ _ _ hs hok hstep => commandCycle_between hs hok hstep)
    (Or.inr (between_start hisAddr portcheck hostname hlines)) hclean hreached with hexited | hbetween
  · unfold commandCycle at ht
    rw [if_pos (Or.inl hexited)] at ht
    exact absurd ht.symm (Option.some_ne_none t)
  · obtain ⟨rest, hrest, hstdin⟩ := hbetween.lines
    cases rest with
    | nil => exact absurd hstdin hmore
    | cons line rest =>
      have hnext : s.lexer.stdin = line ++ 10 :: controlLines rest := by
        rw [hstdin, controlLines, List.flatMap_cons, List.append_assoc]
        rfl
      exact (commandCycle_line hbetween (hrest line List.mem_cons_self) hnext hline ht).1

/-! ## An error in the middle of a line -/

/-- A client that asks for the directory and then for a command that nobody knows. -/
def asking : List Bytes := [ascii "USER joe\r", ascii "PASS j\r", ascii "PWD\r", ascii "FOO\r"]

theorem oneLine_asking : ∃ s t,
    run commandCycle (Server.start Data.client true (ascii "site") (controlLines asking))
      (List.replicate 2 obliging) = some s ∧ OneLine s obliging t :=
  ⟨(run commandCycle (Server.start Data.client true (ascii "site") (controlLines asking))
      (List.replicate 2 obliging)).getD (serve ""),
    (run commandCycle (Server.start Data.client true (ascii "site") (controlLines asking))
      (List.replicate 3 obliging)).getD (serve ""), by decide +kernel,
    oneLine_of_clean Data.client true (ascii "site") asking (by decide +kernel)
      (List.replicate 4 obliging) (by decide +kernel) (List.replicate 2 obliging) obliging
      ⟨[obliging], rfl⟩ (by decide +kernel) (by decide +kernel) (by decide +kernel)⟩

/-- A parameter too many: `yyerror` takes the newline away, so that the line has no end any more,
and it is answered twice. -/
def typing : List Bytes := [ascii "USER joe\r", ascii "PASS j\r", ascii "TYPE A B\r"]

theorem not_oneLine_typing : ∃ s t,
    run commandCycle (Server.start Data.client true (ascii "site") (controlLines typing))
      (List.replicate 2 obliging) = some s ∧ commandCycle s obliging = some t ∧
    s.lexer.stdin ≠ [] ∧ ¬ OneLine s obliging t := by
  refine ⟨(run commandCycle (Server.start Data.client true (ascii "site") (controlLines typing))
      (List.replicate 2 obliging)).getD (serve ""),
    (run commandCycle (Server.start Data.client true (ascii "site") (controlLines typing))
      (List.replicate 3 obliging)).getD (serve ""), by decide +kernel, by decide +kernel,
    by decide +kernel, fun h => ?_⟩
  have htwo : Server.answered ((run commandCycle
      (Server.start Data.client true (ascii "site") (controlLines typing))
      (List.replicate 3 obliging)).getD (serve "")) = 2 := by decide +kernel
  exact absurd (htwo.symm.trans h.reply) (by decide)

end Netkit.Ftpd

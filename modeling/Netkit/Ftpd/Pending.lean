import Netkit.Ftpd.Server
import Netkit.Ftpd.Transfers

/-!
# REST and RNFR

The values of `REST` and `RNFR` are meant for the next line. `cmd_list` resets them behind every
command, but a line that the scanner gives up never comes to `cmd_list`.

* `fitting_iff_careful`: the runs in which that is so.
-/

namespace Netkit.Ftpd

open Netkit.Foundations

/-! ## What a line does -/

/-- An accepted `REST`. -/
def Command.restarts : Command → Option Int
  | .rest true offset => some offset
  | _ => none

/-- An accepted `RNFR`. -/
def Command.renames (env : LineEnv) : Command → Option Bytes
  | .rnfr true (some path) => if env.stat.isSome then some path else none
  | _ => none

def Command.isTransfer : Command → Bool
  | .retr true (some _) => true
  | .stor true (some _) => true
  | .appe true (some _) => true
  | .stou true (some _) => true
  | _ => false

def Command.isRename : Command → Bool
  | .rnto true _ => true
  | _ => false

/-- The server, and of the last line: the offset or the name that it has left for the next one,
and the offset or the name that it has used, with what the line before had left. -/
structure Watch where
  server : Server
  restarted : Option Int
  named : Option Bytes
  started : Option (Int × Option Int)
  renamed : Option (Bytes × Option Bytes)
deriving DecidableEq

def Watch.turn (w : Watch) (env : LineEnv) (t : Turn) : Watch :=
  match t with
  | .command c s =>
    { server := finishTurn env t
      restarted := c.restarts
      named := c.renames env
      started := if c.isTransfer then some (s.data.restartPoint, w.restarted) else none
      renamed := if c.isRename then s.fromname.map (fun name => (name, w.named)) else none }
  | .stopped .eof _ => { w with server := finishTurn env t, started := none, renamed := none }
  | .stopped _ _ => ⟨finishTurn env t, none, none, none, none⟩

def watchStep (w : Watch) (env : LineEnv) : Option Watch :=
  if w.server.login.exited ∨ w.server.data.astray then none
  else some (w.turn env (parseCommand env.glob { w.server with replies := [] }))

def Server.Settled (s : Server) : Prop := s.data.restartPoint = 0 ∧ s.fromname = none

def Watch.start (s : Server) : Watch := ⟨s, none, none, none, none⟩

/-- A transfer starts at an offset, and a name is renamed, only as the line before has said; what
is left for the next line has been left by this one. -/
structure Fitting (w : Watch) : Prop where
  started : ∀ use ∈ w.started, use.1 ≠ 0 → use.2 = some use.1
  renamed : ∀ use ∈ w.renamed, use.2 = some use.1
  restart : w.server.data.restartPoint ≠ 0 → w.restarted = some w.server.data.restartPoint
  fromname : ∀ name ∈ w.server.fromname, w.named = some name

/-- The lines that reset what the line before has left, or find nothing left. -/
def CarefulTurn (s : Server) : Turn → Prop
  | .command (.rnfr l path) _ => l = true ∧ path.isSome ∨ s.fromname = none
  | .command (.rest l _) _ => l = true ∨ s.Settled
  | .command _ _ => True
  | .stopped .eof _ => True
  | .stopped _ _ => s.Settled

instance (s : Server) : Decidable s.Settled :=
  inferInstanceAs (Decidable (s.data.restartPoint = 0 ∧ s.fromname = none))

instance (s : Server) : (t : Turn) → Decidable (CarefulTurn s t)
  | .stopped .eof _ => isTrue trivial
  | .stopped .lexical _ => inferInstanceAs (Decidable s.Settled)
  | .stopped (.unimplemented _) _ => inferInstanceAs (Decidable s.Settled)
  | .command c _ =>
    match c with
    | .rnfr l path => inferInstanceAs (Decidable (l = true ∧ path.isSome ∨ s.fromname = none))
    | .rest l _ => inferInstanceAs (Decidable (l = true ∨ s.Settled))
    | .user _ | .pass _ | .port _ _ | .pasv _ | .type _ _ | .stru _ _ | .mode _ _ | .allo _
    | .retr _ _ | .stor _ _ | .appe _ _ | .nlst _ _ | .list _ _ | .stat _ _ | .dele _ _
    | .rnto _ _ | .abor _ | .cwd _ _ | .help _ | .noop | .mkd _ _ | .rmd _ _ | .pwd _ | .cdup _
    | .siteHelp _ | .siteUmask _ _ | .siteChmod _ _ _ | .siteIdle _ _ | .stou _ _ | .syst _
    | .size _ _ | .mdtm _ _ | .quit | .error => isTrue trivial

/-- A line that ends in an error of the scanner or in a command that is not implemented, or a
`REST` or an `RNFR` that is refused before its value is stored, comes only when nothing is
left. -/
def CarefulLine (w : Watch) (env : LineEnv) : Prop :=
  w.server.login.exited = false → w.server.data.astray = false →
    CarefulTurn w.server (parseCommand env.glob { w.server with replies := [] })

instance (w : Watch) (env : LineEnv) : Decidable (CarefulLine w env) :=
  inferInstanceAs (Decidable (_ → _ → _))

/-! ## The parser leaves the values alone -/

/-- The values that `REST` and `RNFR` leave are the same. -/
def SamePending (s t : Server) : Prop :=
  t.data.restartPoint = s.data.restartPoint ∧ t.fromname = s.fromname

theorem SamePending.trans {s t u : Server} (hst : SamePending s t) (htu : SamePending t u) :
    SamePending s u :=
  ⟨htu.1.trans hst.1, htu.2.trans hst.2⟩

def Turn.server : Turn → Server
  | .command _ s => s
  | .stopped _ s => s

def Parsed.server : Parsed → Server
  | .done turn => turn.server
  | .unexpected _ s => s

theorem checkLogin_same (s : Server) : SamePending s s.checkLogin := by
  unfold Server.checkLogin
  split <;> exact ⟨rfl, rfl⟩

theorem pathname_same (s : Server) (glob : Bytes → Option Bytes) (p : Bytes) :
    SamePending s (s.pathname glob p).2 := by
  unfold Server.pathname
  split
  · split <;> exact ⟨rfl, rfl⟩
  · exact ⟨rfl, rfl⟩

theorem parse_same (glob : Bytes → Option Bytes) (r : Rule) (t : Option Token) (s : Server) :
    SamePending s (parse glob r t s).server := by
  induction r generalizing t s with
  | look next ih =>
    cases t with
    | some t => exact ih t (some t) s
    | none =>
      unfold parse
      split
      · next t l _ => exact ih t (some t) { s with lexer := l }
      · exact ⟨rfl, rfl⟩
  | shift next ih =>
    unfold parse
    exact ih none s
  | check next ih =>
    unfold parse
    exact (checkLogin_same s).trans (ih s.login.loggedIn t s.checkLogin)
  | path p next ih =>
    unfold parse
    exact (pathname_same s glob p).trans (ih _ t (s.pathname glob p).2)
  | hostPort n next ih =>
    unfold parse
    exact ih t (s.hostPort n)
  | reduce c =>
    unfold parse
    exact ⟨rfl, rfl⟩
  | fail =>
    unfold parse
    exact ⟨rfl, rfl⟩

theorem recover_same (fuel : Nat) (t : Token) (s : Server) :
    SamePending s (recover fuel t s).server := by
  fun_induction recover fuel t s with
  | case1 fuel s => exact ⟨rfl, rfl⟩
  | case2 s t ht => exact ⟨rfl, rfl⟩
  | case3 s fuel t ht u l h ih => exact ih
  | case4 s fuel t ht why l h => exact ⟨rfl, rfl⟩

theorem parseCommand_same (glob : Bytes → Option Bytes) (s : Server) :
    SamePending s (parseCommand glob s).server := by
  have hparse := parse_same glob commandRule none s
  unfold parseCommand
  split
  · next turn hturn =>
    rw [hturn] at hparse
    exact hparse
  · next t u hu =>
    rw [hu] at hparse
    have hyyerror : SamePending u u.yyerror := ⟨rfl, rfl⟩
    exact (hparse.trans hyyerror).trans (recover_same _ t u.yyerror)

/-! ## A turn -/

theorem reset_settled {c : Command} (hrcmd : c.isRcmd = false) (s : Server) :
    (s.reset c).Settled := by
  unfold Server.reset
  rw [hrcmd]
  exact ⟨rfl, rfl⟩

theorem fitting_of_settled {w : Watch} (hsettled : w.server.Settled)
    (hstarted : ∀ use ∈ w.started, use.1 ≠ 0 → use.2 = some use.1)
    (hrenamed : ∀ use ∈ w.renamed, use.2 = some use.1) : Fitting w where
  started := hstarted
  renamed := hrenamed
  restart := fun hne => absurd hsettled.1 hne
  fromname := fun name hname => by
    rw [hsettled.2] at hname
    exact absurd hname (Option.not_mem_none name)

theorem started_fits {w : Watch} (hw : Fitting w) {s : Server} (hsame : SamePending w.server s)
    (transfer : Bool) :
    ∀ use ∈ (if transfer then some (s.data.restartPoint, w.restarted) else none),
      use.1 ≠ 0 → use.2 = some use.1 := by
  intro use huse hne
  cases transfer with
  | false => exact absurd huse (Option.not_mem_none use)
  | true =>
    obtain rfl := Option.some.inj huse
    change w.restarted = some s.data.restartPoint
    rw [hsame.1]
    exact hw.restart (fun hzero => hne (hsame.1.trans hzero))

theorem renamed_fits {w : Watch} (hw : Fitting w) {s : Server} (hsame : SamePending w.server s)
    (rename : Bool) :
    ∀ use ∈ (if rename then s.fromname.map (fun name => (name, w.named)) else none),
      use.2 = some use.1 := by
  intro use huse
  cases rename with
  | false => exact absurd huse (Option.not_mem_none use)
  | true =>
    obtain ⟨name, hname, rfl⟩ := Option.mem_map.mp huse
    rw [hsame.2] at hname
    exact hw.fromname name hname

theorem left_fitting {w : Watch} {s : Server} (v : Watch) (hrestarted : v.restarted = none)
    (hnamed : v.named = none) (hstarted : v.started = none) (hrenamed : v.renamed = none)
    (hsame : SamePending w.server s) (hv : SamePending s v.server) :
    Fitting v ↔ w.server.Settled := by
  obtain ⟨hrestart, hname⟩ := hsame.trans hv
  constructor
  · intro hfitting
    constructor
    · by_contra hne
      rw [← hrestart] at hne
      exact absurd (hrestarted.symm.trans (hfitting.restart hne)) (Option.some_ne_none _).symm
    · cases hleft : w.server.fromname with
      | none => rfl
      | some name =>
        have hmem : name ∈ v.server.fromname := hname.trans hleft
        exact absurd (hnamed.symm.trans (hfitting.fromname name hmem)) (Option.some_ne_none _).symm
  · intro hsettled
    refine fitting_of_settled ⟨hrestart.trans hsettled.1, hname.trans hsettled.2⟩ ?_ ?_
    · rw [hstarted]
      exact fun use huse => absurd huse (Option.not_mem_none use)
    · rw [hrenamed]
      exact fun use huse => absurd huse (Option.not_mem_none use)

/-- The commands that are followed by no reset are `RNFR` and `REST`. -/
theorem isRcmd_cases {c : Command} (h : c.isRcmd = true) :
    (∃ l path, c = .rnfr l path) ∨ ∃ l offset, c = .rest l offset := by
  cases c with
  | rnfr l path => exact Or.inl ⟨l, path, rfl⟩
  | rest l offset => exact Or.inr ⟨l, offset, rfl⟩
  | _ => exact absurd h Bool.false_ne_true

theorem carefulTurn_of_reset {c : Command} (h : c.isRcmd = false) (s t : Server) :
    CarefulTurn s (.command c t) := by
  cases c with
  | rnfr l path => exact absurd h.symm Bool.false_ne_true
  | rest l offset => exact absurd h.symm Bool.false_ne_true
  | _ => trivial

theorem rnfr_accepted (s : Server) (env : LineEnv) (path : Bytes) :
    (s.rnfr env true (some path)).data.restartPoint = 0 ∧
      (s.rnfr env true (some path)).fromname = Command.renames env (.rnfr true (some path)) := by
  unfold Server.rnfr Server.renamefrom Command.renames
  cases env.stat with
  | none => exact ⟨rfl, rfl⟩
  | some st => exact ⟨rfl, rfl⟩

/-- An `RNFR` that comes to no file leaves the name before it as it is. -/
theorem rnfr_refused (s : Server) (env : LineEnv) {l : Bool} {path : Option Bytes}
    (h : ¬ (l = true ∧ path.isSome)) :
    (s.rnfr env l path).data.restartPoint = 0 ∧ (s.rnfr env l path).fromname = s.fromname ∧
      Command.renames env (.rnfr l path) = none := by
  unfold Server.rnfr Command.renames
  cases path with
  | none => cases l with
    | true => exact ⟨rfl, rfl, rfl⟩
    | false => exact ⟨rfl, rfl, rfl⟩
  | some path => cases l with
    | true => exact absurd ⟨rfl, rfl⟩ h
    | false => exact ⟨rfl, rfl, rfl⟩

theorem rnfr_fitting {w : Watch} (env : LineEnv) {l : Bool} {path : Option Bytes} {s : Server}
    (hsame : SamePending w.server s) :
    Fitting (w.turn env (.command (.rnfr l path) s)) ↔
      CarefulTurn w.server (.command (.rnfr l path) s) := by
  have hfrom : ∀ name ∈ s.fromname, w.server.fromname = some name := fun name hname =>
    hsame.2.symm.trans hname
  by_cases h : l = true ∧ path.isSome
  · obtain ⟨rfl, hpath⟩ := h
    obtain ⟨path, rfl⟩ := Option.isSome_iff_exists.mp hpath
    obtain ⟨hrestart, hname⟩ := rnfr_accepted s env path
    refine iff_of_true ⟨fun use huse => absurd huse (Option.not_mem_none use),
      fun use huse => absurd huse (Option.not_mem_none use), fun hne => absurd hrestart hne,
      fun name hmem => ?_⟩ (Or.inl ⟨rfl, rfl⟩)
    exact hname.symm.trans hmem
  · obtain ⟨hrestart, hname, hnamed⟩ := rnfr_refused s env h
    constructor
    · intro hfitting
      refine Or.inr ?_
      cases hleft : w.server.fromname with
      | none => rfl
      | some name =>
        have hmem : name ∈ (s.rnfr env l path).fromname := hname.trans (hsame.2.trans hleft)
        exact absurd (hnamed.symm.trans (hfitting.fromname name hmem)) (Option.some_ne_none _).symm
    · rintro (hl | hnone)
      · exact absurd hl h
      · exact fitting_of_settled ⟨hrestart, hname.trans (hsame.2.trans hnone)⟩
          (fun use huse => absurd huse (Option.not_mem_none use))
          (fun use huse => absurd huse (Option.not_mem_none use))

theorem rest_fitting {w : Watch} (env : LineEnv) {l : Bool} {offset : Int} {s : Server}
    (hsame : SamePending w.server s) :
    Fitting (w.turn env (.command (.rest l offset) s)) ↔
      CarefulTurn w.server (.command (.rest l offset) s) := by
  cases l with
  | true =>
    refine iff_of_true ⟨fun use huse => absurd huse (Option.not_mem_none use),
      fun use huse => absurd huse (Option.not_mem_none use), fun _ => rfl,
      fun name hmem => absurd hmem (Option.not_mem_none name)⟩ (Or.inl rfl)
  | false =>
    have hleft := left_fitting (w.turn env (.command (.rest false offset) s)) rfl rfl rfl rfl hsame
      ⟨rfl, rfl⟩
    exact hleft.trans ⟨fun h => Or.inr h, fun h => h.resolve_left Bool.false_ne_true⟩

theorem turn_fitting {w : Watch} (env : LineEnv) (hw : Fitting w) {t : Turn}
    (hsame : SamePending w.server t.server) :
    Fitting (w.turn env t) ↔ CarefulTurn w.server t := by
  cases t with
  | command c s =>
    cases hrcmd : c.isRcmd with
    | true =>
      rcases isRcmd_cases hrcmd with ⟨l, path, rfl⟩ | ⟨l, offset, rfl⟩
      · exact rnfr_fitting env hsame
      · exact rest_fitting env hsame
    | false =>
      have hsettled : (w.turn env (.command c s)).server.Settled := reset_settled hrcmd _
      exact iff_of_true (fitting_of_settled hsettled (started_fits hw hsame c.isTransfer)
        (renamed_fits hw hsame c.isRename)) (carefulTurn_of_reset hrcmd _ _)
  | stopped why s =>
    cases why with
    | lexical => exact left_fitting _ rfl rfl rfl rfl hsame ⟨rfl, rfl⟩
    | unimplemented name => exact left_fitting _ rfl rfl rfl rfl hsame ⟨rfl, rfl⟩
    | eof =>
      refine iff_of_true ⟨fun use huse => absurd huse (Option.not_mem_none use),
        fun use huse => absurd huse (Option.not_mem_none use), fun hne => ?_, fun name hmem => ?_⟩
        trivial
      · exact (hw.restart (fun hzero => hne (hsame.1.trans hzero))).trans
          (congrArg some hsame.1.symm)
      · exact hw.fromname name (hsame.2.symm.trans hmem)

theorem watchStep_fitting {w : Watch} (env : LineEnv) (hw : Fitting w) :
    CarefulLine w env ↔ ∀ v, watchStep w env = some v → Fitting v := by
  have hsame : SamePending w.server
      (parseCommand env.glob { w.server with replies := [] }).server :=
    parseCommand_same env.glob { w.server with replies := [] }
  unfold CarefulLine watchStep
  by_cases hgone : w.server.login.exited ∨ w.server.data.astray
  · rw [if_pos hgone]
    refine iff_of_true (fun hexited hastray => ?_) (fun v hv => absurd hv.symm (Option.some_ne_none v))
    rcases hgone with h | h
    · exact absurd (hexited.symm.trans h) Bool.false_ne_true
    · exact absurd (hastray.symm.trans h) Bool.false_ne_true
  · rw [if_neg hgone]
    rw [not_or, Bool.not_eq_true, Bool.not_eq_true] at hgone
    constructor
    · intro hcareful v hv
      obtain rfl := Option.some.inj hv
      exact (turn_fitting env hw hsame).mpr (hcareful hgone.1 hgone.2)
    · intro hfitting _ _
      exact (turn_fitting env hw hsame).mp (hfitting _ rfl)

/-- What `REST` and `RNFR` leave is used by the next line only, and left by the last one only,
exactly in the runs in which every line is careful. -/
theorem fitting_iff_careful (s : Server) (hs : s.Settled) (envs : List LineEnv) :
    Steps CarefulLine watchStep (Watch.start s) envs ↔
      ∀ w, Reached watchStep (Watch.start s) envs w → Fitting w :=
  steps_iff_reached (fun _ env hw => watchStep_fitting env hw)
    (fitting_of_settled hs (fun use huse => absurd huse (Option.not_mem_none use))
      (fun use huse => absurd huse (Option.not_mem_none use)))

/-! ## A REST two lines before -/

/-- The system does what it is asked, for the accounts of `ftpsite`. -/
def obliging : LineEnv where
  database := ftpsite
  login := allWell
  glob := some
  file := Data.sendWell
  list := ⟨.found, [], Data.connectWell, false, [], Data.sendWell⟩
  passive := Data.passiveWell
  unique := .unused
  stat := some ⟨false, true, 5, ascii "20000101000000"⟩
  call := true
  getcwd := some (ascii "/")
  message := []
  fopen := true
  asciiSize := 5
  ferror := false
  strerror := []
  tmpline := []

def serve (lines : String) : Server := Server.start Data.client true (ascii "site") (ascii lines)

theorem fitting_restart : ∃ w,
    run watchStep (Watch.start (serve "USER joe\nPASS j\nREST 100\nRETR motd\n"))
      (List.replicate 4 obliging) = some w ∧
    w.started = some (100, some 100) ∧ Fitting w := by
  refine ⟨(run watchStep
    (Watch.start (serve "USER joe\nPASS j\nREST 100\nRETR motd\n"))
      (List.replicate 4 obliging)).getD (Watch.start (serve "")), by decide +kernel,
    by decide +kernel, ?_⟩
  have hfitting := (fitting_iff_careful (serve "USER joe\nPASS j\nREST 100\nRETR motd\n")
    ⟨rfl, rfl⟩ (List.replicate 4 obliging)).mp (by decide +kernel)
  exact hfitting _ ⟨_, List.prefix_rfl, by decide +kernel⟩

/-- The scanner does not know `FOO`, and `RETR` still starts where `REST` has said. -/
theorem not_fitting_unknown : ∃ w,
    run watchStep (Watch.start (serve "USER joe\nPASS j\nREST 100\nFOO\nRETR motd\n"))
      (List.replicate 5 obliging) = some w ∧
    w.started = some (100, none) ∧ ¬ Fitting w := by
  refine ⟨(run watchStep
    (Watch.start (serve "USER joe\nPASS j\nREST 100\nFOO\nRETR motd\n"))
      (List.replicate 5 obliging)).getD (Watch.start (serve "")), by decide +kernel,
    by decide +kernel, fun h => ?_⟩
  have huse := h.started (100, none) (by decide +kernel) (by decide)
  exact absurd huse.symm (Option.some_ne_none _)

end Netkit.Ftpd

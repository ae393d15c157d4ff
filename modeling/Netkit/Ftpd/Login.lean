import Netkit.Foundations.Lines
import Netkit.Foundations.Runs

/-!
# USER and PASS

How a session of ftpd comes to be logged in. `USER` looks the account up and says whether a
password is wanted; `PASS` checks it against the account that `USER` left behind.

* `sound_iff_careful`: a run is sound exactly when no `USER` is refused in the two ways that
  leave an earlier account behind, while one waits for its password.
-/

namespace Netkit.Ftpd

open Netkit.Foundations

/-! ## Replies -/

/-- A reply, or with `more` a line of one that goes on. -/
structure Reply where
  code : Nat
  text : Bytes
  more : Bool
deriving DecidableEq

/-! ## Accounts -/

/-- `struct passwd`, with the password of the shadow file where there is one. -/
structure Passwd where
  pwName : Bytes
  pwPasswd : Bytes
  pwDir : Bytes
  pwShell : Bytes
deriving DecidableEq

/-- What ftpd consults: the account database, the shells of `getusershell`, the two files of
names, the option `-A` and `crypt`. -/
structure Database where
  getpwnam : Bytes → Option Passwd
  usershells : List Bytes
  ftpusers : Option Bytes
  ftpchroot : Option Bytes
  anonOnly : Bool
  crypt : Bytes → Bytes → Bytes

/-- A line of a file of names: it must end with a newline within the buffer. -/
def checkline (line name : Bytes) : Bool :=
  let s := cstring line
  decide (10 ∈ s) && decide (s.head? ≠ some 35) && s.takeWhile (fun c => c ≠ 10) == name

def checkuser (file : Option Bytes) (name : Bytes) : Bool :=
  match file with
  | none => false
  | some text => (chunks 8191 text []).any (fun line => checkline line name)

def isAnonymous (name : Bytes) : Bool := name == ascii "ftp" || name == ascii "anonymous"

def validShell (db : Database) (pw : Passwd) : Bool :=
  db.usershells.contains (if pw.pwShell = [] then ascii "/bin/sh" else pw.pwShell)

/-! ## The session -/

/-- Who has been logged in: the account, whether as a guest, the password that was given, and
the name of the `USER` command right before. -/
structure Login where
  account : Passwd
  guest : Bool
  password : Bytes
  user : Option Bytes
deriving DecidableEq

/-- `user` is the name of the last command if that was a `USER`, and `granted` says whom the
last command has logged in; no code reads them. -/
structure Session where
  pw : Option Passwd
  askpasswd : Bool
  guest : Bool
  loggedIn : Bool
  dochroot : Bool
  loginAttempts : Nat
  exited : Bool
  replies : List Reply
  user : Option Bytes
  granted : Option Login
deriving DecidableEq

def Session.start : Session where
  pw := none
  askpasswd := false
  guest := false
  loggedIn := false
  dochroot := false
  loginAttempts := 0
  exited := false
  replies := []
  user := none
  granted := none

def Session.reply (s : Session) (code : Nat) (text : Bytes) : Session :=
  { s with replies := s.replies ++ [⟨code, text, false⟩] }

def Session.lreply (s : Session) (code : Nat) (text : Bytes) : Session :=
  { s with replies := s.replies ++ [⟨code, text, true⟩] }

def endLogin (s : Session) : Session :=
  { s with pw := none, loggedIn := false, guest := false, dochroot := false }

/-! ## USER -/

/-- `USER ftp` and `USER anonymous`. -/
def anonymousUser (db : Database) (name : Bytes) (s : Session) : Session :=
  if checkuser db.ftpusers (ascii "ftp") ∨ checkuser db.ftpusers (ascii "anonymous") then
    s.reply 530 (ascii "User " ++ name ++ ascii " access denied.")
  else
    match db.getpwnam (ascii "ftp") with
    | some pw =>
      { s with pw := some pw, guest := true, askpasswd := true }.reply 331
        (ascii "Guest login ok, type your name as password.")
    | none =>
      { s with pw := none }.reply 530 (ascii "User " ++ name ++ ascii " unknown.")

/-- The rest of `user`, for any other name. -/
def namedUser (db : Database) (name : Bytes) (s : Session) : Session :=
  if db.anonOnly ∧ checkuser db.ftpchroot name = false then
    s.reply 530 (ascii "Sorry, only anonymous ftp allowed.")
  else if (db.getpwnam name).any (fun pw =>
      !validShell db pw || checkuser db.ftpusers name) then
    { s with pw := none }.reply 530 (ascii "User " ++ name ++ ascii " access denied.")
  else
    { s with pw := db.getpwnam name, askpasswd := true }.reply 331
      (ascii "Password required for " ++ name ++ ascii ".")

def resetLogin (s : Session) : Session :=
  { if s.loggedIn then endLogin s else s with guest := false }

def user (db : Database) (name : Bytes) (s : Session) : Session :=
  if s.loggedIn ∧ s.guest then s.reply 530 (ascii "Can't change user from guest login.")
  else if s.loggedIn ∧ s.dochroot then
    s.reply 530 (ascii "Can't change user from chroot user.")
  else if isAnonymous name then anonymousUser db name (resetLogin s)
  else namedUser db name (resetLogin s)

/-! ## PASS -/

/-- What the system says during a `PASS`: the age of the account, the calls of the login, and
the lines of the login message. -/
structure LoginEnv where
  isexpired : Nat
  setegid : Bool
  chroot : Bool
  chdirHome : Bool
  chdirRoot : Bool
  seteuid : Bool
  message : List Bytes
deriving DecidableEq

def passwordOk (db : Database) (pw : Passwd) (passwd : Bytes) : Bool :=
  db.crypt passwd pw.pwPasswd == pw.pwPasswd && pw.pwPasswd != []

def loginIncorrect (s : Session) : Session :=
  { s.reply 530 (ascii "Login incorrect.") with
    pw := none, loginAttempts := s.loginAttempts + 1, exited := decide (5 ≤ s.loginAttempts) }

def welcome (env : LoginEnv) (pw : Passwd) (s : Session) : Session :=
  let s := env.message.foldl (fun s line => s.lreply 230 line) s
  s.reply 230 (if s.guest then ascii "Guest login ok, access restrictions apply."
    else ascii "User " ++ pw.pwName ++ ascii " logged in.")

def enterHome (env : LoginEnv) (pw : Passwd) (s : Session) : Session :=
  if s.guest ∧ !env.chroot then
    endLogin (s.reply 550 (ascii "Can't set guest privileges."))
  else if !s.guest ∧ s.dochroot ∧ !env.chroot then
    endLogin (s.reply 550 (ascii "Can't change root."))
  else if !s.guest ∧ !s.dochroot ∧ !env.chdirHome ∧ !env.chdirRoot then
    endLogin (s.reply 530
      (ascii "User " ++ pw.pwName ++ ascii ": can't change directory to " ++ pw.pwDir ++ ascii "."))
  else
    let s := if !s.guest ∧ !s.dochroot ∧ !env.chdirHome then
      s.lreply 230 (ascii "No directory! Logging in with home=/") else s
    if !env.seteuid then endLogin (s.reply 550 (ascii "Can't set uid."))
    else welcome env pw s

/-- The second half of `pass`, when the password has been accepted. -/
def enterSession (db : Database) (env : LoginEnv) (passwd : Bytes) (pw : Passwd)
    (s : Session) : Session :=
  let s := { s with loginAttempts := 0 }
  if env.isexpired = 1 then
    s.reply 530 (ascii "Please change your password and try again.")
  else if env.isexpired = 2 then
    s.reply 530 (ascii "Login inactive -- contact administrator.")
  else if env.isexpired = 3 then
    s.reply 530 (ascii "Account expired -- contact administrator.")
  else if !env.setegid then s.reply 550 (ascii "Can't set gid.")
  else
    enterHome env pw { s with
      loggedIn := true
      granted := some ⟨pw, s.guest, passwd, s.user⟩
      dochroot := checkuser db.ftpchroot pw.pwName }

def pass (db : Database) (env : LoginEnv) (passwd : Bytes) (s : Session) : Session :=
  if s.loggedIn ∨ s.askpasswd = false then s.reply 503 (ascii "Login with USER first.")
  else
    let s := { s with askpasswd := false }
    match s.pw with
    | none => if s.guest then { s with exited := true } else loginIncorrect s
    | some pw =>
      if s.guest ∨ passwordOk db pw passwd then enterSession db env passwd pw s
      else loginIncorrect s

/-! ## Commands -/

inductive LoginCommand where
  | user (name : Bytes)
  | pass (passwd : Bytes) (env : LoginEnv)
deriving DecidableEq

def loginStep (db : Database) (s : Session) : LoginCommand → Option Session
  | .user name =>
    if s.exited then none
    else some { user db name { s with granted := none, replies := [] } with user := some name }
  | .pass passwd env =>
    if s.exited then none
    else some { pass db env passwd { s with granted := none, replies := [] } with user := none }

/-! ## The property -/

def accountName (name : Bytes) : Bytes := if isAnonymous name then ascii "ftp" else name

/-- The names that `USER` accepts: an account that does not exist is asked for its password
like any other. -/
def Accepted (db : Database) (name : Bytes) : Prop :=
  if isAnonymous name then
    checkuser db.ftpusers (ascii "ftp") = false ∧
      checkuser db.ftpusers (ascii "anonymous") = false ∧ (db.getpwnam (ascii "ftp")).isSome
  else
    (db.anonOnly = true → checkuser db.ftpchroot name = true) ∧
      ∀ pw ∈ db.getpwnam name, validShell db pw = true ∧ checkuser db.ftpusers name = false

/-- A `PASS` can log somebody in. -/
def Open (s : Session) : Prop :=
  s.loggedIn = false ∧ s.askpasswd = true ∧ s.pw.isSome

instance (s : Session) : Decidable (Open s) := inferInstanceAs (Decidable (_ ∧ _ ∧ _))

/-- Whoever is logged in is the account of the `USER` right before, which was accepted, as a
guest or with the password of the account. An account is left open to a `PASS` only by the
`USER` right before, if that was accepted. -/
structure Sound (db : Database) (s : Session) : Prop where
  login : ∀ l ∈ s.granted, ∃ name, l.user = some name ∧ Accepted db name ∧
    db.getpwnam (accountName name) = some l.account ∧ l.guest = isAnonymous name ∧
    (l.guest = true ∨ passwordOk db l.account l.password = true)
  opened : Open s → ∃ name, s.user = some name ∧ Accepted db name ∧
    db.getpwnam (accountName name) = s.pw ∧ s.guest = isAnonymous name

/-- The refusals that leave the account of an earlier `USER` behind. -/
def LeavesAccount (db : Database) (name : Bytes) : Prop :=
  if isAnonymous name then
    checkuser db.ftpusers (ascii "ftp") = true ∨ checkuser db.ftpusers (ascii "anonymous") = true
  else db.anonOnly = true ∧ checkuser db.ftpchroot name = false

def Careful (db : Database) (s : Session) : LoginCommand → Prop
  | .user name => s.exited = false → Open s → ¬ LeavesAccount db name
  | .pass _ _ => True

/-! ## PASS leaves nothing open -/

variable {db : Database} {s t : Session}

theorem lreplies_keep (lines : List Bytes) (s : Session) :
    (lines.foldl (fun s line => s.lreply 230 line) s).granted = s.granted ∧
      (lines.foldl (fun s line => s.lreply 230 line) s).askpasswd = s.askpasswd := by
  induction lines generalizing s with
  | nil => exact ⟨rfl, rfl⟩
  | cons line lines ih => exact ih (s.lreply 230 line)

theorem welcome_keeps (env : LoginEnv) (pw : Passwd) (s : Session) :
    (welcome env pw s).granted = s.granted ∧ (welcome env pw s).askpasswd = s.askpasswd := by
  have hlines := lreplies_keep env.message s
  unfold welcome
  exact ⟨hlines.1, hlines.2⟩

theorem enterHome_keeps (env : LoginEnv) (pw : Passwd) (s : Session) :
    (enterHome env pw s).granted = s.granted ∧ (enterHome env pw s).askpasswd = s.askpasswd := by
  unfold enterHome
  split
  · exact ⟨rfl, rfl⟩
  · split
    · exact ⟨rfl, rfl⟩
    · split
      · exact ⟨rfl, rfl⟩
      · dsimp only
        split
        · split <;> exact ⟨rfl, rfl⟩
        · split
          · exact welcome_keeps env pw _
          · exact welcome_keeps env pw _

theorem granted_none {P : Login → Prop} (t : Session) (h : t.granted = none) :
    ∀ l ∈ t.granted, P l := by
  intro l hl
  rw [h] at hl
  cases hl

theorem enterSession_granted (env : LoginEnv) (passwd : Bytes) (pw : Passwd)
    (hs : s.granted = none) :
    (enterSession db env passwd pw s).askpasswd = s.askpasswd ∧
      ∀ l ∈ (enterSession db env passwd pw s).granted, l = ⟨pw, s.guest, passwd, s.user⟩ := by
  have hnone : ∀ l ∈ s.granted, l = ⟨pw, s.guest, passwd, s.user⟩ := granted_none s hs
  unfold enterSession
  dsimp only
  split
  · exact ⟨rfl, hnone⟩
  · split
    · exact ⟨rfl, hnone⟩
    · split
      · exact ⟨rfl, hnone⟩
      · split
        · exact ⟨rfl, hnone⟩
        · have hhome := enterHome_keeps env pw { s with
            loginAttempts := 0
            loggedIn := true
            granted := some ⟨pw, s.guest, passwd, s.user⟩
            dochroot := checkuser db.ftpchroot pw.pwName }
          refine ⟨hhome.2, fun l hl => ?_⟩
          rw [hhome.1] at hl
          exact (Option.some.inj hl).symm

/-- A `PASS` that logs somebody in has found an account that was open to it. -/
theorem pass_granted (env : LoginEnv) (passwd : Bytes) (hs : s.granted = none)
    (hclosed : s.loggedIn = true → s.askpasswd = false) :
    (pass db env passwd s).askpasswd = false ∧
      ∀ l ∈ (pass db env passwd s).granted, Open s ∧ s.pw = some l.account ∧ l.guest = s.guest ∧
        l.user = s.user ∧ (l.guest = true ∨ passwordOk db l.account l.password = true) := by
  unfold pass
  by_cases hcan : s.loggedIn ∨ s.askpasswd = false
  · rw [if_pos hcan]
    exact ⟨hcan.elim hclosed id, granted_none _ hs⟩
  · rw [if_neg hcan]
    dsimp only
    rw [not_or, Bool.not_eq_true, Bool.not_eq_false] at hcan
    cases hpw : s.pw with
    | none =>
      dsimp only
      split
      · exact ⟨rfl, granted_none _ hs⟩
      · exact ⟨rfl, granted_none _ hs⟩
    | some pw =>
      dsimp only
      split
      · next haccept =>
        obtain ⟨hask, hgranted⟩ := @enterSession_granted db
          (s := { s with pw := some pw, askpasswd := false }) env passwd pw hs
        refine ⟨hask, fun l hl => ?_⟩
        obtain rfl := hgranted l hl
        exact ⟨⟨hcan.1, hcan.2, by rw [hpw]; rfl⟩, rfl, rfl, rfl, haccept⟩
      · exact ⟨rfl, granted_none _ hs⟩

/-! ## What USER leaves open -/

/-- A login and a wanted password exclude each other. -/
structure Waiting (db : Database) (s : Session) : Prop where
  sound : Sound db s
  closed : s.loggedIn = true → s.askpasswd = false

theorem resetLogin_open (s : Session) :
    (resetLogin s).loggedIn = false ∧ (Open (resetLogin s) ↔ Open s) := by
  unfold resetLogin
  cases hlogged : s.loggedIn with
  | false =>
    rw [if_neg Bool.false_ne_true]
    exact ⟨hlogged, Iff.rfl⟩
  | true =>
    rw [if_pos rfl]
    refine ⟨rfl, fun hopen => ?_, fun hopen => ?_⟩
    · exact absurd hopen.2.2 Bool.false_ne_true
    · rw [hopen.1] at hlogged
      cases hlogged

/-- What `USER` leaves open to a `PASS`: whatever was open before, or the account of the name,
if it has been accepted. -/
structure Opens (db : Database) (name : Bytes) (s t : Session) : Prop where
  granted : t.granted = s.granted
  loggedIn : t.loggedIn = false
  left : LeavesAccount db name → (Open t ↔ Open s)
  opened : ¬ LeavesAccount db name → Open t → Accepted db name ∧
    db.getpwnam (accountName name) = t.pw ∧ t.guest = isAnonymous name

theorem opens_of_left {name : Bytes} (hlogged : s.loggedIn = false)
    (hleaves : LeavesAccount db name) (code : Nat) (text : Bytes) :
    Opens db name s (s.reply code text) :=
  ⟨rfl, hlogged, fun _ => Iff.rfl, fun hnot => absurd hleaves hnot⟩

theorem opens_of_closed {name : Bytes} (hlogged : s.loggedIn = false)
    (hleaves : ¬ LeavesAccount db name) (code : Nat) (text : Bytes) :
    Opens db name s ({ s with pw := none }.reply code text) :=
  ⟨rfl, hlogged, fun h => absurd h hleaves,
    fun _ hopen => absurd hopen.2.2 Bool.false_ne_true⟩

theorem anonymousUser_opens {name : Bytes} (hname : isAnonymous name = true)
    (hlogged : s.loggedIn = false) : Opens db name s (anonymousUser db name s) := by
  have hleaves : LeavesAccount db name ↔ checkuser db.ftpusers (ascii "ftp") = true ∨
      checkuser db.ftpusers (ascii "anonymous") = true := by
    unfold LeavesAccount
    rw [if_pos hname]
  unfold anonymousUser
  by_cases hbarred : checkuser db.ftpusers (ascii "ftp") = true ∨
      checkuser db.ftpusers (ascii "anonymous") = true
  · rw [if_pos hbarred]
    exact opens_of_left hlogged (hleaves.mpr hbarred) _ _
  · have hnot : ¬ LeavesAccount db name := fun h => hbarred (hleaves.mp h)
    rw [if_neg hbarred]
    cases hpw : db.getpwnam (ascii "ftp") with
    | none => exact opens_of_closed hlogged hnot _ _
    | some pw =>
      refine ⟨rfl, hlogged, fun h => absurd h hnot, fun _ _ => ⟨?_, ?_, hname.symm⟩⟩
      · unfold Accepted
        rw [if_pos hname, hpw]
        rw [not_or, Bool.not_eq_true, Bool.not_eq_true] at hbarred
        exact ⟨hbarred.1, hbarred.2, rfl⟩
      · unfold accountName
        rw [if_pos hname, hpw]
        rfl

theorem namedUser_opens {name : Bytes} (hname : isAnonymous name = false)
    (hlogged : s.loggedIn = false) (hguest : s.guest = false) :
    Opens db name s (namedUser db name s) := by
  have hanonymous : ¬ isAnonymous name = true := by rw [hname]; exact Bool.false_ne_true
  have hleaves : LeavesAccount db name ↔
      db.anonOnly = true ∧ checkuser db.ftpchroot name = false := by
    unfold LeavesAccount
    rw [if_neg hanonymous]
  unfold namedUser
  by_cases hanon : db.anonOnly = true ∧ checkuser db.ftpchroot name = false
  · rw [if_pos hanon]
    exact opens_of_left hlogged (hleaves.mpr hanon) _ _
  · have hnot : ¬ LeavesAccount db name := fun h => hanon (hleaves.mp h)
    rw [if_neg hanon]
    split
    · exact opens_of_closed hlogged hnot _ _
    · next hany =>
      refine ⟨rfl, hlogged, fun h => absurd h hnot, fun _ _ => ⟨?_, ?_, ?_⟩⟩
      · unfold Accepted
        rw [if_neg hanonymous]
        refine ⟨fun honly => ?_, fun pw hpw => ?_⟩
        · rw [not_and, Bool.not_eq_false] at hanon
          exact hanon honly
        · rw [Option.mem_def.mp hpw, Option.any_some] at hany
          simpa using hany
      · unfold accountName
        rw [if_neg hanonymous]
        rfl
      · rw [hname]
        exact hguest

theorem LeavesAccount.not_accepted {name : Bytes} (h : LeavesAccount db name) :
    ¬ Accepted db name := by
  unfold LeavesAccount at h
  unfold Accepted
  split
  · next hname =>
    rw [if_pos hname] at h
    rintro ⟨hftp, hanon, -⟩
    rw [hftp, hanon] at h
    simp at h
  · next hname =>
    rw [if_neg hname] at h
    rintro ⟨hchroot, -⟩
    rw [hchroot h.1] at h
    exact absurd h.2 Bool.true_eq_false.mp

theorem resetLogin_guest (s : Session) : (resetLogin s).guest = false := rfl

theorem resetLogin_granted (s : Session) : (resetLogin s).granted = s.granted := by
  unfold resetLogin
  split <;> rfl

/-- A refusal because of the login leaves everything as it was, and any other `USER` opens the
account of its name or leaves an earlier one behind. -/
theorem user_opens (db : Database) (name : Bytes) (s : Session) :
    (s.loggedIn = true ∧ ∃ code text, user db name s = s.reply code text) ∨
      Opens db name s (user db name s) := by
  unfold user
  by_cases hguest : s.loggedIn ∧ s.guest
  · rw [if_pos hguest]
    exact Or.inl ⟨hguest.1, _, _, rfl⟩
  · rw [if_neg hguest]
    by_cases hchroot : s.loggedIn ∧ s.dochroot
    · rw [if_pos hchroot]
      exact Or.inl ⟨hchroot.1, _, _, rfl⟩
    · rw [if_neg hchroot]
      right
      obtain ⟨hlogged, hopen⟩ := resetLogin_open s
      have hopens : Opens db name (resetLogin s)
          (if isAnonymous name then anonymousUser db name (resetLogin s)
            else namedUser db name (resetLogin s)) := by
        cases hname : isAnonymous name with
        | true => exact anonymousUser_opens hname hlogged
        | false => exact namedUser_opens hname hlogged (resetLogin_guest s)
      exact ⟨hopens.granted.trans (resetLogin_granted s), hopens.loggedIn,
        fun h => (hopens.left h).trans hopen, hopens.opened⟩

/-! ## Runs -/

theorem waiting_start (db : Database) : Waiting db Session.start where
  sound := ⟨granted_none _ rfl, fun h => absurd h.2.1 Bool.false_ne_true⟩
  closed := fun h => absurd h Bool.false_ne_true

theorem loginStep_user {name : Bytes} (h : loginStep db s (.user name) = some t) :
    s.exited = false ∧
      t = { user db name { s with granted := none, replies := [] } with user := some name } := by
  simp only [loginStep] at h
  split at h
  · cases h
  · next hexited => exact ⟨Bool.eq_false_iff.mpr hexited, (Option.some.inj h).symm⟩

theorem loginStep_pass {passwd : Bytes} {env : LoginEnv}
    (h : loginStep db s (.pass passwd env) = some t) :
    t = { pass db env passwd { s with granted := none, replies := [] } with user := none } := by
  simp only [loginStep] at h
  split at h
  · cases h
  · exact (Option.some.inj h).symm

theorem user_waiting {name : Bytes} (hs : Waiting db s)
    (hcareful : Open s → ¬ LeavesAccount db name) :
    Waiting db
      { user db name { s with granted := none, replies := [] } with user := some name } := by
  rcases user_opens db name { s with granted := none, replies := [] } with
    ⟨hlogged, code, text, huser⟩ | hopens
  · rw [huser]
    refine ⟨⟨granted_none _ rfl, fun hopen => ?_⟩, hs.closed⟩
    have hlogged' : s.loggedIn = false := hopen.1
    exact absurd (hlogged.symm.trans hlogged') Bool.true_eq_false.mp
  · refine ⟨⟨granted_none _ hopens.granted, fun hopen => ?_⟩, fun h => ?_⟩
    · by_cases hleaves : LeavesAccount db name
      · exact absurd hleaves (hcareful ((hopens.left hleaves).mp hopen))
      · obtain ⟨haccepted, hpw, hguest⟩ := hopens.opened hleaves hopen
        exact ⟨name, rfl, haccepted, hpw, hguest⟩
    · exact absurd (hopens.loggedIn.symm.trans h) Bool.false_ne_true

theorem pass_waiting (env : LoginEnv) (passwd : Bytes) (hs : Waiting db s) :
    Waiting db
      { pass db env passwd { s with granted := none, replies := [] } with user := none } := by
  obtain ⟨hask, hgranted⟩ := @pass_granted db
    (s := { s with granted := none, replies := [] }) env passwd rfl hs.closed
  refine ⟨⟨fun l hl => ?_, fun hopen => ?_⟩, fun _ => hask⟩
  · obtain ⟨hopen, hpw, hguest, huser, haccess⟩ := hgranted l hl
    obtain ⟨name, hname, haccepted, haccount, hsguest⟩ := hs.sound.opened hopen
    exact ⟨name, huser.trans hname, haccepted, haccount.trans hpw, hguest.trans hsguest, haccess⟩
  · exact absurd (hask.symm.trans hopen.2.1) Bool.false_ne_true

theorem loginStep_waiting {c : LoginCommand} (hs : Waiting db s) (hcareful : Careful db s c)
    (h : loginStep db s c = some t) : Waiting db t := by
  cases c with
  | user name =>
    obtain ⟨hexited, rfl⟩ := loginStep_user h
    exact user_waiting hs (hcareful hexited)
  | pass passwd env =>
    obtain rfl := loginStep_pass h
    exact pass_waiting env passwd hs

theorem loginStep_unsound {c : LoginCommand} (hcareless : ¬ Careful db s c) :
    ∃ t, loginStep db s c = some t ∧ ¬ Sound db t := by
  cases c with
  | pass passwd env => exact absurd trivial hcareless
  | user name =>
    simp only [Careful, Classical.not_imp, not_not] at hcareless
    obtain ⟨hexited, hopen, hleaves⟩ := hcareless
    refine ⟨{ user db name { s with granted := none, replies := [] } with user := some name },
      ?_, fun hsound => ?_⟩
    · simp only [loginStep]
      rw [if_neg (by rw [hexited]; exact Bool.false_ne_true)]
    · rcases user_opens db name { s with granted := none, replies := [] } with
        ⟨hlogged, -⟩ | hopens
      · exact absurd (hlogged.symm.trans hopen.1) Bool.true_eq_false.mp
      · obtain ⟨name', hname, haccepted, -⟩ := hsound.opened ((hopens.left hleaves).mpr hopen)
        obtain rfl := Option.some.inj hname
        exact hleaves.not_accepted haccepted

/-- Every login is the one asked for, and no refused `USER` leaves an account open, exactly in
the runs in which no name is refused by the first checks of `user` while a `PASS` is awaited. -/
theorem sound_iff_careful (db : Database) (es : List LoginCommand) :
    Steps (Careful db) (loginStep db) Session.start es ↔
      ∀ t, Reached (loginStep db) Session.start es t → Sound db t :=
  steps_iff_reached_of (I := Waiting db) (fun _ _ _ hs hok h => loginStep_waiting hs hok h)
    (fun _ hs => hs.sound) (fun _ _ _ hnot => loginStep_unsound hnot) (waiting_start db)

/-! ## The account of an earlier USER -/

/-- Two accounts, of which only `joe` may log in besides the guests. -/
def ftpsite : Database where
  getpwnam := fun name =>
    if name = ascii "joe" then some ⟨name, ascii "j", ascii "/home/joe", ascii "/bin/sh"⟩
    else if name = ascii "bob" then some ⟨name, ascii "b", ascii "/home/bob", ascii "/bin/sh"⟩
    else none
  usershells := [ascii "/bin/sh"]
  ftpusers := none
  ftpchroot := some (ascii "joe\n")
  anonOnly := true
  crypt := fun passwd _ => passwd

def allWell : LoginEnv := ⟨0, true, true, true, true, true, []⟩

/-- `USER bob` is refused, and the `PASS` after it logs in `joe`. -/
theorem not_sound_joe : ∃ t,
    run (loginStep ftpsite) Session.start
      [.user (ascii "joe"), .user (ascii "bob"), .pass (ascii "j") allWell] = some t ∧
    ¬ Sound ftpsite t := by
  refine ⟨(run (loginStep ftpsite) Session.start
    [.user (ascii "joe"), .user (ascii "bob"), .pass (ascii "j") allWell]).getD Session.start,
    by decide +kernel, fun h => ?_⟩
  obtain ⟨name, hname, haccepted, -⟩ := h.login
    ⟨⟨ascii "joe", ascii "j", ascii "/home/joe", ascii "/bin/sh"⟩, false, ascii "j",
      some (ascii "bob")⟩ (by decide +kernel)
  obtain rfl := Option.some.inj hname
  have hleaves : LeavesAccount ftpsite (ascii "bob") := by
    unfold LeavesAccount
    rw [if_neg (by decide)]
    exact ⟨rfl, by decide +kernel⟩
  exact hleaves.not_accepted haccepted

end Netkit.Ftpd

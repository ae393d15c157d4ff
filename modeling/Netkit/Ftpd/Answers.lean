import Netkit.Ftpd.Server

/-!
# One final reply for an action

What the actions send, counted in final replies: those that are neither preliminary nor lines of
a reply that goes on.
-/

namespace Netkit.Ftpd

open Netkit.Foundations

/-! ## Final replies -/

def Reply.isFinal (r : Reply) : Bool := !r.more && decide (200 ≤ r.code)

def finals (replies : List Reply) : Nat := replies.countP Reply.isFinal

theorem finals_append (a b : List Reply) : finals (a ++ b) = finals a + finals b :=
  List.countP_append

theorem finals_reply {code : Nat} (hcode : 200 ≤ code) (a : List Reply) (text : Bytes) :
    finals (a ++ [⟨code, text, false⟩]) = finals a + 1 := by
  rw [finals_append]
  have hfinal : Reply.isFinal ⟨code, text, false⟩ = true := by
    unfold Reply.isFinal
    rw [decide_eq_true hcode]
    rfl
  exact congrArg (finals a + ·) (List.countP_cons_of_pos hfinal)

theorem finals_lreply (code : Nat) (a : List Reply) (text : Bytes) :
    finals (a ++ [⟨code, text, true⟩]) = finals a := finals_append a _

theorem finals_preliminary {code : Nat} (hcode : code < 200) (a : List Reply) (text : Bytes) :
    finals (a ++ [⟨code, text, false⟩]) = finals a := by
  rw [finals_append]
  have hfinal : ¬ Reply.isFinal ⟨code, text, false⟩ = true := by
    unfold Reply.isFinal
    rw [decide_eq_false (Nat.not_le_of_lt hcode)]
    exact Bool.false_ne_true
  exact congrArg (finals a + ·) (List.countP_cons_of_neg hfinal)

namespace Data

/-! ## Transfers without a disturbance -/

def Moment.isBytes : Moment → Bool
  | .bytes _ => true
  | .urgent _ => false

def Item.isName : Item → Bool
  | .name _ _ => true
  | .urgent _ => false

def Entry.isQuiet : Entry → Bool
  | .urgent _ => false
  | .directory (some items) => items.all Item.isName
  | _ => true

def FileEnv.isQuiet (env : FileEnv) : Bool := !env.course.early && env.course.moments.all Moment.isBytes

/-- The listing is undisturbed, and a command that cannot be run leaves an error number. -/
def ListEnv.isQuiet (env : ListEnv) : Bool :=
  env.entries.all Entry.isQuiet && env.list.isQuiet && (env.list.opens || env.list.errno)

theorem flow_quiet {ms : List Moment} (hms : ms.all Moment.isBytes = true) (s : Session) :
    (flow ms s).1 = false ∧ (flow ms s).2.replies = s.replies := by
  induction ms generalizing s with
  | nil => exact ⟨rfl, rfl⟩
  | cons m ms ih =>
    rw [List.all_cons, Bool.and_eq_true] at hms
    cases m with
    | bytes n => exact ih hms.2 _
    | urgent u => exact absurd hms.1 Bool.false_ne_true

def Answers (s t : Session) (n : Nat) : Prop := finals t.replies = finals s.replies + n

def Dials (s : Session) : Option Handle × Session → Prop
  | (some _, t) => Answers s t 0
  | (none, t) => Answers s t 1

theorem acceptPassive_dials (env : ConnectEnv) (name : Bytes) (h : Handle) (s : Session) :
    Dials s (acceptPassive env name h s) := by
  unfold acceptPassive
  split
  · exact finals_reply (by decide) _ _
  · split
    · exact finals_reply (by decide) _ _
    · split
      · exact finals_reply (by decide) _ _
      · exact finals_preliminary (by decide) _ _

theorem connectOut_dials (env : ConnectEnv) (name : Bytes) (s : Session) :
    Dials s (connectOut env name s) := by
  unfold connectOut
  dsimp only
  split
  · exact finals_reply (by decide) _ _
  · split
    · exact finals_reply (by decide) _ _
    · split
      · exact finals_reply (by decide) _ _
      · split
        · exact finals_reply (by decide) _ _
        · exact finals_preliminary (by decide) _ _

theorem dataconn_dials (env : ConnectEnv) (name : Bytes) (size : Option Nat) (s : Session) :
    Dials s (dataconn env name size s) := by
  unfold dataconn
  dsimp only
  split
  · exact acceptPassive_dials env name _ { s with fileSize := size, byteCount := 0 }
  · split
    · exact finals_preliminary (by decide) _ _
    · exact connectOut_dials env name { s with fileSize := size, byteCount := 0 }

theorem sendData_answers {course : Course} (hearly : course.early = false)
    (hms : course.moments.all Moment.isBytes = true) (s : Session) :
    Answers s (sendData course s) 1 := by
  obtain ⟨hjumped, hreplies⟩ := flow_quiet hms { s with transflag := s.transflag + 1 }
  have hsame : finals (flow course.moments { s with transflag := s.transflag + 1 }).2.replies =
      finals s.replies := congrArg finals hreplies
  unfold Answers sendData
  dsimp only
  rw [if_neg (by rw [hearly]; exact Bool.false_ne_true), hjumped,
    if_neg Bool.false_ne_true, ← hsame]
  split
  · exact finals_reply (by decide) _ _
  · split <;> exact finals_reply (by decide) _ _

def Receives (s : Session) : Bool × Session → Prop
  | (true, t) => Answers s t 0
  | (false, t) => Answers s t 1

theorem receiveData_receives {course : Course} (hearly : course.early = false)
    (hms : course.moments.all Moment.isBytes = true) (s : Session) :
    Receives s (receiveData course s) := by
  obtain ⟨hjumped, hreplies⟩ := flow_quiet hms { s with transflag := s.transflag + 1 }
  have hsame : finals (flow course.moments { s with transflag := s.transflag + 1 }).2.replies =
      finals s.replies := congrArg finals hreplies
  unfold receiveData
  dsimp only
  rw [if_neg (by rw [hearly]; exact Bool.false_ne_true), hjumped, if_neg Bool.false_ne_true]
  split
  · rw [Receives, Answers, ← hsame]
    exact finals_reply (by decide) _ _
  · split
    · rw [Receives, Answers, ← hsame]
      split
      · exact finals_lreply _ _ _
      · rfl
    · rw [Receives, Answers, ← hsame]
      exact finals_reply (by decide) _ _
    · rw [Receives, Answers, ← hsame]
      exact finals_reply (by decide) _ _

theorem FileEnv.isQuiet_iff (env : FileEnv) :
    env.isQuiet = true ↔
      env.course.early = false ∧ env.course.moments.all Moment.isBytes = true := by
  unfold FileEnv.isQuiet
  rw [Bool.and_eq_true, Bool.not_eq_true']

theorem reply_answers {code : Nat} (hcode : 200 ≤ code) (s : Session) (text : Bytes) :
    Answers s (s.reply code text) 1 := finals_reply hcode _ _

theorem Answers.trans {s t u : Session} {m n : Nat} (hst : Answers s t m) (htu : Answers t u n) :
    Answers s u (m + n) := by
  unfold Answers at *
  omega

theorem retrieveFrom_answers {env : FileEnv} (henv : env.isQuiet = true) (cmd : Bool)
    (name : Bytes) (s : Session) : Answers s (retrieveFrom cmd env name s) 1 := by
  obtain ⟨hearly, hms⟩ := env.isQuiet_iff.mp henv
  have hdials := dataconn_dials env.conn name (if cmd then none else some env.size) s
  unfold retrieveFrom
  split
  · exact finals_reply (by decide) _ _
  · split
    · exact finals_reply (by decide) _ _
    · split
      · next t hconn =>
        rw [hconn] at hdials
        exact hdials
      · next conn t hconn =>
        rw [hconn] at hdials
        exact hdials.trans (sendData_answers hearly hms t)

theorem retrieve_answers {env : FileEnv} (henv : env.isQuiet = true)
    (hopens : (env.opens || env.errno) = true) (cmd : Bool) (name : Bytes) (s : Session) :
    Answers s (retrieve cmd env name s) 1 := by
  unfold retrieve
  split
  · next hclosed =>
    rw [Bool.not_eq_true'] at hclosed
    rw [hclosed, Bool.false_or] at hopens
    rw [if_pos hopens]
    exact finals_reply (by decide) _ _
  · exact retrieveFrom_answers henv cmd name { s with conns := s.conns.openNext }

theorem storeTo_answers {env : FileEnv} (henv : env.isQuiet = true) (name : Bytes)
    (unique : Bool) (s : Session) : Answers s (storeTo env name unique s) 1 := by
  obtain ⟨hearly, hms⟩ := env.isQuiet_iff.mp henv
  have hdials := dataconn_dials env.conn name none s
  unfold storeTo
  split
  · exact finals_reply (by decide) _ _
  · split
    · next t hconn =>
      rw [hconn] at hdials
      exact hdials
    · next conn t hconn =>
      rw [hconn] at hdials
      have hreceives := receiveData_receives hearly hms t
      dsimp only
      cases hreceived : receiveData env.course t with
      | mk received u =>
        rw [hreceived] at hreceives
        cases received with
        | true => exact (hdials.trans hreceives).trans (reply_answers (by decide) u _)
        | false => exact hdials.trans hreceives

theorem storeNamed_answers {env : FileEnv} (henv : env.isQuiet = true) (name : Bytes)
    (unique : Bool) (s : Session) : Answers s (storeNamed env name unique s) 1 := by
  unfold storeNamed
  split
  · exact finals_reply (by decide) _ _
  · exact storeTo_answers henv name unique { s with conns := s.conns.openNext }

/-- The codes of `guniquefd` are final. -/
def Unique.isAnswered : Unique → Bool
  | .refused code _ => decide (200 ≤ code)
  | .tooLong => false
  | _ => true

theorem store_answers {env : FileEnv} (henv : env.isQuiet = true) {unique : Option Unique}
    (hunique : ∀ u, unique = some u → u.isAnswered = true) (name : Bytes) (s : Session) :
    Answers s (store env unique name s) 1 := by
  unfold store
  split
  · exact storeNamed_answers henv _ true s
  · exact finals_reply (of_decide_eq_true (hunique _ rfl)) _ _
  · exact absurd (hunique _ rfl) Bool.false_ne_true
  · exact storeNamed_answers henv name true s
  · exact storeNamed_answers henv name false s

/-! ## NLST -/

def Lists (s : Session) : Except Session (Option Handle × Session) → Prop
  | .ok (_, t) => Answers s t 0
  | .error t => Answers s t 1

theorem listName_dials (env : ListEnv) (n : Bytes) (dout : Option Handle) (s : Session) :
    Dials s (listName env n dout s) := by
  unfold listName
  cases dout with
  | some conn => rfl
  | none =>
    have hdials := dataconn_dials env.conn (ascii "file list") none s
    dsimp only
    split
    · next t hconn =>
      rw [hconn] at hdials
      exact hdials
    · next conn t hconn =>
      rw [hconn] at hdials
      exact hdials

theorem Lists.trans {s t : Session} {r : Except Session (Option Handle × Session)}
    (hst : Answers s t 0) (htr : Lists t r) : Lists s r := by
  cases r with
  | error u =>
    have h := hst.trans htr
    rwa [Nat.zero_add] at h
  | ok p => exact hst.trans htr

theorem listItems_lists (env : ListEnv) {items : List Item} (hitems : items.all Item.isName = true)
    (dout : Option Handle) (s : Session) : Lists s (listItems env items dout s) := by
  induction items generalizing dout s with
  | nil => rfl
  | cons item items ih =>
    rw [List.all_cons, Bool.and_eq_true] at hitems
    cases item with
    | urgent u => exact absurd hitems.1 Bool.false_ne_true
    | name n listed =>
      cases listed with
      | false => exact ih hitems.2 dout s
      | true =>
        have hdials := listName_dials env n dout s
        unfold listItems
        cases hname : listName env n dout s with
        | mk conn t =>
          rw [hname] at hdials
          cases conn with
          | none => exact hdials
          | some conn => exact Lists.trans hdials (ih hitems.2 (some conn) t)

theorem listMissing_answers {env : ListEnv} (henv : env.list.isQuiet = true)
    (hopens : (env.list.opens || env.list.errno) = true) (which n : Bytes) (last : Bool)
    (dout : Option Handle) (s : Session) : Answers s (listMissing env which n last dout s) 1 := by
  unfold listMissing
  split
  · exact retrieve_answers henv hopens true n s
  · cases dout with
    | none => exact finals_reply (by decide) _ _
    | some conn => exact finals_reply (by decide) _ _

theorem listEntries_lists {env : ListEnv} (henv : env.list.isQuiet = true)
    (hopens : (env.list.opens || env.list.errno) = true) (which : Bytes) {entries : List Entry}
    (hentries : entries.all Entry.isQuiet = true) (dout : Option Handle) (s : Session) :
    Lists s (listEntries env which entries dout s) := by
  induction entries generalizing dout s with
  | nil => rfl
  | cons entry entries ih =>
    rw [List.all_cons, Bool.and_eq_true] at hentries
    cases entry with
    | urgent u => exact absurd hentries.1 Bool.false_ne_true
    | special => exact ih hentries.2 dout s
    | missing n => exact listMissing_answers henv hopens which n (isLast entries) dout s
    | regular n =>
      have hdials := listName_dials env n dout s
      unfold listEntries
      cases hname : listName env n dout s with
      | mk conn t =>
        rw [hname] at hdials
        cases conn with
        | none => exact hdials
        | some conn => exact Lists.trans hdials (ih hentries.2 (some conn) t)
    | directory items =>
      cases items with
      | none => exact ih hentries.2 dout s
      | some items =>
        have hlists := listItems_lists env hentries.1 dout s
        unfold listEntries
        cases hitems : listItems env items dout s with
        | error t =>
          rw [hitems] at hlists
          exact hlists
        | ok p =>
          rw [hitems] at hlists
          exact Lists.trans hlists (ih hentries.2 p.1 p.2)

theorem sendFileList_answers {env : ListEnv} (henv : env.isQuiet = true) (which : Bytes)
    (s : Session) : Answers s (sendFileList env which s) 1 := by
  unfold ListEnv.isQuiet at henv
  rw [Bool.and_eq_true, Bool.and_eq_true] at henv
  obtain ⟨⟨hentries, hlist⟩, hopens⟩ := henv
  have hlists := listEntries_lists hlist hopens which hentries none s
  unfold sendFileList
  split
  · exact finals_reply (by decide) _ _
  · exact finals_reply (by decide) _ _
  · split
    · next t ht =>
      rw [ht] at hlists
      exact hlists
    · next dout t ht =>
      rw [ht] at hlists
      have hend : Answers t (listEnd env dout t) 1 := by
        unfold listEnd
        split
        · exact finals_reply (by decide) _ _
        · dsimp only
          split
          · exact finals_reply (by decide) _ _
          · exact finals_reply (by decide) _ _
      have hlisted : Answers s t 0 := hlists
      exact hlisted.trans hend

/-! ## PORT and PASV -/

theorem portAction_answers (n : HostPort) (s : Session) : Answers s (portAction n s) 1 := by
  unfold portAction
  split
  · exact finals_reply (by decide) _ _
  · split
    · exact finals_reply (by decide) _ _
    · split <;> exact finals_reply (by decide) _ _

theorem passive_answers (env : PassiveEnv) (s : Session) : Answers s (passive env s) 1 := by
  unfold passive
  split
  · exact finals_reply (by decide) _ _
  · split <;> exact finals_reply (by decide) _ _

end Data

/-! ## USER and PASS -/

def Session.Sound (s : Session) : Prop := s.guest = true → s.pw ≠ none

def LoginAnswers (s t : Session) : Prop :=
  finals t.replies = finals s.replies + 1 ∧ t.Sound

theorem endLogin_sound (s : Session) : (endLogin s).Sound := fun h =>
  absurd h Bool.false_ne_true

theorem user_answers (db : Database) (name : Bytes) {s : Session} (hs : s.Sound) :
    LoginAnswers s (user db name s) := by
  have hreset : (resetLogin s).replies = s.replies := by
    unfold resetLogin
    dsimp only
    split <;> rfl
  have hguest : (resetLogin s).guest = false := rfl
  have hnot {t : Session} (ht : t.guest = false) : t.Sound := fun h =>
    absurd (ht.symm.trans h) Bool.false_ne_true
  unfold user
  split
  · exact ⟨finals_reply (by decide) _ _, hs⟩
  · split
    · exact ⟨finals_reply (by decide) _ _, hs⟩
    · split
      · unfold anonymousUser
        rw [LoginAnswers, ← hreset]
        split
        · exact ⟨finals_reply (by decide) _ _, hnot hguest⟩
        · split
          · exact ⟨finals_reply (by decide) _ _, fun _ => Option.some_ne_none _⟩
          · exact ⟨finals_reply (by decide) _ _, hnot hguest⟩
      · unfold namedUser
        rw [LoginAnswers, ← hreset]
        split
        · exact ⟨finals_reply (by decide) _ _, hnot hguest⟩
        · split <;> exact ⟨finals_reply (by decide) _ _, hnot hguest⟩

theorem lreplies_finals (code : Nat) (lines : List Bytes) (s : Session) :
    finals (lines.foldl (fun s line => s.lreply code line) s).replies = finals s.replies ∧
      (lines.foldl (fun s line => s.lreply code line) s).guest = s.guest ∧
      (lines.foldl (fun s line => s.lreply code line) s).pw = s.pw := by
  induction lines generalizing s with
  | nil => exact ⟨rfl, rfl, rfl⟩
  | cons line lines ih =>
    obtain ⟨hfinals, hguest, hpw⟩ := ih (s.lreply code line)
    exact ⟨hfinals.trans (finals_lreply code s.replies line), hguest, hpw⟩

theorem welcome_answers (env : LoginEnv) (pw : Passwd) {s : Session} (hs : s.Sound) :
    LoginAnswers s (welcome env pw s) := by
  obtain ⟨hfinals, hguest, hpw⟩ := lreplies_finals 230 env.message s
  refine ⟨(finals_reply (by decide) _ _).trans (congrArg (· + 1) hfinals), fun h => ?_⟩
  exact fun hnone => hs (hguest.symm.trans h) (hpw.symm.trans hnone)

/-- The end of `enterHome`, behind a warning or none. -/
theorem seteuid_answers (env : LoginEnv) (pw : Passwd) {s t : Session}
    (ht : finals t.replies = finals s.replies) (hs : t.Sound) :
    LoginAnswers s (if !env.seteuid then endLogin (t.reply 550 (ascii "Can't set uid."))
      else welcome env pw t) := by
  rw [LoginAnswers, ← ht]
  split
  · exact ⟨finals_reply (by decide) _ _, endLogin_sound _⟩
  · exact welcome_answers env pw hs

theorem enterHome_answers (env : LoginEnv) (pw : Passwd) {s : Session} (hs : s.Sound) :
    LoginAnswers s (enterHome env pw s) := by
  unfold enterHome
  split
  · exact ⟨finals_reply (by decide) _ _, endLogin_sound _⟩
  · split
    · exact ⟨finals_reply (by decide) _ _, endLogin_sound _⟩
    · split
      · exact ⟨finals_reply (by decide) _ _, endLogin_sound _⟩
      · refine seteuid_answers env pw ?_ ?_
        · split
          · exact finals_lreply _ _ _
          · rfl
        · split
          · exact hs
          · exact hs

theorem enterSession_answers (db : Database) (env : LoginEnv) (passwd : Bytes) (pw : Passwd)
    {s : Session} (hs : s.Sound) : LoginAnswers s (enterSession db env passwd pw s) := by
  unfold enterSession
  dsimp only
  split
  · exact ⟨finals_reply (by decide) _ _, hs⟩
  · split
    · exact ⟨finals_reply (by decide) _ _, hs⟩
    · split
      · exact ⟨finals_reply (by decide) _ _, hs⟩
      · split
        · exact ⟨finals_reply (by decide) _ _, hs⟩
        · exact enterHome_answers env pw (s := { s with
            loginAttempts := 0
            loggedIn := true
            granted := some ⟨pw, s.guest, passwd, s.user⟩
            dochroot := checkuser db.ftpchroot pw.pwName }) hs

theorem pass_answers (db : Database) (env : LoginEnv) (passwd : Bytes) {s : Session}
    (hs : s.Sound) : LoginAnswers s (pass db env passwd s) := by
  unfold pass
  split
  · exact ⟨finals_reply (by decide) _ _, hs⟩
  · dsimp only
    split
    · next hpw =>
      have hguest : s.guest = false := by
        cases h : s.guest with
        | false => rfl
        | true => exact absurd hpw (hs h)
      rw [if_neg (by rw [hguest]; exact Bool.false_ne_true)]
      exact ⟨finals_reply (by decide) _ _, fun h => absurd (hguest.symm.trans h) Bool.false_ne_true⟩
    · next pw hpw =>
      split
      · exact enterSession_answers db env passwd pw (s := { s with askpasswd := false }) hs
      · next hwrong =>
        refine ⟨finals_reply (by decide) _ _, fun h => ?_⟩
        exact absurd (Or.inl h) hwrong

/-! ## Actions -/

def Server.Sound (s : Server) : Prop := s.login.Sound ∧ s.lexer.tmpline = []

def Server.answered (s : Server) : Nat := finals s.replies

/-- The server with another buffer of the scanner, and another place in it. -/
def Server.rebuf (s : Server) (buf : Bytes) (pos : Nat) : Server :=
  { s with lexer := { s.lexer with cbuf := buf, cpos := pos } }

/-- The action sends `n` final replies, and neither reads the buffer nor the connection. -/
structure Action (f : Server → Server) (n : Nat) : Prop where
  acts : ∀ s, s.Sound → (f s).Sound ∧ (f s).answered = s.answered + n
  streams : ∀ s, (f s).lexer.stdin = s.lexer.stdin ∧ (f s).lexer.state = s.lexer.state
  rebuf : ∀ s buf pos, f (s.rebuf buf pos) = (f s).rebuf buf pos

theorem Action.comp {f g : Server → Server} {m n : Nat} (hf : Action f m) (hg : Action g n) :
    Action (fun s => g (f s)) (m + n) where
  acts := fun s hs => by
    obtain ⟨hsound, hm⟩ := hf.acts s hs
    obtain ⟨hsound', hn⟩ := hg.acts (f s) hsound
    exact ⟨hsound', by omega⟩
  streams := fun s => ⟨(hg.streams (f s)).1.trans (hf.streams s).1,
    (hg.streams (f s)).2.trans (hf.streams s).2⟩
  rebuf := fun s buf pos => by
    rw [hf.rebuf]
    exact hg.rebuf (f s) buf pos

theorem Action.of {α : Type} {f : Server → Server} {n : Nat} (part : Server → α)
    (hpart : ∀ s buf pos, part (s.rebuf buf pos) = part s)
    (hf : ∀ a, ∃ g, Action g n ∧ ∀ s, part s = a → f s = g s) : Action f n where
  acts := fun s hs => by
    obtain ⟨g, hg, hsame⟩ := hf (part s)
    rw [hsame s rfl]
    exact hg.acts s hs
  streams := fun s => by
    obtain ⟨g, hg, hsame⟩ := hf (part s)
    rw [hsame s rfl]
    exact hg.streams s
  rebuf := fun s buf pos => by
    obtain ⟨g, hg, hsame⟩ := hf (part s)
    rw [hsame s rfl, hsame _ (hpart s buf pos)]
    exact hg.rebuf s buf pos

theorem Action.ite {p : Prop} [Decidable p] {f g : Server → Server} {n : Nat}
    (hf : Action f n) (hg : Action g n) : Action (fun s => if p then f s else g s) n := by
  by_cases hp : p
  · simp only [if_pos hp]
    exact hf
  · simp only [if_neg hp]
    exact hg

theorem reply_action {code : Nat} (hcode : 200 ≤ code) (text : Bytes) :
    Action (fun s => s.reply code text) 1 where
  acts := fun s hs => ⟨hs, finals_reply hcode s.replies text⟩
  streams := fun _ => ⟨rfl, rfl⟩
  rebuf := fun _ _ _ => rfl

theorem lreply_action (code : Nat) (text : Bytes) : Action (fun s => s.lreply code text) 0 where
  acts := fun s hs => ⟨hs, finals_lreply code s.replies text⟩
  streams := fun _ => ⟨rfl, rfl⟩
  rebuf := fun _ _ _ => rfl

theorem set_action (f : Server → Server) (hlexer : ∀ s, (f s).lexer = s.lexer)
    (hlogin : ∀ s, (f s).login.Sound ↔ s.login.Sound) (hreplies : ∀ s, (f s).replies = s.replies)
    (hrebuf : ∀ s buf pos, f (s.rebuf buf pos) = (f s).rebuf buf pos) : Action f 0 where
  acts := fun s hs => ⟨⟨(hlogin s).mpr hs.1, (congrArg Lexer.tmpline (hlexer s)).trans hs.2⟩,
    congrArg finals (hreplies s)⟩
  streams := fun s => ⟨congrArg Lexer.stdin (hlexer s), congrArg Lexer.state (hlexer s)⟩
  rebuf := hrebuf

theorem id_action : Action (fun s => s) 0 :=
  set_action _ (fun _ => rfl) (fun _ => Iff.rfl) (fun _ => rfl) (fun _ _ _ => rfl)

theorem onLogin_action {f : Session → Session}
    (hf : ∀ s : Session, s.Sound → LoginAnswers s (f s)) :
    Action (fun s => s.onLogin f) 1 where
  acts := fun s hs => by
    obtain ⟨hfinals, hsound⟩ := hf { s.login with replies := [] } hs.1
    exact ⟨⟨hsound, hs.2⟩, (finals_append _ _).trans (congrArg (finals s.replies + ·) hfinals)⟩
  streams := fun _ => ⟨rfl, rfl⟩
  rebuf := fun _ _ _ => rfl

theorem onData_action {f : Data.Session → Data.Session} (hf : ∀ s, Data.Answers s (f s) 1) :
    Action (fun s => s.onData f) 1 where
  acts := fun s hs => ⟨hs, (finals_append _ _).trans
    (congrArg (finals s.replies + ·) (hf { s.data with replies := [] }))⟩
  streams := fun _ => ⟨rfl, rfl⟩
  rebuf := fun _ _ _ => rfl

theorem transfer_action {env : LineEnv} (htmpline : env.tmpline = [])
    {f : Data.Session → Data.Session} (hf : ∀ s, Data.Answers s (f s) 1) :
    Action (fun s => s.transfer env f) 1 where
  acts := fun s hs => ⟨⟨hs.1, htmpline⟩, ((onData_action hf).acts s hs).2⟩
  streams := fun _ => ⟨rfl, rfl⟩
  rebuf := fun _ _ _ => rfl

theorem exit_action : Action Server.exit 0 :=
  set_action _ (fun _ => rfl) (fun _ => Iff.rfl) (fun _ => rfl) (fun _ _ _ => rfl)

/-! ## The actions of the commands -/

theorem cwd_action (env : LineEnv) (path : Bytes) : Action (fun s => s.cwd env path) 1 := by
  have hlines (lines : List Bytes) :
      Action (fun s => lines.foldl (fun s line => s.lreply 250 line) s) 0 := by
    induction lines with
    | nil => exact id_action
    | cons line lines ih => exact (lreply_action 250 line).comp ih
  exact Action.ite (reply_action (by decide) _) ((hlines env.message).comp
    (reply_action (by decide) _))

theorem delete_action (env : LineEnv) (name : Bytes) : Action (fun s => s.delete env name) 1 := by
  unfold Server.delete
  cases env.stat with
  | none => exact reply_action (by decide) _
  | some st => exact Action.ite (reply_action (by decide) _) (reply_action (by decide) _)

theorem makedir_action (env : LineEnv) (name : Bytes) : Action (fun s => s.makedir env name) 1 :=
  Action.ite (reply_action (by decide) _) (reply_action (by decide) _)

theorem removedir_action (env : LineEnv) (name : Bytes) :
    Action (fun s => s.removedir env name) 1 :=
  Action.ite (reply_action (by decide) _) (reply_action (by decide) _)

theorem pwd_action (env : LineEnv) : Action (fun s => s.pwd env) 1 := by
  unfold Server.pwd
  cases env.getcwd with
  | none => exact reply_action (by decide) _
  | some path => exact reply_action (by decide) _

theorem statfilecmd_action (env : LineEnv) (name : Bytes) :
    Action (fun s => s.statfilecmd env name) 1 :=
  (lreply_action 211 _).comp (Action.ite (reply_action (by decide) _) (reply_action (by decide) _))

theorem statcmd_action : Action (fun s => s.statcmd) 1 :=
  Action.of Server.hostname (fun _ _ _ => rfl) (fun hostname =>
    ⟨_, (lreply_action 211 (hostname ++ ascii " FTP server status:")).comp
      (@reply_action 211 (by decide) (ascii "End of status")),
      fun s hs => by rw [← hs]; rfl⟩)

def Server.plainSize (s : Server) (stat : Option FileStat) (name : Bytes)
    (size : FileStat → Nat) : Server :=
  match stat with
  | some st =>
    if st.isReg then s.reply 213 (Data.number (size st))
    else s.reply 550 (name ++ ascii ": not a plain file.")
  | none => s.reply 550 (name ++ ascii ": not a plain file.")

theorem plainSize_action (stat : Option FileStat) (name : Bytes) (size : FileStat → Nat) :
    Action (fun s => s.plainSize stat name size) 1 := by
  cases stat with
  | none => exact reply_action (by decide) _
  | some st => exact Action.ite (reply_action (by decide) _) (reply_action (by decide) _)

theorem sizecmd_action (env : LineEnv) (name : Bytes) :
    Action (fun s => s.sizecmd env name) 1 := by
  have hbinary : Action (fun s => s.plainSize env.stat name FileStat.size) 1 :=
    plainSize_action env.stat name FileStat.size
  have hascii : Action (fun s => if !env.fopen then s.perrorReply 550 name env.strerror
      else s.plainSize env.stat name (fun _ => env.asciiSize)) 1 :=
    Action.ite (reply_action (by decide) _) (plainSize_action env.stat name _)
  refine Action.of (fun s => s.data.type) (fun _ _ _ => rfl) (fun type => ?_)
  cases type with
  | L => exact ⟨_, hbinary, fun s hs => by unfold Server.sizecmd; rw [hs]; rfl⟩
  | I => exact ⟨_, hbinary, fun s hs => by unfold Server.sizecmd; rw [hs]; rfl⟩
  | A => exact ⟨_, hascii, fun s hs => by unfold Server.sizecmd; rw [hs]; rfl⟩
  | E =>
    exact ⟨_, @reply_action 504 (by decide) (ascii "SIZE not implemented for Type E."),
      fun s hs => by unfold Server.sizecmd; rw [hs]⟩

theorem mdtm_action (env : LineEnv) (name : Bytes) : Action (fun s => s.mdtm env name) 1 := by
  unfold Server.mdtm
  cases env.stat with
  | none => exact reply_action (by decide) _
  | some st => exact Action.ite (reply_action (by decide) _) (reply_action (by decide) _)

theorem help_action (site : Bool) (name : Option Bytes) :
    Action (fun s => s.help site name) 1 := by
  cases name with
  | none =>
    refine Action.of Server.hostname (fun _ _ _ => rfl) (fun hostname =>
      ⟨_, (lreply_action 214 (ascii "The following " ++ (if site then ascii "SITE " else []) ++
        ascii "commands are recognized (* =>'s unimplemented).")).comp
        (@reply_action 214 (by decide)
          (ascii "Direct comments to ftp-bugs@" ++ hostname ++ ascii ".")), fun s hs => ?_⟩)
    rw [← hs]
    rfl
  | some name =>
    unfold Server.help
    dsimp only
    cases lookup (if site then sitetab else cmdtab) (name.map toupper) with
    | none => exact reply_action (by decide) _
    | some c => exact Action.ite (reply_action (by decide) _) (reply_action (by decide) _)

theorem helpString_action (name : Bytes) : Action (fun s => s.helpString name) 1 :=
  Action.ite (help_action true _) (help_action false _)

theorem typeCommand_action (t : TypeSpec) : Action (fun s => s.typeCommand t) 1 := by
  have hset (type : Data.TypeCode) : Action (fun s => { s with data := { s.data with type := type } }) 0 :=
    set_action _ (fun _ => rfl) (fun _ => Iff.rfl) (fun _ => rfl) (fun _ _ _ => rfl)
  have hform : Action (fun s => { s with data := { s.data with type := .A }, form := .N }) 0 :=
    set_action _ (fun _ => rfl) (fun _ => Iff.rfl) (fun _ => rfl) (fun _ _ _ => rfl)
  cases t with
  | A form =>
    cases form with
    | N => exact hform.comp (reply_action (by decide) _)
    | T => exact reply_action (by decide) _
    | C => exact reply_action (by decide) _
  | E form => exact reply_action (by decide) _
  | I => exact (hset .I).comp (reply_action (by decide) _)
  | L bytesz =>
    exact Action.ite ((hset .L).comp (reply_action (by decide) _)) (reply_action (by decide) _)

theorem umaskCommand_action (mask : Option Int) : Action (fun s => s.umaskCommand mask) 1 := by
  have hset (mask : Int) : Action (fun s => { s with umask := mask }) 0 :=
    set_action _ (fun _ => rfl) (fun _ => Iff.rfl) (fun _ => rfl) (fun _ _ _ => rfl)
  refine Action.of Server.umask (fun _ _ _ => rfl) (fun umask => ?_)
  cases mask with
  | none =>
    exact ⟨_, @reply_action 200 (by decide) (ascii "Current UMASK is " ++ octal3 umask),
      fun s hs => by rw [← hs]; rfl⟩
  | some mask =>
    refine ⟨_, Action.ite (p := mask = -1 ∨ 511 < mask)
      (@reply_action 501 (by decide) (ascii "Bad UMASK value"))
      ((hset (mask % 512)).comp (@reply_action 200 (by decide)
        (ascii "UMASK set to " ++ octal3 mask ++ ascii " (was " ++ octal3 umask ++ ascii ")"))),
      fun s hs => ?_⟩
    rw [← hs]
    rfl

theorem idleCommand_action (seconds : Option Int) :
    Action (fun s => s.idleCommand seconds) 1 := by
  have hset (seconds : Int) : Action (fun s => { s with timeout := seconds }) 0 :=
    set_action _ (fun _ => rfl) (fun _ => Iff.rfl) (fun _ => rfl) (fun _ _ _ => rfl)
  refine Action.of (fun s => (s.timeout, s.maxtimeout)) (fun _ _ _ => rfl) (fun times => ?_)
  cases seconds with
  | none =>
    exact ⟨_, @reply_action 200 (by decide) (ascii "Current IDLE time limit is " ++
      integer times.1 ++ ascii " seconds; max " ++ integer times.2), fun s hs => by rw [← hs]; rfl⟩
  | some seconds =>
    refine ⟨_, Action.ite (p := seconds < 30 ∨ times.2 < seconds)
      (@reply_action 501 (by decide) (ascii "Maximum IDLE time must be between 30 and " ++
        integer times.2 ++ ascii " seconds"))
      ((hset seconds).comp (@reply_action 200 (by decide)
        (ascii "Maximum IDLE time set to " ++ integer seconds ++ ascii " seconds"))),
      fun s hs => ?_⟩
    rw [← hs]
    rfl

theorem chmodCommand_action (env : LineEnv) (mode : Int) (path : Bytes) :
    Action (fun s => s.chmodCommand env mode path) 1 :=
  Action.ite (reply_action (by decide) _)
    (Action.ite (reply_action (by decide) _) (reply_action (by decide) _))

theorem fromname_action (found : Option Bytes) : Action (fun s => { s with fromname := found }) 0 :=
  set_action _ (fun _ => rfl) (fun _ => Iff.rfl) (fun _ => rfl) (fun _ _ _ => rfl)

theorem renamecmd_action (env : LineEnv) (path : Option Bytes) :
    Action (fun s => s.renamecmd env path) 1 :=
  Action.ite (reply_action (by decide) _) (reply_action (by decide) _)

theorem rnto_action (env : LineEnv) (path : Option Bytes) :
    Action (fun s => s.rnto env path) 1 := by
  refine Action.of Server.fromname (fun _ _ _ => rfl) (fun fromname => ?_)
  cases fromname with
  | none =>
    exact ⟨_, @reply_action 503 (by decide) (ascii "Bad sequence of commands."),
      fun s hs => by unfold Server.rnto; rw [hs]⟩
  | some name =>
    exact ⟨_, (renamecmd_action env path).comp (fromname_action none),
      fun s hs => by unfold Server.rnto; rw [hs]⟩

theorem restart_action (offset : Int) :
    Action (fun s => { s with data := { s.data with restartPoint := offset } }) 0 :=
  set_action _ (fun _ => rfl) (fun _ => Iff.rfl) (fun _ => rfl) (fun _ _ _ => rfl)

theorem rnfr_action (env : LineEnv) (l : Bool) (path : Option Bytes) :
    Action (fun s => s.rnfr env l path) (l && path.isSome).toNat := by
  unfold Server.rnfr
  cases path with
  | none =>
    rw [Option.isSome_none, Bool.and_false]
    exact restart_action 0
  | some path =>
    cases l with
    | false => exact restart_action 0
    | true =>
      unfold Server.renamefrom
      cases env.stat with
      | none => exact (restart_action 0).comp ((reply_action (by decide) _).comp (fromname_action none))
      | some st =>
        exact (restart_action 0).comp ((reply_action (by decide) _).comp (fromname_action (some path)))

theorem rest_action (l : Bool) (offset : Int) :
    Action (fun s => s.rest l offset) l.toNat := by
  cases l with
  | false => exact id_action
  | true =>
    exact ((restart_action offset).comp (fromname_action none)).comp (reply_action (by decide) _)

theorem withPath_action (l : Bool) (path : Option Bytes) {f : Bytes → Server → Server}
    (hf : ∀ p, l = true → path = some p → Action (f p) 1) :
    Action (fun s => s.withPath l path f) (l && path.isSome).toNat := by
  cases path with
  | none =>
    rw [Option.isSome_none, Bool.and_false]
    exact id_action
  | some p =>
    cases l with
    | false => exact id_action
    | true => exact hf p rfl rfl

theorem withLogin_action (l : Bool) {f : Server → Server} (hf : l = true → Action f 1) :
    Action (fun s => s.withLogin l f) l.toNat := by
  cases l with
  | false => exact id_action
  | true => exact hf rfl

/-- The action sends a reply; otherwise `check_login` or the path has been answered. -/
def Command.answers : Command → Bool
  | .user _ | .pass _ | .help _ | .noop | .siteHelp _ | .quit => true
  | .error => false
  | .port l _ | .pasv l | .type l _ | .stru l _ | .mode l _ | .allo l | .nlst l _ | .list l none
  | .stat l none | .rnto l _ | .abor l | .cwd l none | .pwd l | .cdup l | .siteUmask l _
  | .siteIdle l _ | .syst l | .rest l _ => l
  | .retr l path | .stor l path | .appe l path | .list l (some path) | .stat l (some path)
  | .dele l path | .cwd l (some path) | .mkd l path | .rmd l path | .siteChmod l _ path
  | .stou l path | .size l path | .mdtm l path | .rnfr l path => l && path.isSome

/-- A transfer is not disturbed by an urgent signal, and its failures are answered. A rename whose
path could not be expanded would be answered twice. -/
def Command.isRegular (env : LineEnv) : Command → Bool
  | .retr true (some _) | .list true none | .list true (some (some _)) =>
    env.file.isQuiet && (env.file.opens || env.file.errno) && env.tmpline.isEmpty
  | .stor true (some _) | .appe true (some _) => env.file.isQuiet && env.tmpline.isEmpty
  | .stou true (some _) => env.file.isQuiet && env.unique.isAnswered && env.tmpline.isEmpty
  | .nlst true _ => env.list.isQuiet && env.tmpline.isEmpty
  | .rnto true none => false
  | _ => true

theorem retrieve_action {env : LineEnv}
    (henv : (env.file.isQuiet && (env.file.opens || env.file.errno) && env.tmpline.isEmpty) = true)
    (cmd : Bool) (name : Bytes) :
    Action (fun s => s.transfer env (Data.retrieve cmd env.file name)) 1 := by
  rw [Bool.and_eq_true, Bool.and_eq_true] at henv
  exact transfer_action (List.isEmpty_iff.mp henv.2)
    (Data.retrieve_answers henv.1.1 henv.1.2 cmd name)

theorem store_action {env : LineEnv} (henv : (env.file.isQuiet && env.tmpline.isEmpty) = true)
    (name : Bytes) : Action (fun s => s.transfer env (Data.store env.file none name)) 1 := by
  rw [Bool.and_eq_true] at henv
  exact transfer_action (List.isEmpty_iff.mp henv.2)
    (Data.store_answers henv.1 (fun _ hu => absurd hu (Option.some_ne_none _).symm) name)

theorem execute_action {env : LineEnv} {c : Command} (hc : c.isRegular env = true) :
    Action (fun s => s.execute env c) c.answers.toNat := by
  cases c with
  | user name => exact onLogin_action (fun s hs => user_answers env.database name hs)
  | pass passwd => exact onLogin_action (fun s hs => pass_answers env.database env.login passwd hs)
  | port l n => exact withLogin_action l (fun _ => onData_action (Data.portAction_answers n))
  | pasv l => exact withLogin_action l (fun _ => onData_action (Data.passive_answers env.passive))
  | type l t => exact withLogin_action l (fun _ => typeCommand_action t)
  | stru l c =>
    exact withLogin_action l (fun _ =>
      Action.ite (reply_action (by decide) _) (reply_action (by decide) _))
  | mode l c =>
    exact withLogin_action l (fun _ =>
      Action.ite (reply_action (by decide) _) (reply_action (by decide) _))
  | allo l => exact withLogin_action l (fun _ => reply_action (by decide) _)
  | retr l path =>
    refine withPath_action l path (fun p hl hpath => ?_)
    rw [hl, hpath] at hc
    exact retrieve_action hc false p
  | stor l path =>
    refine withPath_action l path (fun p hl hpath => ?_)
    rw [hl, hpath] at hc
    exact store_action hc p
  | appe l path =>
    refine withPath_action l path (fun p hl hpath => ?_)
    rw [hl, hpath] at hc
    exact store_action hc p
  | nlst l name =>
    have hlist (which : Bytes) (hl : l = true) :
        Action (fun s => s.transfer env (Data.sendFileList env.list which)) 1 := by
      rw [hl] at hc
      have hparts : (env.list.isQuiet && env.tmpline.isEmpty) = true := hc
      rw [Bool.and_eq_true] at hparts
      exact transfer_action (List.isEmpty_iff.mp hparts.2)
        (Data.sendFileList_answers hparts.1 which)
    cases name with
    | none => exact withLogin_action l (hlist (ascii "."))
    | some name => exact withLogin_action l (hlist name)
  | list l path =>
    cases path with
    | none =>
      refine withLogin_action l (fun hl => ?_)
      rw [hl] at hc
      exact retrieve_action hc true _
    | some path =>
      refine withPath_action l path (fun p hl hpath => ?_)
      rw [hl, hpath] at hc
      exact retrieve_action hc true _
  | stat l path =>
    cases path with
    | none => exact withLogin_action l (fun _ => statcmd_action)
    | some path => exact withPath_action l path (fun p _ _ => statfilecmd_action env p)
  | dele l path => exact withPath_action l path (fun p _ _ => delete_action env p)
  | rnto l path => exact withLogin_action l (fun _ => rnto_action env path)
  | abor l => exact withLogin_action l (fun _ => reply_action (by decide) _)
  | cwd l path =>
    cases path with
    | none =>
      refine withLogin_action l (fun _ => ?_)
      exact Action.of (fun s => s.login.pw) (fun _ _ _ => rfl) (fun pw =>
        ⟨_, cwd_action env ((pw.map (fun pw => pw.pwDir)).getD []), fun s hs => by rw [← hs]⟩)
    | some path => exact withPath_action l path (fun p _ _ => cwd_action env p)
  | help name =>
    cases name with
    | none => exact help_action false none
    | some name => exact helpString_action name
  | noop => exact reply_action (by decide) _
  | mkd l path => exact withPath_action l path (fun p _ _ => makedir_action env p)
  | rmd l path => exact withPath_action l path (fun p _ _ => removedir_action env p)
  | pwd l => exact withLogin_action l (fun _ => pwd_action env)
  | cdup l => exact withLogin_action l (fun _ => cwd_action env (ascii ".."))
  | siteHelp name => exact help_action true name
  | siteUmask l mask => exact withLogin_action l (fun _ => umaskCommand_action mask)
  | siteChmod l mode path =>
    exact withPath_action l path (fun p _ _ => chmodCommand_action env mode p)
  | siteIdle l seconds => exact withLogin_action l (fun _ => idleCommand_action seconds)
  | stou l path =>
    refine withPath_action l path (fun p hl hpath => ?_)
    rw [hl, hpath] at hc
    have hparts : (env.file.isQuiet && env.unique.isAnswered && env.tmpline.isEmpty) = true := hc
    rw [Bool.and_eq_true, Bool.and_eq_true] at hparts
    refine transfer_action (List.isEmpty_iff.mp hparts.2)
      (Data.store_answers hparts.1.1 (fun u hu => ?_) p)
    obtain rfl := Option.some.inj hu
    exact hparts.1.2
  | syst l => exact withLogin_action l (fun _ => reply_action (by decide) _)
  | size l path => exact withPath_action l path (fun p _ _ => sizecmd_action env p)
  | mdtm l path => exact withPath_action l path (fun p _ _ => mdtm_action env p)
  | quit => exact (reply_action (by decide) _).comp exit_action
  | error => exact id_action
  | rnfr l path => exact rnfr_action env l path
  | rest l offset => exact rest_action l offset

end Netkit.Ftpd

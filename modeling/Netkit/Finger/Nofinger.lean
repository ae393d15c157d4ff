import Netkit.Finger.Persons

/-!
# Users who do not want to be fingered

`finger.c`: without names, everybody who is logged in is entered; with names, everybody in the
password file whose login name or real name is one of them. A network request skips a user
whose home directory holds `.nofinger`, on each of these ways.

A user who is always skipped is never in the list of persons, and no login record of that name
is attached to anybody else. So finger comes to the same as without this account and its logins.

* `finger_hidden`: nothing is seen of the account.
-/

namespace Netkit.Finger

open Netkit.Foundations

/-! ## The program -/

structure Options where
  lflag : Bool
  mflag : Bool
  enableNofinger : Bool

def nofingerPath (pw : Passwd) : Bytes := (pw.dir ++ ascii "/.nofinger").take (PATH_MAX - 1)

def checkNofinger (o : Options) (w : World) (pw : Passwd) : Bool :=
  o.enableNofinger && (w.stat (nofingerPath pw)).isOk

/-- The body of the loop of `loginlist`. -/
def loginEntry (o : Options) (w : World) (s : State) (u : Utmp) : State :=
  if u.name.val = [] then s
  else if !u.userProcess then s
  else
    match findPerson u.name.val s with
    | some i => enterWhere w u i s
    | none =>
      match w.getpwnam u.name.val with
      | none => s
      | some pw =>
        if checkNofinger o w pw then s
        else
          let (i, s) := enterPerson w pw s
          enterWhere w u i s

def enterLastlogs (w : World) (s : State) : State :=
  (List.range s.persons.length).foldl (fun s i => enterLastlog w i s) s

def loginlist (o : Options) (w : World) (s : State) : State :=
  let s := w.utmp.foldl (loginEntry o w) s
  if o.lflag then enterLastlogs w s else s

/-- The persons, and `used`: -1 for a network request, 1 for a name that has been found. -/
abbrev Found : Type := State × List Int

/-- The account has one of the names, that at `i`. -/
def enterFound (o : Options) (w : World) (pw : Passwd) (i : Nat) (t : Found) : Found :=
  if checkNofinger o w pw then t else ((enterPerson w pw t.1).2, t.2.set i 1)

/-- `used[i] >= 0`. -/
def wanted (t : Found) (i : Nat) : Bool := 0 ≤ t.2.getD i 0

/-- With `-m`, the name is looked up. -/
def exactName (o : Options) (w : World) (argv : List Bytes) (t : Found) (i : Nat) : Found :=
  if wanted t i then
    match w.getpwnam (argv.getD i []) with
    | none => t
    | some pw => enterFound o w pw i t
  else t

def anyName (o : Options) (w : World) (argv : List Bytes) (pw : Passwd) (t : Found) (i : Nat) :
    Found :=
  if wanted t i && (strcasecmpEq pw.name (argv.getD i []) || matchUser pw (argv.getD i [])) then
    enterFound o w pw i t
  else t

def noSuchUser (name : Bytes) : Bytes :=
  ascii "finger: " ++ name ++ ascii ": no such user.\n"

def doLocal (o : Options) (w : World) (argv : List Bytes) (t : Found) : State :=
  let indices := List.range argv.length
  let t := if o.mflag then indices.foldl (exactName o w argv) t
    else w.passwd.foldl (fun t pw => indices.foldl (anyName o w argv pw) t) t
  { t.1 with
    messages := t.1.messages ++
      (indices.filter (fun i => t.2.getD i 0 = 0)).map (fun i => noSuchUser (argv.getD i [])) }

def isNetwork (arg : Bytes) : Bool := arg.contains 64

/-- The network requests: a newline is put between them and in front of the persons. -/
def netfingers (entries : Nat) : List Bytes → List (Bytes × Bool)
  | [] => []
  | arg :: args => (arg, args ≠ [] || entries ≠ 0) :: netfingers entries args

/-- The body of the loop of `userlist` over utmp. -/
def userEntry (w : World) (s : State) (u : Utmp) : State :=
  if u.name.val = [] then s
  else if !u.userProcess then s
  else
    match findPerson u.name.val s with
    | none => s
    | some i => enterWhere w u i s

def userlist (o : Options) (w : World) (argv : List Bytes) (s : State) : State :=
  let used : List Int := argv.map (fun arg => if isNetwork arg then -1 else 0)
  let s := if argv.any (fun arg => !isNetwork arg) then doLocal o w argv (s, used) else s
  let s := { s with netfingers := netfingers s.entries (argv.filter isNetwork) }
  if s.entries = 0 then s
  else enterLastlogs w (w.utmp.foldl (userEntry w) s)

/-- `main`, up to the printing, which is a function of the persons and of their number. -/
def finger (o : Options) (argv : List Bytes) (w : World) : State :=
  if argv = [] then loginlist o w .start else userlist o w argv .start

/-! ## A hidden account -/

def sameName (a b : Bytes) : Prop := a.take UT_NAMESIZE = b.take UT_NAMESIZE

instance (a b : Bytes) : Decidable (sameName a b) := inferInstanceAs (Decidable (_ = _))

/-- The files without the account and its logins. Its record in lastlog may be another. -/
def World.without (w : World) (h : Passwd) (accounts : List Passwd) (lastlog : List Lastlog) :
    World :=
  { w with
    passwd := accounts
    utmp := w.utmp.filter (fun u => ¬ sameName u.name.val h.name)
    lastlog := lastlog }

/-- The password file has the account between others, which differ from it in the login name and
in the user number, and its home directory holds `.nofinger`. -/
structure Hidden (w : World) (h : Passwd) (before after : List Passwd) (lastlog : List Lastlog) :
    Prop where
  passwd : w.passwd = before ++ h :: after
  nofinger : (w.stat (nofingerPath h)).isOk = true
  name : ∀ p ∈ before ++ after, ¬ sameName p.name h.name
  uid : ∀ p ∈ before ++ after, p.uid ≠ h.uid
  lastlog : ∀ uid, uid ≠ h.uid → lastlog.getD uid ⟨[], [], 0⟩ = w.lastlog.getD uid ⟨[], [], 0⟩

def Known (accounts : List Passwd) (s : State) : Prop :=
  ∀ pn ∈ s.persons, ∃ pw ∈ accounts, pn.name = pw.name ∧ pn.uid = pw.uid

theorem known_start (accounts : List Passwd) : Known accounts .start :=
  fun _ hpn => nomatch hpn

section Hidden

variable {o : Options} {w : World} {h : Passwd} {before after : List Passwd}
  {lastlog : List Lastlog} {s : State} {accounts : List Passwd}

/-! ## The persons -/

theorem userinfo_name (w : World) (pw : Passwd) :
    (userinfo w pw).1.name = pw.name ∧ (userinfo w pw).1.uid = pw.uid := by
  unfold userinfo
  dsimp only
  split
  · exact ⟨rfl, rfl⟩
  · split
    · exact ⟨rfl, rfl⟩
    · exact ⟨rfl, rfl⟩

theorem known_enterPerson {pw : Passwd} (hpw : pw ∈ accounts) (hs : Known accounts s) :
    Known accounts (enterPerson w pw s).2 := by
  unfold enterPerson
  split
  · exact hs
  · intro pn hpn
    rcases List.mem_append.mp hpn with hpn | hpn
    · exact hs pn hpn
    · obtain rfl := List.mem_singleton.mp hpn
      exact ⟨pw, hpw, userinfo_name w pw⟩

theorem known_addWhere (i : Nat) (r : Where) (hs : Known accounts s) :
    Known accounts (addWhere i r s) := by
  intro pn hpn
  obtain ⟨j, hj⟩ := List.mem_iff_getElem?.mp hpn
  have hj : (s.persons.modify i (fun pn => { pn with wheres := pn.wheres ++ [r] }))[j]? = some pn :=
    hj
  rw [List.getElem?_modify] at hj
  obtain ⟨pn', hpn', hsame⟩ := Option.map_eq_some_iff.mp hj
  obtain ⟨pw, hpw, hname, huid⟩ := hs pn' (List.mem_of_getElem? hpn')
  refine ⟨pw, hpw, ?_⟩
  rw [← hsame]
  split
  · exact ⟨hname, huid⟩
  · exact ⟨hname, huid⟩

theorem known_enterWhere (u : Utmp) (i : Nat) (hs : Known accounts s) :
    Known accounts (enterWhere w u i s) :=
  known_addWhere i _ hs

theorem known_enterLastlog (i : Nat) (hs : Known accounts s) :
    Known accounts (enterLastlog w i s) := by
  unfold enterLastlog
  split
  · exact hs
  · dsimp only
    split
    · exact known_addWhere i _ hs
    · exact hs

theorem findPerson_none {name : Bytes} (hs : Known accounts s)
    (hname : ∀ p ∈ accounts, ¬ sameName p.name name) : findPerson name s = none := by
  unfold findPerson
  rw [List.find?_eq_none]
  intro i _ hi
  obtain ⟨found, hfound, hsame⟩ := Option.map_eq_some_iff.mp (of_decide_eq_true hi)
  obtain ⟨pn, hpn, rfl⟩ := Option.map_eq_some_iff.mp hfound
  obtain ⟨pw, hpw, hpwname, -⟩ := hs pn (List.mem_of_getElem? hpn)
  exact hname pw hpw (hpwname ▸ hsame)

/-! ## The account is passed over -/

variable (hidden : Hidden w h before after lastlog) (honly : o.enableNofinger = true)

include hidden honly in
theorem check_hidden : checkNofinger o w h = true := by
  rw [checkNofinger, honly, hidden.nofinger]
  rfl

include hidden in
theorem getpwnam_cases (name : Bytes) :
    w.getpwnam name = (w.without h (before ++ after) lastlog).getpwnam name ∨
      w.getpwnam name = some h ∧ (w.without h (before ++ after) lastlog).getpwnam name = none := by
  unfold World.getpwnam World.without
  dsimp only
  rw [hidden.passwd, List.find?_append, List.find?_append, List.find?_cons]
  by_cases hname : h.name = name
  · have hother : ∀ p ∈ before ++ after, ¬ decide (p.name = name) = true := by
      intro p hp hpname
      refine hidden.name p hp ?_
      rw [sameName, of_decide_eq_true hpname, hname]
    have hbefore : before.find? (fun pw => pw.name = name) = none :=
      List.find?_eq_none.mpr (fun p hp => hother p (List.mem_append_left _ hp))
    have hafter : after.find? (fun pw => pw.name = name) = none :=
      List.find?_eq_none.mpr (fun p hp => hother p (List.mem_append_right _ hp))
    rw [hbefore, hafter, decide_eq_true hname]
    exact Or.inr ⟨rfl, rfl⟩
  · rw [decide_eq_false hname]
    exact Or.inl rfl

theorem getpwnam_without {name : Bytes} {pw : Passwd}
    (hpw : (w.without h (before ++ after) lastlog).getpwnam name = some pw) :
    pw ∈ before ++ after ∧ pw.name = name :=
  ⟨List.mem_of_find?_eq_some hpw, of_decide_eq_true (List.find?_some hpw :)⟩

include hidden honly in
theorem loginEntry_hidden {u : Utmp} (hs : Known (before ++ after) s)
    (hu : sameName u.name.val h.name) : loginEntry o w s u = s := by
  have hnobody : findPerson u.name.val s = none :=
    findPerson_none hs (fun p hp hsame => hidden.name p hp (hsame.trans hu))
  have hcheck := check_hidden hidden honly
  unfold loginEntry
  rw [hnobody]
  dsimp only
  split
  · rfl
  · split
    · rfl
    · rcases getpwnam_cases hidden u.name.val with hsame | ⟨hfound, -⟩
      · rw [hsame]
        split
        · rfl
        · next pw hpw =>
          obtain ⟨hmem, hname⟩ := getpwnam_without hpw
          exact absurd (hname ▸ hu) (hidden.name pw hmem)
      · rw [hfound]
        dsimp only
        rw [if_pos hcheck]

include hidden in
theorem loginEntry_other {u : Utmp} (hu : ¬ sameName u.name.val h.name) (s : State) :
    loginEntry o w s u = loginEntry o (w.without h (before ++ after) lastlog) s u := by
  have hpw : w.getpwnam u.name.val =
      (w.without h (before ++ after) lastlog).getpwnam u.name.val := by
    rcases getpwnam_cases hidden u.name.val with hsame | ⟨hfound, -⟩
    · exact hsame
    · have hname : h.name = u.name.val := of_decide_eq_true (List.find?_some hfound :)
      exact absurd (congrArg (List.take UT_NAMESIZE) hname.symm) hu
  unfold loginEntry
  rw [hpw]
  rfl

theorem known_loginEntry {u : Utmp} (hs : Known (before ++ after) s) :
    Known (before ++ after) (loginEntry o (w.without h (before ++ after) lastlog) s u) := by
  unfold loginEntry
  split
  · exact hs
  · split
    · exact hs
    · split
      · exact known_enterWhere u _ hs
      · split
        · exact hs
        · next pw hpw =>
          split
          · exact hs
          · exact known_enterWhere u _ (known_enterPerson (getpwnam_without hpw).1 hs)

theorem foldl_filter_of {σ α : Type} {f g : σ → α → σ} {I : σ → Prop} {p : α → Bool}
    (hkeep : ∀ s a, I s → p a = true → f s a = g s a ∧ I (g s a))
    (hskip : ∀ s a, I s → p a = false → f s a = s) {s : σ} (hs : I s) (l : List α) :
    l.foldl f s = (l.filter p).foldl g s ∧ I ((l.filter p).foldl g s) := by
  induction l generalizing s with
  | nil => exact ⟨rfl, hs⟩
  | cons a l ih =>
    rw [List.foldl_cons]
    cases ha : p a with
    | true =>
      obtain ⟨hsame, hnext⟩ := hkeep s a hs ha
      rw [List.filter_cons_of_pos ha, hsame]
      exact ih hnext
    | false =>
      rw [List.filter_cons_of_neg (Bool.eq_false_iff.mp ha), hskip s a hs ha]
      exact ih hs

include hidden in
theorem enterLastlog_same (i : Nat) (hs : Known (before ++ after) s) :
    enterLastlog w i s = enterLastlog (w.without h (before ++ after) lastlog) i s := by
  unfold enterLastlog
  split
  · rfl
  · next pn hpn =>
    obtain ⟨pw, hpw, -, huid⟩ := hs pn (List.mem_of_getElem? hpn)
    have hll : getLastlog w pn.uid = getLastlog (w.without h (before ++ after) lastlog) pn.uid :=
      (hidden.lastlog pn.uid (huid ▸ hidden.uid pw hpw)).symm
    rw [hll]

include hidden in
theorem enterLastlogs_same (hs : Known (before ++ after) s) :
    enterLastlogs w s = enterLastlogs (w.without h (before ++ after) lastlog) s := by
  have hloop := (foldl_filter_of (f := fun s i => enterLastlog w i s)
    (g := fun s i => enterLastlog (w.without h (before ++ after) lastlog) i s)
    (I := Known (before ++ after)) (p := fun _ => true)
    (fun s i hs _ => ⟨enterLastlog_same hidden i hs, known_enterLastlog i hs⟩)
    (fun _ _ _ hno => absurd hno (by decide)) hs (List.range s.persons.length)).1
  rw [List.filter_true] at hloop
  exact hloop

include hidden honly in
theorem loginlist_hidden (hs : Known (before ++ after) s) :
    loginlist o w s = loginlist o (w.without h (before ++ after) lastlog) s := by
  obtain ⟨hloop, hknown⟩ := foldl_filter_of (I := Known (before ++ after))
    (f := loginEntry o w) (g := loginEntry o (w.without h (before ++ after) lastlog))
    (p := fun u => ¬ sameName u.name.val h.name)
    (fun s u hs hu => ⟨loginEntry_other hidden (of_decide_eq_true hu) s, known_loginEntry hs⟩)
    (fun s u hs hu => loginEntry_hidden hidden honly hs
      (by_contra (fun hne => absurd hu (by rw [decide_eq_true hne]; decide)))) hs w.utmp
  unfold loginlist
  rw [hloop]
  dsimp only
  split
  · exact enterLastlogs_same hidden hknown
  · rfl

/-! ## Names -/

theorem known_enterFound {pw : Passwd} (hpw : pw ∈ accounts) (i : Nat) {t : Found}
    (ht : Known accounts t.1) : Known accounts (enterFound o w pw i t).1 := by
  unfold enterFound
  split
  · exact ht
  · exact known_enterPerson hpw ht

include hidden honly in
theorem exactName_hidden (argv : List Bytes) (t : Found) (i : Nat) :
    exactName o w argv t i = exactName o (w.without h (before ++ after) lastlog) argv t i := by
  have hcheck := check_hidden hidden honly
  unfold exactName
  rcases getpwnam_cases hidden (argv.getD i []) with hsame | ⟨hfound, hnone⟩
  · rw [hsame]
    rfl
  · rw [hfound, hnone]
    dsimp only
    rw [enterFound, if_pos hcheck]

theorem known_exactName (argv : List Bytes) {t : Found} (i : Nat)
    (ht : Known (before ++ after) t.1) :
    Known (before ++ after)
      (exactName o (w.without h (before ++ after) lastlog) argv t i).1 := by
  unfold exactName
  split
  · split
    · exact ht
    · next pw hpw => exact known_enterFound (getpwnam_without hpw).1 i ht
  · exact ht

include hidden honly in
theorem anyName_hidden (argv : List Bytes) (t : Found) (i : Nat) : anyName o w argv h t i = t := by
  unfold anyName enterFound
  rw [check_hidden hidden honly, if_pos rfl, ite_self]

theorem known_anyName (argv : List Bytes) {pw : Passwd} (hpw : pw ∈ accounts) {t : Found} (i : Nat)
    (ht : Known accounts t.1) : Known accounts (anyName o w argv pw t i).1 := by
  unfold anyName
  split
  · exact known_enterFound hpw i ht
  · exact ht

theorem foldl_keeps {σ α : Type} {f : σ → α → σ} {I : σ → Prop} {l : List α}
    (hstep : ∀ s, ∀ a ∈ l, I s → I (f s a)) {s : σ} (hs : I s) : I (l.foldl f s) := by
  induction l generalizing s with
  | nil => exact hs
  | cons a l ih =>
    exact ih (fun s b hb => hstep s b (List.mem_cons_of_mem a hb)) (hstep s a List.mem_cons_self hs)

include hidden honly in
theorem anyNames_hidden (argv : List Bytes) (indices : List Nat) (t : Found) :
    w.passwd.foldl (fun t pw => indices.foldl (anyName o w argv pw) t) t =
      (before ++ after).foldl (fun t pw => indices.foldl (anyName o w argv pw) t) t := by
  have hidle (t : Found) : indices.foldl (anyName o w argv h) t = t :=
    foldl_keeps (I := fun u => u = t)
      (fun u i _ hu => (anyName_hidden hidden honly argv u i).trans hu) rfl
  rw [hidden.passwd, List.foldl_append, List.foldl_append, List.foldl_cons, hidle]

include hidden honly in
theorem doLocal_hidden (argv : List Bytes) {t : Found} (ht : Known (before ++ after) t.1) :
    doLocal o w argv t = doLocal o (w.without h (before ++ after) lastlog) argv t ∧
      Known (before ++ after) (doLocal o (w.without h (before ++ after) lastlog) argv t) := by
  unfold doLocal
  dsimp only
  split
  · have hexact : exactName o w argv = exactName o (w.without h (before ++ after) lastlog) argv :=
      funext₂ (exactName_hidden hidden honly argv)
    rw [hexact]
    exact ⟨rfl, foldl_keeps (I := fun t : Found => Known (before ++ after) t.1)
      (fun _ i _ ht => known_exactName argv i ht) ht⟩
  · rw [anyNames_hidden hidden honly]
    refine ⟨rfl, foldl_keeps (I := fun t : Found => Known (before ++ after) t.1)
      (fun t pw hpw ht => ?_) ht⟩
    exact foldl_keeps (I := fun t : Found => Known (before ++ after) t.1)
      (fun _ i _ ht => known_anyName argv hpw i ht) ht

/-! ## Logins of those who are asked for -/

include hidden in
theorem userEntry_hidden {u : Utmp} (hs : Known (before ++ after) s)
    (hu : sameName u.name.val h.name) : userEntry w s u = s := by
  have hnobody : findPerson u.name.val s = none :=
    findPerson_none hs (fun p hp hsame => hidden.name p hp (hsame.trans hu))
  unfold userEntry
  rw [hnobody, ite_self, ite_self]

theorem known_userEntry {u : Utmp} (hs : Known accounts s) : Known accounts (userEntry w s u) := by
  unfold userEntry
  split
  · exact hs
  · split
    · exact hs
    · split
      · exact hs
      · exact known_enterWhere u _ hs

include hidden honly in
theorem userlist_hidden (argv : List Bytes) (hs : Known (before ++ after) s) :
    userlist o w argv s = userlist o (w.without h (before ++ after) lastlog) argv s := by
  have hlogins {s : State} (hs : Known (before ++ after) s) :
      enterLastlogs w (w.utmp.foldl (userEntry w) s) =
        enterLastlogs (w.without h (before ++ after) lastlog)
          ((w.without h (before ++ after) lastlog).utmp.foldl
            (userEntry (w.without h (before ++ after) lastlog)) s) := by
    obtain ⟨hloop, hknown⟩ := foldl_filter_of (I := Known (before ++ after))
      (f := userEntry w) (g := userEntry (w.without h (before ++ after) lastlog))
      (p := fun u => ¬ sameName u.name.val h.name) (fun s u hs _ => ⟨rfl, known_userEntry hs⟩)
      (fun s u hs hu => userEntry_hidden hidden hs
        (by_contra (fun hne => absurd hu (by rw [decide_eq_true hne]; decide)))) hs w.utmp
    rw [hloop]
    exact enterLastlogs_same hidden hknown
  unfold userlist
  dsimp only
  split
  · obtain ⟨hlocal, hknown⟩ := doLocal_hidden (t := (s, argv.map (fun arg =>
      if isNetwork arg then -1 else 0))) hidden honly argv hs
    rw [hlocal]
    split
    · rfl
    · exact hlogins hknown
  · split
    · rfl
    · exact hlogins hs

end Hidden

/-- **A user with `.nofinger` cannot be seen from the network**: finger enters the same persons
with the same login records, and writes the same messages, without the account and its logins. -/
theorem finger_hidden {o : Options} {w : World} {h : Passwd} {before after : List Passwd}
    {lastlog : List Lastlog} (hidden : Hidden w h before after lastlog)
    (honly : o.enableNofinger = true) (argv : List Bytes) :
    finger o argv w = finger o argv (w.without h (before ++ after) lastlog) := by
  have hs := known_start (before ++ after)
  unfold finger
  split
  · exact loginlist_hidden hidden honly hs
  · exact userlist_hidden hidden honly argv hs

/-- Two accounts; the second one is logged in, and its home directory holds `.nofinger`. -/
def twoAccounts : World where
  passwd := [⟨ascii "root", 0, ascii "Charlie &", ascii "/root", ascii "/bin/sh"⟩,
    ⟨ascii "joe", 7, ascii "Joe Public", ascii "/home/joe", ascii "/bin/sh"⟩]
  utmp := [⟨⟨ascii "joe", by decide⟩, true, ascii "tty1", [], 5⟩]
  lastlog := []
  stat := fun path =>
    if path = ascii "/home/joe/.nofinger" then .ok ⟨0, 0, 0, 0⟩ else .error true (ascii "No such file")
  now := 9

theorem finger_hidden_joe :
    finger ⟨false, false, true⟩ [ascii "public"] twoAccounts =
        finger ⟨false, false, true⟩ [ascii "public"]
          { twoAccounts with passwd := twoAccounts.passwd.take 1, utmp := [] } ∧
      (finger ⟨false, false, true⟩ [ascii "public"] twoAccounts).messages =
        [ascii "finger: public: no such user.\n"] := by
  have hidden : Hidden twoAccounts
      ⟨ascii "joe", 7, ascii "Joe Public", ascii "/home/joe", ascii "/bin/sh"⟩
      [⟨ascii "root", 0, ascii "Charlie &", ascii "/root", ascii "/bin/sh"⟩] [] [] := by
    refine ⟨rfl, by decide, fun p hp => ?_, fun p hp => ?_, fun _ _ => rfl⟩
    · obtain rfl := List.mem_singleton.mp hp
      decide
    · obtain rfl := List.mem_singleton.mp hp
      decide
  exact ⟨finger_hidden hidden rfl [ascii "public"], by decide +kernel⟩

end Netkit.Finger

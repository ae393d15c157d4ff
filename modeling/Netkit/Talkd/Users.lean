import Netkit.Talkd.Process

/-!
# The terminal that talkd pages a user on

`check_one_utmp`, `check_tty_perms` and `find_user` of `process.c`. One loop over utmp looks for
the terminal that is asked for, and for the one with the latest access time.

* `finds_iff`: the answer is right exactly if the loop does not have to fall back on another
  terminal than the one asked for, and some access time is not 0.
-/

namespace Netkit.Talkd

def FAILED : UInt8 := 2
def PERMISSION_DENIED : UInt8 := 4

def USER_PROCESS : Int := 7
def UT_NAMESIZE : ℕ := 32

/-- `struct utmp`, with the bytes from `ut_line` on. -/
structure Utmp where
  utType : Int
  utName : List UInt8
  utLine : List UInt8
  deriving DecidableEq

/-- What `stat` says of a terminal. -/
structure Stat where
  mode : UInt32
  atime : Int

/-- `/dev`, where no file has an empty name. -/
structure Dev where
  stat : List UInt8 → Option Stat
  empty : stat [] = none

def cstring (s : List UInt8) : List UInt8 := s.takeWhile (fun c => c != 0)

def checkOneUtmp (ut : Utmp) (name : List UInt8) : UInt8 :=
  if sameString (name.take NAME_SIZE) (ut.utName.take UT_NAMESIZE) then SUCCESS else NOT_HERE

/-- `check_tty_perms`, with the access time. -/
def checkTtyPerms (dev : Dev) (tty : List UInt8) : UInt8 × Int :=
  match dev.stat tty with
  | none => (FAILED, 0)
  | some statb => if statb.mode &&& 0o20 = 0 then (PERMISSION_DENIED, 0) else (SUCCESS, statb.atime)

/-- The variables of `find_user`. -/
structure Scan where
  found : Bool := false
  ok : Bool := false
  bestTime : Int := 0
  besttty : List UInt8 := []

def Scan.other (dev : Dev) (line : List UInt8) (s : Scan) : Scan :=
  let ret := checkTtyPerms dev line
  if ret.1 ≠ SUCCESS then { s with found := true }
  else if ret.2 > s.bestTime then ⟨true, true, ret.2, line⟩
  else { s with found := true, ok := true }

/-- The loop of `find_user`. It ends early when the terminal is found that is asked for. -/
def scanUtmp (dev : Dev) (name tty : List UInt8) : List Utmp → Scan → Option Scan
  | [], s => some s
  | ut :: rest, s =>
    if ut.utType ≠ USER_PROCESS then scanUtmp dev name tty rest s
    else if checkOneUtmp ut name ≠ SUCCESS then scanUtmp dev name tty rest s
    else if cstring tty ≠ [] ∧ sameString tty ut.utLine then none
    else scanUtmp dev name tty rest (s.other dev (cstring ut.utLine))

/-- `find_user`: the answer, and the string that is then at `tty`. -/
def findUser (dev : Dev) (utmp : List Utmp) (name tty : List UInt8) : UInt8 × List UInt8 :=
  match scanUtmp dev name tty utmp {} with
  | none => (SUCCESS, cstring tty)
  | some s =>
    (if !s.found then NOT_HERE else if !s.ok then PERMISSION_DENIED else SUCCESS, s.besttty)

/-! ## What it should answer -/

/-- The user is logged in with this record: the name fields hold the same name. -/
def Utmp.isOf (name : List UInt8) (ut : Utmp) : Bool :=
  ut.utType == USER_PROCESS && sameString (name.take NAME_SIZE) (ut.utName.take UT_NAMESIZE)

def logins (utmp : List Utmp) (name : List UInt8) : List (List UInt8) :=
  (utmp.filter (Utmp.isOf name)).map (fun ut => cstring ut.utLine)

def activity (dev : Dev) (line : List UInt8) : Option Int :=
  (dev.stat line).bind fun statb => if statb.mode &&& 0o20 = 0 then none else some statb.atime

/-- The terminal is a login that permits messages, and no other one has been active later. -/
def Latest (dev : Dev) (ttys : List (List UInt8)) (line : List UInt8) : Prop :=
  line ∈ ttys ∧ ∃ time, activity dev line = some time ∧
    ∀ l ∈ ttys, ∀ t, activity dev l = some t → t ≤ time

/-- The answer for a user who is logged in on `ttys`. -/
structure Finds (dev : Dev) (ttys : List (List UInt8)) (tty : List UInt8)
    (r : UInt8 × List UInt8) : Prop where
  asked : tty ≠ [] → (r.1 = SUCCESS ↔ tty ∈ ttys) ∧ (r.1 = SUCCESS → r.2 = tty)
  away : tty = [] → ttys = [] → r.1 = NOT_HERE
  denied : tty = [] → ttys ≠ [] → (∀ l ∈ ttys, activity dev l = none) → r.1 = PERMISSION_DENIED
  latest : tty = [] → (∃ l ∈ ttys, (activity dev l).isSome) → r.1 = SUCCESS ∧ Latest dev ttys r.2
  named : r.1 = SUCCESS → r.2 ≠ []

/-- The terminal that is asked for is a login, or no login permits messages; where none is asked
for, one that permits messages has an access time behind 0, or there is none. -/
def Apt (dev : Dev) (ttys : List (List UInt8)) (tty : List UInt8) : Prop :=
  if tty = [] then
    (∃ l ∈ ttys, (activity dev l).isSome) → ∃ l ∈ ttys, ∃ t, activity dev l = some t ∧ 0 < t
  else tty ∈ ttys ∨ ∀ l ∈ ttys, activity dev l = none

variable {dev : Dev} {name tty line : List UInt8} {ttys : List (List UInt8)} {s : Scan}

/-! ## The loop -/

theorem sameString_iff (a b : List UInt8) : sameString a b = true ↔ cstring a = cstring b :=
  beq_iff_eq

theorem other_eq : s.other dev line = match activity dev line with
    | none => { s with found := true }
    | some t => if t > s.bestTime then ⟨true, true, t, line⟩ else
        { s with found := true, ok := true } := by
  unfold Scan.other checkTtyPerms activity
  cases dev.stat line with
  | none => rfl
  | some statb =>
    dsimp only [Option.bind_some]
    split
    · rfl
    · rfl

theorem isOf_iff (ut : Utmp) (name : List UInt8) :
    ut.isOf name = true ↔ ut.utType = USER_PROCESS ∧ checkOneUtmp ut name = SUCCESS := by
  have hname : checkOneUtmp ut name = SUCCESS ↔
      sameString (name.take NAME_SIZE) (ut.utName.take UT_NAMESIZE) = true := by
    unfold checkOneUtmp
    split
    · next h => exact ⟨fun _ => h, fun _ => rfl⟩
    · next h => exact ⟨fun heq => absurd heq (by decide), fun heq => absurd heq h⟩
  rw [Utmp.isOf, Bool.and_eq_true, beq_iff_eq, hname]

theorem scanUtmp_eq (utmp : List Utmp) (s : Scan) :
    scanUtmp dev name tty utmp s =
      if cstring tty ≠ [] ∧ cstring tty ∈ logins utmp name then none
      else some ((logins utmp name).foldl (fun s line => s.other dev line) s) := by
  induction utmp generalizing s with
  | nil => exact (if_neg fun h => absurd h.2 List.not_mem_nil).symm
  | cons ut rest ih =>
    rw [scanUtmp]
    by_cases hof : ut.isOf name = true
    · obtain ⟨htype, hname⟩ := (isOf_iff ut name).mp hof
      have hlogins : logins (ut :: rest) name = cstring ut.utLine :: logins rest name := by
        rw [logins, List.filter_cons_of_pos hof]
        rfl
      rw [if_neg (not_not.mpr htype), if_neg (not_not.mpr hname), hlogins]
      by_cases hasked : cstring tty ≠ [] ∧ sameString tty ut.utLine = true
      · have hsame := (sameString_iff _ _).mp hasked.2
        rw [if_pos hasked, if_pos ⟨hasked.1, hsame ▸ List.mem_cons_self⟩]
      · rw [if_neg hasked, ih, List.foldl_cons]
        refine if_congr (and_congr_right fun hne => ?_) rfl rfl
        rw [List.mem_cons, or_iff_right]
        exact fun hsame => hasked ⟨hne, (sameString_iff _ _).mpr hsame⟩
    · have hlogins : logins (ut :: rest) name = logins rest name := by
        rw [logins, List.filter_cons_of_neg hof]
        rfl
      rw [isOf_iff, not_and] at hof
      rw [hlogins, ← ih]
      split
      · rfl
      · next htype =>
        rw [if_pos (hof (not_not.mp htype))]

/-- What the loop knows when it has seen the terminals `ttys`. -/
structure Scanned (dev : Dev) (ttys : List (List UInt8)) (s : Scan) : Prop where
  found : s.found = true ↔ ttys ≠ []
  ok : s.ok = true ↔ ∃ l ∈ ttys, (activity dev l).isSome
  best : ∀ l ∈ ttys, ∀ t, activity dev l = some t → t ≤ s.bestTime
  tty : s.bestTime = 0 ∧ s.besttty = [] ∨
    0 < s.bestTime ∧ s.besttty ∈ ttys ∧ activity dev s.besttty = some s.bestTime

theorem scanned_other (h : Scanned dev ttys s) (line : List UInt8) :
    Scanned dev (ttys ++ [line]) (s.other dev line) := by
  have hne : ttys ++ [line] ≠ [] := List.append_ne_nil_of_right_ne_nil _ (List.cons_ne_nil _ _)
  have hmem : line ∈ ttys ++ [line] := List.mem_append_right ttys (List.mem_singleton_self line)
  have hbest {time : Int} (hold : s.bestTime ≤ time)
      (hline : ∀ t, activity dev line = some t → t ≤ time) :
      ∀ l ∈ ttys ++ [line], ∀ t, activity dev l = some t → t ≤ time := by
    intro l hl t ht
    rcases List.mem_append.mp hl with hl | hl
    · exact Int.le_trans (h.best l hl t ht) hold
    · rw [List.mem_singleton.mp hl] at ht
      exact hline t ht
  have htty : s.bestTime = 0 ∧ s.besttty = [] ∨ 0 < s.bestTime ∧
      s.besttty ∈ ttys ++ [line] ∧ activity dev s.besttty = some s.bestTime :=
    h.tty.imp_right fun h => ⟨h.1, List.mem_append_left _ h.2.1, h.2.2⟩
  rw [other_eq]
  cases hactivity : activity dev line with
  | none =>
    refine ⟨⟨fun _ => hne, fun _ => rfl⟩, h.ok.trans ⟨?_, ?_⟩, hbest (Int.le_refl _) ?_, htty⟩
    · rintro ⟨l, hl, hsome⟩
      exact ⟨l, List.mem_append_left _ hl, hsome⟩
    · rintro ⟨l, hl, hsome⟩
      rcases List.mem_append.mp hl with hl | hl
      · exact ⟨l, hl, hsome⟩
      · rw [List.mem_singleton.mp hl, hactivity] at hsome
        cases hsome
    · intro t ht
      rw [hactivity] at ht
      cases ht
  | some time =>
    have hok : true = true ↔ ∃ l ∈ ttys ++ [line], (activity dev l).isSome := by
      refine ⟨fun _ => ⟨line, hmem, ?_⟩, fun _ => rfl⟩
      rw [hactivity]
      rfl
    dsimp only
    split
    · next hlate =>
      refine ⟨⟨fun _ => hne, fun _ => rfl⟩, hok, hbest (Int.le_of_lt hlate) ?_, Or.inr ?_⟩
      · intro t ht
        exact le_of_eq (Option.some.inj (ht.symm.trans hactivity))
      · refine ⟨?_, hmem, hactivity⟩
        rcases h.tty with ⟨hzero, -⟩ | ⟨hpos, -⟩
        · exact hzero ▸ hlate
        · exact Int.lt_trans hpos hlate
    · next hearly =>
      refine ⟨⟨fun _ => hne, fun _ => rfl⟩, hok, hbest (Int.le_refl _) ?_, htty⟩
      intro t ht
      rw [← Option.some.inj (ht.symm.trans hactivity)] at hearly
      exact Int.not_lt.mp hearly

theorem scanned_foldl (dev : Dev) (ttys : List (List UInt8)) :
    Scanned dev ttys (ttys.foldl (fun s line => s.other dev line) {}) := by
  induction ttys using List.reverseRecOn with
  | nil =>
    refine ⟨⟨fun h => ?_, fun h => absurd rfl h⟩, ⟨fun h => ?_, ?_⟩, ?_, Or.inl ⟨rfl, rfl⟩⟩
    · cases h
    · cases h
    · rintro ⟨l, hl, -⟩
      exact absurd hl List.not_mem_nil
    · exact fun l hl => absurd hl List.not_mem_nil
  | append_singleton ttys line ih =>
    rw [List.foldl_append]
    exact scanned_other ih line

/-! ## The answer -/

/-- The answer when the terminal that is asked for, if there is one, is no login. -/
def Scan.answer (s : Scan) : UInt8 × List UInt8 :=
  (if !s.found then NOT_HERE else if !s.ok then PERMISSION_DENIED else SUCCESS, s.besttty)

theorem Scanned.success_iff (h : Scanned dev ttys s) :
    s.answer.1 = SUCCESS ↔ ∃ l ∈ ttys, (activity dev l).isSome := by
  rw [← h.ok, Scan.answer]
  dsimp only
  by_cases hok : s.ok = true
  · have hfound : s.found = true := by
      obtain ⟨l, hl, -⟩ := h.ok.mp hok
      exact h.found.mpr (List.ne_nil_of_mem hl)
    rw [hfound, hok]
    exact ⟨fun _ => rfl, fun _ => rfl⟩
  · refine ⟨fun hanswer => ?_, fun h => absurd h hok⟩
    rw [Bool.not_eq_true] at hok
    rw [hok] at hanswer
    split at hanswer
    · exact absurd hanswer (by decide)
    · exact absurd hanswer (by decide)

theorem Scanned.besttty_iff (h : Scanned dev ttys s) :
    0 < s.bestTime ↔ ∃ l ∈ ttys, ∃ t, activity dev l = some t ∧ 0 < t := by
  constructor
  · intro hpos
    rcases h.tty with ⟨hzero, -⟩ | ⟨-, hmem, htime⟩
    · omega
    · exact ⟨_, hmem, _, htime, hpos⟩
  · rintro ⟨l, hl, t, ht, hpos⟩
    exact Int.lt_of_lt_of_le hpos (h.best l hl t ht)

theorem activity_empty : activity dev [] = none := by
  rw [activity, dev.empty]
  rfl

theorem Scanned.named_iff (h : Scanned dev ttys s) : s.besttty ≠ [] ↔ 0 < s.bestTime := by
  rcases h.tty with ⟨hzero, hnil⟩ | ⟨hpos, -, htime⟩
  · rw [hzero, hnil]
    exact ⟨fun h => absurd rfl h, fun h => absurd h (Int.lt_irrefl 0)⟩
  · refine ⟨fun _ => hpos, fun _ hnil => ?_⟩
    rw [hnil, activity_empty] at htime
    cases htime

theorem finds_elsewhere (h : Scanned dev ttys s) (hne : tty ≠ []) (hasked : tty ∉ ttys) :
    Finds dev ttys tty s.answer ↔ ∀ l ∈ ttys, activity dev l = none := by
  constructor
  · intro hfinds l hl
    rw [← Option.not_isSome_iff_eq_none]
    intro hsome
    exact hasked (((hfinds.asked hne).1).mp (h.success_iff.mpr ⟨l, hl, hsome⟩))
  · intro hnone
    have hfail : s.answer.1 ≠ SUCCESS := by
      rw [Ne, h.success_iff]
      rintro ⟨l, hl, hsome⟩
      rw [hnone l hl] at hsome
      cases hsome
    refine ⟨fun _ => ⟨⟨fun h => absurd h hfail, fun h => absurd h hasked⟩,
      fun h => absurd h hfail⟩, ?_, ?_, ?_, fun h => absurd h hfail⟩
    · exact fun hnil => absurd hnil hne
    · exact fun hnil => absurd hnil hne
    · exact fun hnil => absurd hnil hne

theorem finds_best (h : Scanned dev ttys s) :
    Finds dev ttys [] s.answer ↔ ((∃ l ∈ ttys, (activity dev l).isSome) →
      ∃ l ∈ ttys, ∃ t, activity dev l = some t ∧ 0 < t) := by
  rw [← h.success_iff, ← h.besttty_iff]
  constructor
  · intro hfinds hsuccess
    exact h.named_iff.mp (hfinds.named hsuccess)
  · intro hpos
    refine ⟨fun hne => absurd rfl hne, fun _ hnil => ?_, fun _ hne hnone => ?_, fun _ hsome => ?_,
      fun hsuccess => h.named_iff.mpr (hpos hsuccess)⟩
    · have hfound : s.found = false := by
        rw [← Bool.not_eq_true, h.found, not_not]
        exact hnil
      rw [Scan.answer, hfound]
      rfl
    · have hok : s.ok = false := by
        rw [← Bool.not_eq_true, h.ok]
        rintro ⟨l, hl, hsome⟩
        rw [hnone l hl] at hsome
        cases hsome
      rw [Scan.answer, h.found.mpr hne, hok]
      rfl
    · have hsuccess := h.success_iff.mpr hsome
      refine ⟨hsuccess, ?_⟩
      rcases h.tty with ⟨hzero, -⟩ | ⟨-, hmem, htime⟩
      · exact absurd (hpos hsuccess) (hzero ▸ Int.lt_irrefl 0)
      · exact ⟨hmem, s.bestTime, htime, h.best⟩

theorem finds_fallback (h : Scanned dev ttys s) (hasked : tty ≠ [] → tty ∉ ttys) :
    Finds dev ttys tty s.answer ↔ Apt dev ttys tty := by
  unfold Apt
  split
  · next hnil =>
    rw [hnil]
    exact finds_best h
  · next hne =>
    rw [finds_elsewhere h hne (hasked hne), or_iff_right (hasked hne)]

theorem findUser_eq (utmp : List Utmp) : findUser dev utmp name tty =
    if cstring tty ≠ [] ∧ cstring tty ∈ logins utmp name then (SUCCESS, cstring tty)
    else ((logins utmp name).foldl (fun (s : Scan) line => s.other dev line) {}).answer := by
  rw [findUser, scanUtmp_eq]
  by_cases h : cstring tty ≠ [] ∧ cstring tty ∈ logins utmp name
  · rw [if_pos h, if_pos h]
  · rw [if_neg h, if_neg h]
    rfl

/-- **`find_user` finds the terminal** exactly if it does not have to fall back on another one than
the one that is asked for, and an access time that counts is not 0. -/
theorem finds_iff (dev : Dev) (utmp : List Utmp) (name tty : List UInt8) :
    Finds dev (logins utmp name) (cstring tty) (findUser dev utmp name tty) ↔
      Apt dev (logins utmp name) (cstring tty) := by
  rw [findUser_eq]
  split
  · next h =>
    have hapt : Apt dev (logins utmp name) (cstring tty) := by
      rw [Apt, if_neg h.1]
      exact Or.inl h.2
    refine ⟨fun _ => hapt, fun _ => ⟨fun _ => ⟨⟨fun _ => h.2, fun _ => rfl⟩, fun _ => rfl⟩, ?_, ?_,
      ?_, fun _ => h.1⟩⟩
    · exact fun hnil => absurd hnil h.1
    · exact fun hnil => absurd hnil h.1
    · exact fun hnil => absurd hnil h.1
  · next h => exact finds_fallback (scanned_foldl dev _) (fun hne hmem => h ⟨hne, hmem⟩)

/-- A user who is logged in on `b` only, and is paged on `a`. -/
theorem not_finds_other : ¬ ∀ (dev : Dev) (utmp : List Utmp) (name tty : List UInt8),
    Finds dev (logins utmp name) (cstring tty) (findUser dev utmp name tty) := by
  intro h
  let dev : Dev := ⟨fun line => if line = [98] then some ⟨0o620, 5⟩ else none, by decide⟩
  have hfinds := (h dev [⟨USER_PROCESS, [117, 0], [98, 0]⟩] [117, 0] [97, 0]).asked (by decide)
  exact absurd (hfinds.1.mp (by decide)) (by decide)

end Netkit.Talkd

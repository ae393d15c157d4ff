import Netkit.Foundations.Loops
import Netkit.Ftp.Names

/-!
# The reader of .netrc

`xruserpass` looks for the entry of a host and takes the login, the password and the account from
it.
-/

namespace Netkit.Ftp.Ruserpass

open Netkit.Foundations

/-! ## Tokens -/

/-- `ID` is any other word, and `eof` is 0: the file is at its end, or the word is empty. -/
inductive Kind where
  | eof
  | default
  | login
  | passwd
  | account
  | macdef
  | id
  | mach
deriving DecidableEq

def toktab : List (Bytes × Kind) :=
  [(ascii "default", .default), (ascii "login", .login), (ascii "password", .passwd),
    (ascii "passwd", .passwd), (ascii "account", .account), (ascii "machine", .mach),
    (ascii "macdef", .macdef)]

def kindOf (tokval : Bytes) : Kind :=
  if tokval = [] then .eof else (toktab.lookup tokval).getD .id

def isSep (c : UInt8) : Bool := c = 10 || c = 9 || c = 32 || c = 44

/-- The rest of a word in quotes, and what is behind it. A backslash at the end of the file stores
what `getc` returns there. -/
def quotedWord : Bytes → Bytes × Bytes
  | [] => ([], [])
  | [c] => if c = 34 then ([], []) else if c = 92 then ([255], []) else ([c], [])
  | c :: d :: s =>
    if c = 34 then ([], d :: s)
    else if c = 92 then (d :: (quotedWord s).1, (quotedWord s).2)
    else (c :: (quotedWord (d :: s)).1, (quotedWord (d :: s)).2)

/-- The rest of a word without quotes, and what is behind it and one separator. -/
def bareWord : Bytes → Bytes × Bytes
  | [] => ([], [])
  | [c] => if isSep c then ([], []) else if c = 92 then ([255], []) else ([c], [])
  | c :: d :: s =>
    if isSep c then ([], d :: s)
    else if c = 92 then (d :: (bareWord s).1, (bareWord s).2)
    else (c :: (bareWord (d :: s)).1, (bareWord (d :: s)).2)

def readWord (c : UInt8) (s : Bytes) : Bytes × Bytes :=
  if c = 34 then quotedWord s else (c :: (bareWord s).1, (bareWord s).2)

/-- A token, its text in `tokval`, and what is behind it; `tokval` has room for 100 bytes. -/
def token (s : Bytes) : Option (Kind × Bytes × Bytes) :=
  match s.dropWhile isSep with
  | [] => some (.eof, [], [])
  | c :: s =>
    if (readWord c s).1.length < 100 then
      some (kindOf (cstring (readWord c s).1), cstring (readWord c s).1, (readWord c s).2)
    else none

/-! ## Macros -/

/-- `macnum`, the bytes of `macbuf` in use, and whether the byte in front of it is 0. -/
structure Macros where
  macnum : Nat
  used : Nat
  before : Bool
deriving DecidableEq

def MACBUF_SIZE : Nat := 4096

/-- The loop over the lines of a macro, with the room that is left, and whether the byte in front
of `tmp` is 0: how much it stores, and what is behind the null line. -/
def readBody : Nat → Bool → Bytes → Option (Nat × Bytes)
  | _, _, [] => none
  | space, nul, c :: s =>
    if space = 0 then none
    else if c = 10 then
      if nul then some (0, s)
      else (readBody (space - 1) true s).map (fun p => (p.1 + 1, p.2))
    else (readBody (space - 1) (c = 0) s).map (fun p => (p.1 + 1, p.2))

/-- A `macdef`, behind its keyword; nothing comes out where it is an error. -/
def readMacro (m : Macros) (s : Bytes) : Option (Macros × Bytes) :=
  match s.dropWhile (fun c => c = 32 || c = 9) with
  | [] => none
  | c :: s =>
    if c = 10 then none
    else if m.macnum = 16 then none
    else
      match s.dropWhile (fun c => c ≠ 10) with
      | [] => none
      | _ :: s =>
        (readBody (MACBUF_SIZE - m.used) (if m.macnum = 0 then m.before else true) s).map
          (fun p => ({ m with macnum := m.macnum + 1, used := m.used + p.1 }, p.2))

/-! ## Hosts -/

/-- What the user has called the host, its official name, the domain of the own host with its dot,
whether others may read the file, and whether there is a proxy connection. -/
structure NetrcEnv where
  host : Bytes
  hostname : Bytes
  mydomain : Bytes
  exposed : Bool
  proxy : Bool
deriving DecidableEq

/-- `strcasecmp`. -/
def sameText (a b : Bytes) : Bool := lower a = lower b

def sameHost (mydomain name tokval : Bytes) : Bool :=
  name.dropWhile (fun c => c ≠ 46) ≠ [] &&
    sameText (name.dropWhile (fun c => c ≠ 46)) mydomain &&
    sameText (name.takeWhile (fun c => c ≠ 46)) tokval

def NetrcEnv.isMatch (env : NetrcEnv) (tokval : Bytes) : Bool :=
  sameText env.host tokval || sameText env.hostname tokval ||
    sameHost env.mydomain env.hostname tokval || sameHost env.mydomain env.host tokval

/-! ## The loops -/

structure Creds where
  aname : Option Bytes
  apass : Option Bytes
  aacct : Option Bytes
deriving DecidableEq

/-- Which loop it is, `usedefault`, what has been found, and what is left of the file. -/
structure Scan where
  isMatch : Bool
  usedefault : Bool
  creds : Creds
  macros : Macros
  input : Bytes
deriving DecidableEq

/-- It returns 0 or -1, or writes past the end of `tokval`. -/
inductive Verdict where
  | returns (creds : Creds)
  | bad
  | overflow
deriving DecidableEq

def nextEntry (env : NetrcEnv) (s : Scan) : Except Verdict Scan :=
  match token s.input with
  | none => .error .overflow
  | some (.eof, _, _) => .error (.returns s.creds)
  | some (.default, _, rest) => .ok { s with usedefault := true, isMatch := true, input := rest }
  | some (.mach, _, rest) =>
    if s.usedefault then .ok { s with isMatch := true, input := rest }
    else
      match token rest with
      | none => .error .overflow
      | some (.id, name, rest) => .ok { s with isMatch := env.isMatch name, input := rest }
      | some (_, _, rest) => .ok { s with input := rest }
  | some (_, _, rest) => .ok { s with input := rest }

def withValue (s : Scan) (rest : Bytes) (f : Bytes → Scan) : Except Verdict Scan :=
  match token rest with
  | none => .error .overflow
  | some (.eof, _, rest) => .ok { s with input := rest }
  | some (_, v, rest) => .ok { f v with input := rest }

def takeLogin (s : Scan) (v : Bytes) : Scan :=
  match s.creds.aname with
  | none => { s with creds := { s.creds with aname := some v } }
  | some a => { s with isMatch := a = v }

def takePasswd (s : Scan) (v : Bytes) : Scan :=
  { s with creds := { s.creds with apass := s.creds.apass <|> some v } }

def takeAccount (s : Scan) (v : Bytes) : Scan :=
  { s with creds := { s.creds with aacct := s.creds.aacct <|> some v } }

def handleItem (env : NetrcEnv) (s : Scan) (rest : Bytes) : Kind → Except Verdict Scan
  | .eof | .mach | .default => .error (.returns s.creds)
  | .login => withValue s rest (takeLogin s)
  | .passwd =>
    if s.creds.aname.any (fun a => a = ascii "anonymous" || !env.exposed) then
      withValue s rest (takePasswd s)
    else .error .bad
  | .account => if env.exposed then .error .bad else withValue s rest (takeAccount s)
  | .macdef =>
    if env.proxy then .error (.returns s.creds)
    else
      match readMacro s.macros rest with
      | none => .error .bad
      | some (macros, rest) => .ok { s with macros, input := rest }
  | .id => .ok { s with input := rest }

/-- The inner loop, behind `match`. -/
def nextItem (env : NetrcEnv) (s : Scan) : Except Verdict Scan :=
  match token s.input with
  | none => .error .overflow
  | some (k, _, rest) => handleItem env s rest k

def step (env : NetrcEnv) (s : Scan) : Except Verdict Scan :=
  if s.isMatch then nextItem env s else nextEntry env s

def xruserpass (env : NetrcEnv) (macros : Macros) (given : Creds) (file : Bytes) : Verdict :=
  outcome (step env) (fun s => s.input.length) .bad ⟨false, false, given, macros, file⟩

/-! ## Every round reads something -/

theorem quotedWord_length (s : Bytes) : (quotedWord s).2.length ≤ s.length := by
  induction s using quotedWord.induct with
  | case1 => exact Nat.le_refl _
  | case2 => exact Nat.zero_le _
  | case3 => exact Nat.zero_le _
  | case4 c h h' =>
    rw [quotedWord, if_neg h, if_neg h']
    exact Nat.zero_le _
  | case5 d s =>
    rw [quotedWord, if_pos rfl]
    exact Nat.le_succ _
  | case6 d s h ih =>
    rw [quotedWord, if_neg h, if_pos rfl]
    exact Nat.le_succ_of_le (Nat.le_succ_of_le ih)
  | case7 c d s h h' ih =>
    rw [quotedWord, if_neg h, if_neg h']
    exact Nat.le_succ_of_le ih

theorem bareWord_length (s : Bytes) : (bareWord s).2.length ≤ s.length := by
  induction s using bareWord.induct with
  | case1 => exact Nat.le_refl _
  | case2 c h =>
    rw [bareWord, if_pos h]
    exact Nat.zero_le _
  | case3 h => exact Nat.zero_le _
  | case4 c h h' =>
    rw [bareWord, if_neg h, if_neg h']
    exact Nat.zero_le _
  | case5 c d s h =>
    rw [bareWord, if_pos h]
    exact Nat.le_succ _
  | case6 d s h ih =>
    rw [bareWord, if_neg h, if_pos rfl]
    exact Nat.le_succ_of_le (Nat.le_succ_of_le ih)
  | case7 c d s h h' ih =>
    rw [bareWord, if_neg h, if_neg h']
    exact Nat.le_succ_of_le ih

theorem readWord_length (c : UInt8) (s : Bytes) : (readWord c s).2.length ≤ s.length := by
  unfold readWord
  split
  · exact quotedWord_length s
  · exact bareWord_length s

theorem token_length {s : Bytes} {k : Kind} {v rest : Bytes} (h : token s = some (k, v, rest)) :
    rest.length ≤ s.length ∧ (k ≠ .eof → rest.length < s.length) := by
  have hsuffix := (List.dropWhile_suffix isSep (l := s)).length_le
  unfold token at h
  split at h
  case h_1 =>
    obtain ⟨hkind, htail⟩ := Prod.mk.inj (Option.some.inj h)
    obtain ⟨-, rfl⟩ := Prod.mk.inj htail
    exact ⟨Nat.zero_le _, fun hk => absurd hkind.symm hk⟩
  case h_2 c t ht =>
    rw [ht, List.length_cons] at hsuffix
    split at h
    case isFalse => exact nomatch h
    case isTrue =>
      obtain ⟨-, htail⟩ := Prod.mk.inj (Option.some.inj h)
      obtain ⟨-, rfl⟩ := Prod.mk.inj htail
      have hword := readWord_length c t
      exact ⟨by omega, fun _ => by omega⟩

theorem readBody_length {space : Nat} {nul : Bool} {s : Bytes} {p : Nat × Bytes}
    (h : readBody space nul s = some p) : p.2.length ≤ s.length := by
  induction s generalizing space nul p with
  | nil => exact nomatch h
  | cons c s ih =>
    have hmap {space : Nat} {nul : Bool}
        (h : (readBody space nul s).map (fun p => (p.1 + 1, p.2)) = some p) :
        p.2.length ≤ s.length + 1 := by
      obtain ⟨q, hq, rfl⟩ := Option.map_eq_some_iff.mp h
      have hlength := ih hq
      exact Nat.le_succ_of_le hlength
    rw [readBody] at h
    split at h
    · exact nomatch h
    · split at h
      · split at h
        · obtain rfl := Option.some.inj h
          exact Nat.le_succ _
        · exact hmap h
      · exact hmap h

theorem readMacro_length {m : Macros} {s : Bytes} {p : Macros × Bytes}
    (h : readMacro m s = some p) : p.2.length ≤ s.length := by
  have hblank := (List.dropWhile_suffix (fun c : UInt8 => c = 32 || c = 9) (l := s)).length_le
  unfold readMacro at h
  split at h
  · exact nomatch h
  case h_2 c t ht =>
    rw [ht, List.length_cons] at hblank
    have hline := (List.dropWhile_suffix (fun c : UInt8 => c ≠ 10) (l := t)).length_le
    split at h
    · exact nomatch h
    · split at h
      · exact nomatch h
      · split at h
        · exact nomatch h
        case h_2 d u hu =>
          rw [hu, List.length_cons] at hline
          obtain ⟨q, hq, rfl⟩ := Option.map_eq_some_iff.mp h
          have hbody := readBody_length hq
          dsimp only
          omega

theorem withValue_shorter {s t : Scan} {rest : Bytes} {f : Bytes → Scan}
    (h : withValue s rest f = .ok t) : t.input.length ≤ rest.length := by
  unfold withValue at h
  split at h
  · exact nomatch h
  case h_2 htoken =>
    obtain rfl := Except.ok.inj h
    exact (token_length htoken).1
  case h_3 htoken =>
    obtain rfl := Except.ok.inj h
    exact (token_length htoken).1

theorem handleItem_shorter {env : NetrcEnv} {s t : Scan} {rest : Bytes} {k : Kind}
    (h : handleItem env s rest k = .ok t) : k ≠ .eof ∧ t.input.length ≤ rest.length := by
  cases k with
  | eof => exact nomatch h
  | mach => exact nomatch h
  | default => exact nomatch h
  | login => exact ⟨by decide, withValue_shorter h⟩
  | passwd =>
    unfold handleItem at h
    dsimp only at h
    split at h
    · exact ⟨by decide, withValue_shorter h⟩
    · exact nomatch h
  | account =>
    unfold handleItem at h
    dsimp only at h
    split at h
    · exact nomatch h
    · exact ⟨by decide, withValue_shorter h⟩
  | macdef =>
    unfold handleItem at h
    dsimp only at h
    split at h
    · exact nomatch h
    · split at h
      · exact nomatch h
      case h_2 hmacro =>
        obtain rfl := Except.ok.inj h
        exact ⟨by decide, readMacro_length hmacro⟩
  | id =>
    obtain rfl := Except.ok.inj h
    exact ⟨by decide, Nat.le_refl _⟩

theorem nextItem_shorter {env : NetrcEnv} {s t : Scan} (h : nextItem env s = .ok t) :
    t.input.length < s.input.length := by
  unfold nextItem at h
  split at h
  · exact nomatch h
  case h_2 htoken =>
    obtain ⟨hk, hlength⟩ := handleItem_shorter h
    exact Nat.lt_of_le_of_lt hlength ((token_length htoken).2 hk)

theorem nextEntry_shorter {env : NetrcEnv} {s t : Scan} (h : nextEntry env s = .ok t) :
    t.input.length < s.input.length := by
  unfold nextEntry at h
  split at h
  case h_3 htoken =>
    obtain rfl := Except.ok.inj h
    exact (token_length htoken).2 (by decide)
  case h_4 htoken =>
    split at h
    · obtain rfl := Except.ok.inj h
      exact (token_length htoken).2 (by decide)
    · split at h
      · exact nomatch h
      case h_2 hname =>
        obtain rfl := Except.ok.inj h
        exact Nat.lt_of_le_of_lt (token_length hname).1 ((token_length htoken).2 (by decide))
      case h_3 hname =>
        obtain rfl := Except.ok.inj h
        exact Nat.lt_of_le_of_lt (token_length hname).1 ((token_length htoken).2 (by decide))
  case h_5 hdefault hmach hother htoken =>
    obtain rfl := Except.ok.inj h
    exact (token_length htoken).2 (by assumption)
  all_goals exact nomatch h

theorem step_shorter (env : NetrcEnv) (s t : Scan) (h : step env s = .ok t) :
    t.input.length < s.input.length := by
  unfold step at h
  split at h
  · exact nextItem_shorter h
  · exact nextEntry_shorter h

end Netkit.Ftp.Ruserpass

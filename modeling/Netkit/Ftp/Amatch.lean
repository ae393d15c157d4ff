import Netkit.Foundations.Lines

/-!
# Matching a file name

`amatch` compares a name with a pattern that has neither directories nor alternatives in it. The
characters of the name are masked with `TRIM`, those of the pattern are not, and a dash reads on
behind a character that is not greater than that of the name only.
-/

namespace Netkit.Ftp.Glob

open Netkit.Foundations

/-! ## The functions -/

/-- A `char` of the pattern. -/
def charOf (c : UInt8) : Int := if c.toNat < 128 then c.toNat else (c.toNat : Int) - 256

/-- `*s & TRIM`. -/
def scc (s : Bytes) : Int :=
  match s with
  | [] => 0
  | c :: _ => (c.toNat % 128 : ℕ)

/-- A class fails or lets the character pass, and the pattern goes on behind it; or it reads behind
the end of the pattern. -/
inductive Scanned where
  | fails
  | passes (p : Bytes)
  | astray
deriving DecidableEq

/-- The loop over a class. A class that is not closed ends with the pattern. -/
def scanClass (scc lc : Int) (ok : Bool) : Bytes → Scanned
  | [] => if ok then .passes [] else .fails
  | cc :: p =>
    if cc = 93 then if ok then .passes p else .fails
    else if cc = 45 then
      if lc ≤ scc then
        match p with
        | [] => .astray
        | d :: p => scanClass scc lc (ok || decide (scc ≤ charOf d)) p
      else scanClass scc lc ok p
    else scanClass scc (charOf cc) (ok || decide (scc = charOf cc)) p

/-- The loop of a `*`. -/
def tryAll (f : Bytes → Option Bool) : Bytes → Option Bool
  | [] => f []
  | c :: s =>
    match f (c :: s) with
    | some false => tryAll f s
    | r => r

/-- `amatch(s, p)`; nothing comes out where it reads behind the end of one of them. Directories and
alternatives are not matched here. -/
def amatchFrom : ℕ → Bytes → Bytes → Option Bool
  | 0, _, _ => none
  | fuel + 1, s, p =>
    match p with
    | [] => some (scc s = 0)
    | c :: p =>
      if c = 123 ∨ c = 47 then none
      else if c = 91 then
        match scanClass (scc s) 32767 false p with
        | .fails => some false
        | .astray => none
        | .passes p =>
          match s with
          | [] => none
          | _ :: s => amatchFrom fuel s p
      else if c = 42 then
        if p = [] then some true else tryAll (fun s => amatchFrom fuel s p) s
      else if c = 63 then
        if scc s = 0 then some false else amatchFrom fuel (s.drop 1) p
      else if charOf c ≠ scc s then some false
      else amatchFrom fuel (s.drop 1) p

def amatch (s p : Bytes) : Option Bool := amatchFrom (p.length + 1) s p

/-! ## Patterns -/

/-- What a class lists. -/
inductive ClassItem where
  | one (c : UInt8)
  | range (first last : UInt8)
deriving DecidableEq

def ClassItem.text : ClassItem → Bytes
  | .one c => [c]
  | .range first last => [first, 45, last]

def ClassItem.Has (c : UInt8) : ClassItem → Prop
  | .one d => c = d
  | .range first last => first ≤ c ∧ c ≤ last

inductive Tok where
  | star
  | any
  | one (c : UInt8)
  | oneOf (items : List ClassItem)
deriving DecidableEq

def Tok.text : Tok → Bytes
  | .star => [42]
  | .any => [63]
  | .one c => [c]
  | .oneOf items => 91 :: (items.flatMap ClassItem.text ++ [93])

def patternText (ts : List Tok) : Bytes := ts.flatMap Tok.text

/-- A character in a class stands for itself unless it closes the class or makes a range. -/
def ClassItem.Written : ClassItem → Prop
  | .one c => c ≠ 0 ∧ c ≠ 93 ∧ c ≠ 45
  | .range first last => first ≠ 0 ∧ first ≠ 93 ∧ first ≠ 45 ∧ last ≠ 0 ∧ last ≠ 93

/-- A pattern without `/` and `{`. -/
def Tok.Written : Tok → Prop
  | .star => True
  | .any => True
  | .one c => c ≠ 0 ∧ c ≠ 42 ∧ c ≠ 63 ∧ c ≠ 91 ∧ c ≠ 47 ∧ c ≠ 123
  | .oneOf items => ∀ i ∈ items, i.Written

/-- The language of a pattern. -/
inductive Lang : List Tok → Bytes → Prop where
  | nil : Lang [] []
  | star {ts : List Tok} (u : Bytes) {s : Bytes} (h : Lang ts s) : Lang (.star :: ts) (u ++ s)
  | any {ts : List Tok} (c : UInt8) {s : Bytes} (h : Lang ts s) : Lang (.any :: ts) (c :: s)
  | one {ts : List Tok} (c : UInt8) {s : Bytes} (h : Lang ts s) : Lang (.one c :: ts) (c :: s)
  | oneOf {ts : List Tok} {items : List ClassItem} {i : ClassItem} {c : UInt8} {s : Bytes}
    (hi : i ∈ items) (hc : i.Has c) (h : Lang ts s) : Lang (.oneOf items :: ts) (c :: s)

def Matches (ts : List Tok) (name : Bytes) : Prop :=
  ∃ b, amatch name (patternText ts) = some b ∧ (b = true ↔ Lang ts name)

/-! ## Seven bits -/

def Plain (name : Bytes) : Prop := ∀ c ∈ name, c ≠ 0 ∧ c < 128

variable {ts : List Tok} {items : List ClassItem} {name s p : Bytes} {c : UInt8} {fuel : ℕ}

def ClassItem.Covers (n : Int) : ClassItem → Prop
  | .one c => n = charOf c
  | .range first last => charOf first ≤ n ∧ n ≤ charOf last

instance (n : Int) (i : ClassItem) : Decidable (i.Covers n) :=
  match i with
  | .one c => inferInstanceAs (Decidable (n = charOf c))
  | .range first last => inferInstanceAs (Decidable (charOf first ≤ n ∧ n ≤ charOf last))

theorem Plain.append {u : Bytes} (h : Plain (u ++ s)) : Plain s := fun c hc =>
  h c (List.mem_append_right u hc)

end Netkit.Ftp.Glob

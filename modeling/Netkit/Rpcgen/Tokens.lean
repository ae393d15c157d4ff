import Mathlib.Data.List.Find
import Netkit.Foundations.Cuts
import Netkit.Rpcgen.Declaration

/-!
# Tokens of an interface definition

The part of `get_token` of `rpc_scan.c` that reads one token at `where`, and the line that the C
preprocessor leaves.
-/

namespace Netkit.Rpcgen

open Netkit.Foundations

/-- `enum tok_kind`, without the end of the file. -/
inductive TokKind where
  | ident | charconst | strconst
  | lparen | rparen | lbrace | rbrace | lbracket | rbracket | langle | rangle
  | star | comma | equal | colon | semicolon
  | const | struct | union | switch | case | default | enum | typedef
  | int | short | long | unsigned | float | double | opaqueType | char | string | bool | void
  | program | version
deriving DecidableEq

/-- `struct token`. A punctuation mark leaves `str` as it is. -/
structure Token where
  kind : TokKind
  str : Option Text := none
deriving DecidableEq

def isspace (c : Char) : Bool :=
  c == ' ' || c == '\t' || c == '\n' || c == '\r' || c == '\x0b' || c == '\x0c'

def isdigit (c : Char) : Bool := '0' ≤ c && c ≤ '9'

def isalpha (c : Char) : Bool := 'a' ≤ c && c ≤ 'z' || 'A' ≤ c && c ≤ 'Z'

def isalnum (c : Char) : Bool := isalpha c || isdigit c

def isxdigit (c : Char) : Bool := isdigit c || 'a' ≤ c && c ≤ 'f' || 'A' ≤ c && c ≤ 'F'

def isprint (c : Char) : Bool := ' ' ≤ c && c ≤ '~'

def isword (c : Char) : Bool := isalnum c || c == '_'

def punctuation : Char → Option TokKind
  | ':' => some .colon
  | ';' => some .semicolon
  | ',' => some .comma
  | '=' => some .equal
  | '*' => some .star
  | '[' => some .lbracket
  | ']' => some .rbracket
  | '{' => some .lbrace
  | '}' => some .rbrace
  | '(' => some .lparen
  | ')' => some .rparen
  | '<' => some .langle
  | '>' => some .rangle
  | _ => none

def symbols : List (TokKind × Text) :=
  [(.const, "const"), (.union, "union"), (.switch, "switch"), (.case, "case"),
    (.default, "default"), (.struct, "struct"), (.typedef, "typedef"), (.enum, "enum"),
    (.opaqueType, "opaque"), (.bool, "bool"), (.void, "void"), (.char, "char"), (.int, "int"),
    (.unsigned, "unsigned"), (.short, "short"), (.long, "long"), (.float, "float"),
    (.double, "double"), (.string, "string"), (.program, "program"),
    (.version, "version")].map fun s => (s.1, s.2.toList)

/-! ## Reading one -/

/-- The constant behind the quote `q`. -/
def findquoted (q : Char) (str : Text) : Except Text (Text × Text) :=
  match str.dropWhile (fun c => c != q) with
  | [] => .error "unterminated string constant".toList
  | _ :: rest => .ok (q :: str.takeWhile (fun c => c != q) ++ [q], rest)

/-- `findstrconst`, behind the quote. -/
def findstrconst (str : Text) : Except Text (Token × Text) :=
  match findquoted '"' str with
  | .error e => .error e
  | .ok (val, rest) => .ok (⟨.strconst, some val⟩, rest)

/-- `findchrconst`, behind the quote. -/
def findchrconst (str : Text) : Except Text (Token × Text) :=
  match findquoted '\'' str with
  | .error e => .error e
  | .ok (val, rest) =>
    if val.length ≠ 3 then .error "empty char string".toList
    else .ok (⟨.charconst, some val⟩, rest)

/-- `findconst`, at a digit or a minus sign `c`. -/
def findconst (c : Char) (str : Text) : Token × Text :=
  if c = '0' ∧ str.head? = some 'x' then
    (⟨.ident, some (c :: 'x' :: str.tail.takeWhile isxdigit)⟩, str.tail.dropWhile isxdigit)
  else (⟨.ident, some (c :: str.takeWhile isdigit)⟩, str.dropWhile isdigit)

/-- The symbol stands at `str`, and ends there. -/
def isSymbol (str : Text) (s : TokKind × Text) : Bool :=
  s.2.isPrefixOf str && !(str.drop s.2.length).head?.any isword

def findkind (str : Text) : Token × Text :=
  match symbols.find? (isSymbol str) with
  | some s => (⟨s.1, some s.2⟩, str.drop s.2.length)
  | none => (⟨.ident, some (str.takeWhile isword)⟩, str.dropWhile isword)

/-- A byte as `%d` prints a `char`. -/
def charNumber (c : Char) : Int := if c.toNat < 128 then c.toNat else c.toNat - 256

def illegalCharacter (c : Char) : Text :=
  "illegal character in file: ".toList ++
    if isprint c then [c] else (toString (charNumber c)).toList

/-- The token at `where`, and the text behind it. -/
def readToken : Text → Except Text (Token × Text)
  | [] => .error []
  | c :: str =>
    match punctuation c with
    | some kind => .ok (⟨kind, none⟩, str)
    | none =>
      if c = '"' then findstrconst str
      else if c = '\'' then findchrconst str
      else if c = '-' ∨ isdigit c then .ok (findconst c str)
      else if isalpha c ∨ c = '_' then .ok (findkind (c :: str))
      else .error (illegalCharacter c)

/-! ## Where it ends -/

def Token.width (t : Token) : ℕ := (t.str.map List.length).getD 1

def kindOf (word : Text) : TokKind :=
  ((symbols.find? fun s => s.2 == word).map Prod.fst).getD .ident

variable {c q : Char} {str u v val rest : Text} {t : Token}

theorem symbols_isword : ∀ s ∈ symbols, ∀ c ∈ s.2, isword c = true := by
  have hall : symbols.all (fun s => s.2.all isword) = true := by decide
  intro s hs
  exact List.all_eq_true.mp (List.all_eq_true.mp hall s hs)

theorem isSymbol_iff {s : TokKind × Text} (hs : s ∈ symbols) :
    isSymbol str s = true ↔ s.2 = str.takeWhile isword := by
  have hword := symbols_isword s hs
  rw [isSymbol, Bool.and_eq_true, Bool.not_eq_true', List.isPrefixOf_iff_prefix]
  constructor
  · rintro ⟨⟨r, rfl⟩, hnext⟩
    rw [List.drop_left] at hnext
    rw [List.takeWhile_append_of_pos hword]
    cases r with
    | nil => rw [List.takeWhile_nil, List.append_nil]
    | cons d r =>
      have hd : isword d = false := hnext
      rw [List.takeWhile_cons, hd]
      exact (List.append_nil _).symm
  · intro heq
    have hsplit := List.takeWhile_append_dropWhile (p := isword) (l := str)
    rw [← heq] at hsplit
    refine ⟨⟨_, hsplit⟩, ?_⟩
    have hdrop : str.drop s.2.length = str.dropWhile isword := by
      conv_lhs => rw [← hsplit]
      exact List.drop_left
    rw [hdrop]
    cases hrest : str.dropWhile isword with
    | nil => rfl
    | cons d r =>
      have hd := List.head?_dropWhile_not isword str
      rw [hrest] at hd
      exact hd

theorem findkind_eq (str : Text) : findkind str =
    (⟨kindOf (str.takeWhile isword), some (str.takeWhile isword)⟩, str.dropWhile isword) := by
  have hfind :
      symbols.find? (isSymbol str) = symbols.find? fun s => s.2 == str.takeWhile isword := by
    refine List.find?_congr fun s hs => ?_
    rw [Bool.eq_iff_iff, isSymbol_iff hs, beq_iff_eq]
  rw [findkind, kindOf, hfind]
  cases h : symbols.find? fun s => s.2 == str.takeWhile isword with
  | none => rfl
  | some s =>
    have hword : (s.2 == str.takeWhile isword) = true :=
      List.find?_some (p := fun s : TokKind × Text => s.2 == str.takeWhile isword) h
    have hs := eq_of_beq hword
    have hdrop : str.drop s.2.length = str.dropWhile isword := by
      have hsplit := List.takeWhile_append_dropWhile (p := isword) (l := str)
      conv_lhs => rw [← hsplit, hs]
      exact List.drop_left
    dsimp only
    rw [hdrop, hs]
    rfl

theorem findquoted_length (h : findquoted q str = .ok (val, rest)) :
    str.length + 1 = val.length + rest.length := by
  rw [findquoted] at h
  have hsplit := congrArg List.length
    (List.takeWhile_append_dropWhile (p := fun c => c != q) (l := str))
  cases hdrop : str.dropWhile (fun c => c != q) with
  | nil =>
    rw [hdrop] at h
    cases h
  | cons d r =>
    rw [hdrop] at h hsplit
    cases h
    simp only [List.length_append, List.length_cons, List.length_nil] at hsplit ⊢
    omega

theorem findquoted_pos (h : findquoted q str = .ok (val, rest)) : 0 < val.length := by
  rw [findquoted] at h
  split at h
  · cases h
  · cases h
    exact Nat.succ_pos _

theorem findquoted_cut (h : findquoted q (u ++ v) = .ok (val, rest))
    (hle : v.length ≤ rest.length) : ∃ r, rest = r ++ v ∧ findquoted q u = .ok (val, r) := by
  rw [findquoted] at h
  cases hdrop : (u ++ v).dropWhile (fun c => c != q) with
  | nil =>
    rw [hdrop] at h
    cases h
  | cons d rest' =>
    rw [hdrop] at h
    cases h
    have hlonger : v.length ≤ ((u ++ v).dropWhile (fun c => c != q)).length := by
      rw [hdrop, List.length_cons]
      exact Nat.le_succ_of_le hle
    obtain ⟨hcut, htake⟩ := takeWhile_cut hlonger
    rw [hdrop] at hcut
    rw [findquoted, htake]
    cases hu : u.dropWhile (fun c => c != q) with
    | nil =>
      rw [hu, List.nil_append] at hcut
      rw [← hcut, List.length_cons] at hle
      exact absurd hle (Nat.not_succ_le_self _)
    | cons d' r =>
      rw [hu, List.cons_append] at hcut
      exact ⟨r, (List.cons.inj hcut).2, rfl⟩

theorem findconst_length (c : Char) (str : Text) :
    str.length + 1 = (findconst c str).1.width + (findconst c str).2.length := by
  unfold findconst
  split
  · next h =>
    cases str with
    | nil => cases h.2
    | cons d str =>
      have hsplit := congrArg List.length
        (List.takeWhile_append_dropWhile (p := isxdigit) (l := str))
      simp only [Token.width, Option.map_some, Option.getD_some, List.length_cons, List.tail_cons,
        List.length_append] at hsplit ⊢
      omega
  · have hsplit := congrArg List.length
      (List.takeWhile_append_dropWhile (p := isdigit) (l := str))
    simp only [Token.width, Option.map_some, Option.getD_some, List.length_cons,
      List.length_append] at hsplit ⊢
    omega

theorem findconst_pos (c : Char) (str : Text) : 0 < (findconst c str).1.width := by
  unfold findconst
  split
  · exact Nat.succ_pos _
  · exact Nat.succ_pos _

theorem findconst_cut (hle : v.length ≤ (findconst c (u ++ v)).2.length) :
    ∃ r, findconst c (u ++ v) = ((findconst c u).1, r ++ v) ∧ (findconst c u).2 = r := by
  refine ⟨_, ?_, rfl⟩
  cases u with
  | nil =>
    by_cases hhex : c = '0' ∧ v.head? = some 'x'
    · -- the `x` is not in the buffer
      rw [List.nil_append, findconst, if_pos hhex] at hle
      have hshort : (v.tail.dropWhile isxdigit).length ≤ v.tail.length :=
        List.length_dropWhile_le _ _
      cases v with
      | nil => cases hhex.2
      | cons d v =>
        rw [List.length_cons] at hle
        exact absurd (hle.trans hshort) (Nat.not_succ_le_self _)
    · have hnil : ¬ (c = '0' ∧ ([] : Text).head? = some 'x') := fun h => by cases h.2
      rw [findconst, List.nil_append, if_neg hhex] at hle ⊢
      rw [findconst, if_neg hnil]
      obtain ⟨hdrop, htake⟩ := takeWhile_cut (u := []) (p := isdigit) hle
      exact Prod.ext (by rw [← htake]; rfl) hdrop
  | cons d u =>
    rw [List.cons_append, findconst] at hle ⊢
    rw [findconst]
    by_cases hhex : c = '0' ∧ d = 'x'
    · have hhead : c = '0' ∧ some d = some 'x' := ⟨hhex.1, congrArg some hhex.2⟩
      rw [List.head?_cons, if_pos hhead, List.tail_cons] at hle ⊢
      rw [List.head?_cons, if_pos hhead, List.tail_cons]
      obtain ⟨hdrop, htake⟩ := takeWhile_cut hle
      rw [hdrop, htake]
    · have hhead : ¬ (c = '0' ∧ some d = some 'x') := fun h => hhex ⟨h.1, Option.some.inj h.2⟩
      rw [List.head?_cons, if_neg hhead, ← List.cons_append] at hle ⊢
      rw [List.head?_cons, if_neg hhead]
      obtain ⟨hdrop, htake⟩ := takeWhile_cut hle
      rw [hdrop, htake]

theorem findkind_length (str : Text) :
    str.length = (findkind str).1.width + (findkind str).2.length := by
  have hsplit := congrArg List.length
    (List.takeWhile_append_dropWhile (p := isword) (l := str))
  rw [findkind_eq]
  rw [List.length_append] at hsplit
  exact hsplit.symm

theorem findkind_cut (hle : v.length ≤ (findkind (u ++ v)).2.length) :
    findkind (u ++ v) = ((findkind u).1, (findkind u).2 ++ v) := by
  rw [findkind_eq] at hle
  obtain ⟨hdrop, htake⟩ := takeWhile_cut hle
  rw [findkind_eq, findkind_eq, hdrop, htake]

theorem findstrconst_length (h : findstrconst str = .ok (t, rest)) :
    str.length + 1 = t.width + rest.length := by
  rw [findstrconst] at h
  cases hquoted : findquoted '"' str with
  | error e =>
    rw [hquoted] at h
    cases h
  | ok r =>
    rw [hquoted] at h
    cases h
    exact findquoted_length hquoted

theorem findstrconst_pos (h : findstrconst str = .ok (t, rest)) : 0 < t.width := by
  rw [findstrconst] at h
  cases hquoted : findquoted '"' str with
  | error e =>
    rw [hquoted] at h
    cases h
  | ok r =>
    rw [hquoted] at h
    cases h
    exact findquoted_pos hquoted

theorem findstrconst_cut (h : findstrconst (u ++ v) = .ok (t, rest))
    (hle : v.length ≤ rest.length) : ∃ r, rest = r ++ v ∧ findstrconst u = .ok (t, r) := by
  rw [findstrconst] at h
  cases hquoted : findquoted '"' (u ++ v) with
  | error e =>
    rw [hquoted] at h
    cases h
  | ok r =>
    rw [hquoted] at h
    cases h
    obtain ⟨r', hr', hu⟩ := findquoted_cut hquoted hle
    rw [findstrconst, hu]
    exact ⟨r', hr', rfl⟩

theorem findchrconst_length (h : findchrconst str = .ok (t, rest)) :
    str.length + 1 = t.width + rest.length := by
  rw [findchrconst] at h
  cases hquoted : findquoted '\'' str with
  | error e =>
    rw [hquoted] at h
    cases h
  | ok r =>
    rw [hquoted] at h
    dsimp only at h
    split at h
    · cases h
    · cases h
      exact findquoted_length hquoted

theorem findchrconst_pos (h : findchrconst str = .ok (t, rest)) : 0 < t.width := by
  rw [findchrconst] at h
  cases hquoted : findquoted '\'' str with
  | error e =>
    rw [hquoted] at h
    cases h
  | ok r =>
    rw [hquoted] at h
    dsimp only at h
    split at h
    · cases h
    · cases h
      exact findquoted_pos hquoted

theorem findchrconst_cut (h : findchrconst (u ++ v) = .ok (t, rest))
    (hle : v.length ≤ rest.length) : ∃ r, rest = r ++ v ∧ findchrconst u = .ok (t, r) := by
  rw [findchrconst] at h
  cases hquoted : findquoted '\'' (u ++ v) with
  | error e =>
    rw [hquoted] at h
    cases h
  | ok r =>
    rw [hquoted] at h
    dsimp only at h
    split at h
    · cases h
    · next hsize =>
      cases h
      obtain ⟨r', hr', hu⟩ := findquoted_cut hquoted hle
      rw [findchrconst, hu]
      dsimp only
      rw [if_neg hsize]
      exact ⟨r', hr', rfl⟩

theorem readToken_length (h : readToken str = .ok (t, rest)) :
    str.length = t.width + rest.length := by
  cases str with
  | nil => cases h
  | cons c str =>
    rw [readToken] at h
    cases hpunctuation : punctuation c with
    | some kind =>
      rw [hpunctuation] at h
      cases h
      exact Nat.add_comm _ _
    | none =>
      rw [hpunctuation] at h
      dsimp only at h
      split_ifs at h
      · exact findstrconst_length h
      · exact findchrconst_length h
      · have hconst := findconst_length c str
        rw [Except.ok.inj h] at hconst
        exact hconst
      · have hkind := findkind_length (c :: str)
        rw [Except.ok.inj h] at hkind
        exact hkind

theorem readToken_pos (h : readToken str = .ok (t, rest)) : 0 < t.width := by
  cases str with
  | nil => cases h
  | cons c str =>
    rw [readToken] at h
    cases hpunctuation : punctuation c with
    | some kind =>
      rw [hpunctuation] at h
      cases h
      exact Nat.one_pos
    | none =>
      rw [hpunctuation] at h
      dsimp only at h
      split_ifs at h with _ _ _ hword
      · exact findstrconst_pos h
      · exact findchrconst_pos h
      · have hconst := findconst_pos c str
        rw [Except.ok.inj h] at hconst
        exact hconst
      · have hc : isword c = true := by
          rw [isword, isalnum, Bool.or_eq_true, Bool.or_eq_true, beq_iff_eq]
          exact hword.imp_left Or.inl
        have hkind := congrArg (fun r : Token × Text => r.1.width) (Except.ok.inj h)
        rw [findkind_eq, List.takeWhile_cons_of_pos hc] at hkind
        exact Nat.lt_of_lt_of_eq (Nat.succ_pos _) hkind

/-- A token that ends in the buffer `c :: u` is read from the buffer alone. -/
theorem readToken_cut (h : readToken (c :: u ++ v) = .ok (t, rest))
    (hle : v.length ≤ rest.length) :
    ∃ r, rest = r ++ v ∧ readToken (c :: u) = .ok (t, r) := by
  rw [List.cons_append, readToken] at h
  rw [readToken]
  cases hpunctuation : punctuation c with
  | some kind =>
    rw [hpunctuation] at h
    cases h
    exact ⟨u, rfl, rfl⟩
  | none =>
    rw [hpunctuation] at h
    dsimp only at h ⊢
    split_ifs at h ⊢
    · exact findstrconst_cut h hle
    · exact findchrconst_cut h hle
    · have hrest : (findconst c (u ++ v)).2 = rest := congrArg Prod.snd (Except.ok.inj h)
      rw [← hrest] at hle
      obtain ⟨r, hconst, hr⟩ := findconst_cut hle
      rw [hconst] at h
      cases h
      exact ⟨r, rfl, congrArg Except.ok (Prod.ext rfl hr)⟩
    · have hrest : (findkind (c :: (u ++ v))).2 = rest := congrArg Prod.snd (Except.ok.inj h)
      rw [← hrest, ← List.cons_append] at hle
      rw [← List.cons_append, findkind_cut hle] at h
      cases h
      exact ⟨_, rfl, rfl⟩

/-! ## Preprocessor lines -/

/-- The number at `str`. -/
def atoi (str : Text) : ℕ := (str.takeWhile isdigit).foldl (fun n c => 10 * n + (c.toNat - 48)) 0

/-- `docppline`: the number of the line, and the name of the file. -/
def docppline (line : Text) : Except Text (ℕ × Option Text) :=
  let number := line.tail.dropWhile isspace
  match (number.dropWhile isdigit).dropWhile isspace with
  | [] => .error "preprocessor error".toList
  | c :: file =>
    if c ≠ '"' then .error "preprocessor error".toList
    else if file.dropWhile (fun c => c != '"') = [] then .error "preprocessor error".toList
    else
      let name := file.takeWhile (fun c => c != '"')
      .ok (atoi number, if name = [] then none else some name)

theorem isspace_not_isdigit (h : isspace c = true) : isdigit c = false := by
  simp only [isspace, Bool.or_eq_true, beq_iff_eq] at h
  rcases h with ((((rfl | rfl) | rfl) | rfl) | rfl) | rfl <;> decide

theorem docppline_cut {w : Text} {r : ℕ × Option Text} (h : docppline (u ++ w) = .ok r)
    (hu : u ≠ []) (hw : ∀ c ∈ w, isspace c = true) : docppline u = .ok r := by
  have hdigits : w.dropWhile isdigit = w := by
    cases w with
    | nil => rfl
    | cons c w => rw [List.dropWhile_cons, isspace_not_isdigit (hw c List.mem_cons_self)]; rfl
  have hblank : w.dropWhile isspace = [] := List.dropWhile_eq_nil_iff.mpr hw
  unfold docppline at h ⊢
  rw [List.tail_append_of_ne_nil hu] at h
  dsimp only at h ⊢
  have hnumber : u.tail.dropWhile isspace ≠ [] := by
    intro hnil
    rw [List.dropWhile_append_of_pos (List.dropWhile_eq_nil_iff.mp hnil), hblank] at h
    cases h
  rw [(dropWhile_append_of_ne_nil hnumber).1] at h
  generalize u.tail.dropWhile isspace = number at h ⊢
  have hbehind : number.dropWhile isdigit ≠ [] := by
    intro hnil
    rw [List.dropWhile_append_of_pos (List.dropWhile_eq_nil_iff.mp hnil), hdigits, hblank] at h
    cases h
  rw [atoi, (dropWhile_append_of_ne_nil hbehind).1, (dropWhile_append_of_ne_nil hbehind).2] at h
  rw [atoi]
  have hquote : (number.dropWhile isdigit).dropWhile isspace ≠ [] := by
    intro hnil
    rw [List.dropWhile_append_of_pos (List.dropWhile_eq_nil_iff.mp hnil), hblank] at h
    cases h
  rw [(dropWhile_append_of_ne_nil hquote).1] at h
  cases hfile : (number.dropWhile isdigit).dropWhile isspace with
  | nil => exact absurd hfile hquote
  | cons c file =>
    rw [hfile] at h
    dsimp only [List.cons_append] at h ⊢
    split at h
    · cases h
    · next hc =>
      rw [if_neg hc]
      have hclosed : file.dropWhile (fun c => c != '"') ≠ [] := by
        intro hnil
        have hnone : w.dropWhile (fun c => c != '"') = [] := by
          refine List.dropWhile_eq_nil_iff.mpr fun c hc => ?_
          have hspace := hw c hc
          rw [bne_iff_ne]
          rintro rfl
          exact absurd hspace (by decide)
        rw [List.dropWhile_append_of_pos (List.dropWhile_eq_nil_iff.mp hnil), hnone] at h
        cases h
      rw [(dropWhile_append_of_ne_nil hclosed).1, (dropWhile_append_of_ne_nil hclosed).2] at h
      rw [if_neg hclosed]
      have happend : file.dropWhile (fun c => c != '"') ++ w ≠ [] :=
        List.append_ne_nil_of_left_ne_nil hclosed w
      rw [if_neg happend] at h
      exact h

end Netkit.Rpcgen

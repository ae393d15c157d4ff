import Netkit.Ftp.Ruserpass

/-!
# Entries of .netrc

A file as its author means it: entries for machines and a default one, with their logins,
passwords, accounts and macros.

* `xruserpass_careful`: it does.
-/

namespace Netkit.Ftp.Ruserpass

open Netkit.Foundations

/-! ## Files -/

/-- A character of a word, as it is or behind a backslash. -/
structure Letter where
  escaped : Bool
  byte : UInt8
deriving DecidableEq

def Letter.text (l : Letter) : Bytes := if l.escaped then [92, l.byte] else [l.byte]

inductive Word where
  | bare (first : UInt8) (letters : List Letter)
  | quoted (letters : List Letter)
deriving DecidableEq

def Word.text : Word → Bytes
  | .bare first letters => first :: letters.flatMap Letter.text
  | .quoted letters => 34 :: (letters.flatMap Letter.text ++ [34])

def Word.value : Word → Bytes
  | .bare first letters => first :: letters.map Letter.byte
  | .quoted letters => letters.map Letter.byte

def Clear (s : Bytes) : Prop := ∀ c ∈ s.head?, isSep c = true

/-- The word is written so that it ends in front of `tail`. -/
def Word.Written (w : Word) (tail : Bytes) : Prop :=
  0 ∉ w.value ∧
    match w with
    | .bare first letters => isSep first = false ∧ first ≠ 34 ∧
      (∀ l ∈ letters, l.escaped = false → isSep l.byte = false ∧ l.byte ≠ 92) ∧ Clear tail
    | .quoted letters => ∀ l ∈ letters, l.escaped = false → l.byte ≠ 34 ∧ l.byte ≠ 92

inductive Field where
  | login
  | password
  | passwd
  | account
deriving DecidableEq

def Field.keyword : Field → Bytes
  | .login => ascii "login"
  | .password => ascii "password"
  | .passwd => ascii "passwd"
  | .account => ascii "account"

/-- A macro behind its keyword: the separator, more blanks, the line with the name, and the lines
of the macro. -/
structure Macro where
  separator : UInt8
  blanks : Bytes
  first : UInt8
  name : Bytes
  lines : List Bytes
deriving DecidableEq

def Macro.body (m : Macro) : Bytes := m.lines.flatMap (fun line => line ++ [10]) ++ [10]

def Macro.text (m : Macro) : Bytes :=
  m.separator :: (m.blanks ++ m.first :: (m.name ++ 10 :: m.body))

structure Macro.Written (m : Macro) : Prop where
  separator : isSep m.separator = true
  blanks : ∀ c ∈ m.blanks, c = 32 ∨ c = 9
  first : m.first ≠ 32 ∧ m.first ≠ 9 ∧ m.first ≠ 10
  name : 10 ∉ m.name
  lines : m.lines ≠ []
  line : ∀ line ∈ m.lines, line ≠ [] ∧ 10 ∉ line ∧ 0 ∉ line

/-- An item with the separators in front of its words. -/
inductive Item where
  | field (f : Field) (g h : Bytes) (w : Word)
  | macdef (g : Bytes) (m : Macro)
deriving DecidableEq

def Item.text : Item → Bytes
  | .field f g h w => g ++ (f.keyword ++ (h ++ w.text))
  | .macdef g m => g ++ (ascii "macdef" ++ m.text)

def AllSep (g : Bytes) : Prop := ∀ c ∈ g, isSep c = true

def Item.Written (i : Item) (tail : Bytes) : Prop :=
  match i with
  | .field _ g h w => AllSep g ∧ AllSep h ∧ h ≠ [] ∧ w.Written tail
  | .macdef g m => AllSep g ∧ m.Written

def itemsText (items : List Item) : Bytes := items.flatMap Item.text

def ItemsWritten (tail : Bytes) : List Item → Prop
  | [] => True
  | i :: items => i.Written (itemsText items ++ tail) ∧ ItemsWritten tail items

/-- An entry with the separators in front of it; `name` is missing for the default one. -/
structure Entry where
  gap : Bytes
  name : Option (Bytes × Word)
  items : List Item
deriving DecidableEq

def headText : Option (Bytes × Word) → Bytes
  | none => ascii "default"
  | some (h, w) => ascii "machine" ++ (h ++ w.text)

def Entry.text (e : Entry) : Bytes := e.gap ++ (headText e.name ++ itemsText e.items)

def HeadWritten (tail : Bytes) : Option (Bytes × Word) → Prop
  | none => Clear tail
  | some (h, w) => AllSep h ∧ h ≠ [] ∧ w.Written tail

def Item.value (p : Field → Bool) : Item → Option Bytes
  | .field f _ _ w => if p f then some w.value else none
  | .macdef _ _ => none

def isLogin (f : Field) : Bool := f = .login

def isPassword (f : Field) : Bool := f = .password || f = .passwd

def isAccount (f : Field) : Bool := f = .account

/-- An entry names no more than one login. -/
structure Entry.Written (e : Entry) (tail : Bytes) : Prop where
  gap : AllSep e.gap
  head : HeadWritten (itemsText e.items ++ tail) e.name
  items : ItemsWritten tail e.items
  login : (e.items.filterMap (Item.value isLogin)).length ≤ 1

def fileText (es : List Entry) (tail : Bytes) : Bytes := es.flatMap Entry.text ++ tail

/-- A well-formed file; `tail` is what is behind the last word. -/
def FileWritten (tail : Bytes) : List Entry → Prop
  | [] => AllSep tail
  | e :: es => e.Written (fileText es tail) ∧ FileWritten tail es

instance (s : Bytes) : Decidable (Clear s) := inferInstanceAs (Decidable (∀ c ∈ s.head?, _))

instance (g : Bytes) : Decidable (AllSep g) := inferInstanceAs (Decidable (∀ c ∈ g, _))

instance (w : Word) (tail : Bytes) : Decidable (w.Written tail) :=
  match w with
  | .bare first letters => inferInstanceAs (Decidable (_ ∧ isSep first = false ∧ first ≠ 34 ∧
    (∀ l ∈ letters, l.escaped = false → isSep l.byte = false ∧ l.byte ≠ 92) ∧ Clear tail))
  | .quoted letters => inferInstanceAs (Decidable (_ ∧
    ∀ l ∈ letters, l.escaped = false → l.byte ≠ 34 ∧ l.byte ≠ 92))

instance (m : Macro) : Decidable m.Written :=
  decidable_of_iff (isSep m.separator = true ∧ m.blanks.all (fun c => c = 32 ∨ c = 9) = true ∧
      (m.first ≠ 32 ∧ m.first ≠ 9 ∧ m.first ≠ 10) ∧ 10 ∉ m.name ∧ m.lines ≠ [] ∧
      ∀ line ∈ m.lines, line ≠ [] ∧ 10 ∉ line ∧ 0 ∉ line)
    ⟨fun ⟨h1, h2, h3, h4, h5, h6⟩ =>
        ⟨h1, fun c hc => of_decide_eq_true (List.all_eq_true.mp h2 c hc), h3, h4, h5, h6⟩,
      fun h => ⟨h.separator, List.all_eq_true.mpr (fun c hc => decide_eq_true (h.blanks c hc)),
        h.first, h.name, h.lines, h.line⟩⟩

instance (i : Item) (tail : Bytes) : Decidable (i.Written tail) :=
  match i with
  | .field _ g h w =>
    inferInstanceAs (Decidable (AllSep g ∧ AllSep h ∧ h ≠ [] ∧ w.Written tail))
  | .macdef g m => inferInstanceAs (Decidable (AllSep g ∧ m.Written))

instance decidableItems (tail : Bytes) : ∀ items, Decidable (ItemsWritten tail items)
  | [] => isTrue trivial
  | i :: items =>
    have := decidableItems tail items
    inferInstanceAs (Decidable (i.Written (itemsText items ++ tail) ∧ ItemsWritten tail items))

instance (tail : Bytes) : ∀ name, Decidable (HeadWritten tail name)
  | none => inferInstanceAs (Decidable (Clear tail))
  | some (h, w) => inferInstanceAs (Decidable (AllSep h ∧ h ≠ [] ∧ w.Written tail))

instance (e : Entry) (tail : Bytes) : Decidable (e.Written tail) :=
  decidable_of_iff (AllSep e.gap ∧ HeadWritten (itemsText e.items ++ tail) e.name ∧
      ItemsWritten tail e.items ∧ (e.items.filterMap (Item.value isLogin)).length ≤ 1)
    ⟨fun ⟨h1, h2, h3, h4⟩ => ⟨h1, h2, h3, h4⟩, fun h => ⟨h.gap, h.head, h.items, h.login⟩⟩

instance decidableFile (tail : Bytes) : ∀ es, Decidable (FileWritten tail es)
  | [] => inferInstanceAs (Decidable (AllSep tail))
  | e :: es =>
    have := decidableFile tail es
    inferInstanceAs (Decidable (e.Written (fileText es tail) ∧ FileWritten tail es))

/-! ## What a file says -/

def Entry.isMatch (env : NetrcEnv) (e : Entry) : Bool := e.name.all (fun p => env.isMatch p.2.value)

def Entry.isWanted (given : Creds) (e : Entry) : Bool :=
  given.aname.all (fun a => (e.items.filterMap (Item.value isLogin)).all (fun l => l = a))

def Creds.merge (c : Creds) (items : List Item) : Creds where
  aname := c.aname <|> items.findSome? (Item.value isLogin)
  apass := c.apass <|> items.findSome? (Item.value isPassword)
  aacct := c.aacct <|> items.findSome? (Item.value isAccount)

def expected (env : NetrcEnv) (given : Creds) (es : List Entry) : Creds :=
  match es.find? (fun e => e.isMatch env && e.isWanted given) with
  | none => given
  | some e => given.merge e.items

/-! ## The condition -/

/-- The word is not empty and fits into `tokval`. -/
def Word.Fits (w : Word) : Prop := w.value ≠ [] ∧ w.value.length < 100

/-- Two texts that are the same for `token`. -/
def Same (s t : Bytes) : Prop := s.dropWhile isSep = t.dropWhile isSep

/-- The words up to `tail`, as `token` finds them, come to its beginning, and none is empty or
`machine` or `default`. -/
inductive Passes (tail : Bytes) : Bytes → Prop where
  | done {s : Bytes} (h : Same s tail) : Passes tail s
  | word {s rest v : Bytes} {k : Kind} (htoken : token s = some (k, v, rest))
      (hk : k ≠ .eof ∧ k ≠ .mach ∧ k ≠ .default) (h : Passes tail rest) : Passes tail s

/-- An item that may be read word by word: no value and no word of a macro is taken for the
beginning of an entry. -/
def Item.Idle : Item → Prop
  | .field _ _ _ w => w.Fits ∧ kindOf w.value ≠ .mach ∧ kindOf w.value ≠ .default
  | .macdef _ m => ∀ tail, Passes tail (m.text ++ tail)

def Item.isField : Item → Bool
  | .field _ _ _ _ => true
  | .macdef _ _ => false

def Item.Fits : Item → Prop
  | .field _ _ _ w => w.Fits
  | .macdef _ _ => True

/-- The items of an entry for another login: it comes before the other fields, and what is behind
it may be read word by word. -/
def Leaves (env : NetrcEnv) : List Item → Prop
  | [] => True
  | .field f _ _ w :: items => f = .login ∧ w.Fits ∧ ∀ i ∈ items, i.Idle
  | .macdef _ _ :: items => env.proxy = false ∧ Leaves env items

/-- With a proxy connection, `macdef` ends the reading. -/
def MacrosLast (env : NetrcEnv) (items : List Item) : Prop :=
  env.proxy = true → ∀ i ∈ items.dropWhile Item.isField, i.isField = false

def NameFits (env : NetrcEnv) (name : Option (Bytes × Word)) : Prop :=
  ∀ p ∈ name, p.2.Fits ∧ (env.isMatch p.2.value = true → kindOf p.2.value = .id)

/-- The reader takes nothing in front of the entry that is wanted for the beginning of an entry,
and the entry itself is such as it reads it. -/
def Careful (env : NetrcEnv) (given : Creds) : List Entry → Prop
  | [] => True
  | e :: es => NameFits env e.name ∧
    if e.isMatch env then
      if e.isWanted given then (∀ i ∈ e.items, i.Fits) ∧ MacrosLast env e.items
      else Leaves env e.items ∧ (e.name = none → es = []) ∧ Careful env given es
    else (∀ i ∈ e.items, i.Idle) ∧ Careful env given es

def LoginFirst (items : List Item) : Prop :=
  ∀ i ∈ items.takeWhile (fun i => i.value isLogin = none), i.value isPassword = none

/-- What the reader refuses: others may read the file, a macro cannot be defined, or a password
comes without a login. -/
def Refuses (env : NetrcEnv) (given : Creds) (es : List Entry) : Prop :=
  env.exposed = true ∨ ∃ e ∈ es, e.isMatch env = true ∧
    ((∃ i ∈ e.items, i.isField = false) ∨ given.aname = none ∧ ¬ LoginFirst e.items)

/-! ## Words are read as they are written -/

theorem Same.refl (s : Bytes) : Same s s := rfl

theorem same_append {g : Bytes} (hg : AllSep g) (s : Bytes) : Same (g ++ s) s := by
  induction g with
  | nil => exact Same.refl s
  | cons c g ih =>
    have hc := hg c List.mem_cons_self
    have hrest := ih (fun d hd => hg d (List.mem_cons_of_mem c hd))
    rw [Same, List.cons_append, List.dropWhile_cons, if_pos hc]
    exact hrest

theorem same_drop {s : Bytes} (hs : Clear s) : Same (s.drop 1) s := by
  cases s with
  | nil => exact Same.refl _
  | cons c s =>
    rw [Same, List.dropWhile_cons, if_pos (hs c rfl)]
    rfl

theorem token_same {s t : Bytes} (h : Same s t) : token s = token t := by
  unfold token
  rw [h]

theorem quotedWord_quote (s : Bytes) : quotedWord (34 :: s) = ([], s) := by
  cases s with
  | nil => rfl
  | cons d s => rw [quotedWord, if_pos rfl]

theorem quotedWord_cons {c : UInt8} (hc : c ≠ 34) (hc' : c ≠ 92) (s : Bytes) :
    quotedWord (c :: s) = (c :: (quotedWord s).1, (quotedWord s).2) := by
  cases s with
  | nil =>
    change (if c = 34 then ([], []) else if c = 92 then ([255], []) else ([c], [])) = _
    rw [if_neg hc, if_neg hc']
    rfl
  | cons d s => rw [quotedWord, if_neg hc, if_neg hc']

theorem bareWord_sep {c : UInt8} (hc : isSep c = true) (s : Bytes) :
    bareWord (c :: s) = ([], s) := by
  cases s with
  | nil => rw [bareWord, if_pos hc]
  | cons d s => rw [bareWord, if_pos hc]

theorem bareWord_cons {c : UInt8} (hc : isSep c = false) (hc' : c ≠ 92) (s : Bytes) :
    bareWord (c :: s) = (c :: (bareWord s).1, (bareWord s).2) := by
  have hsep : ¬ isSep c = true := Bool.eq_false_iff.mp hc
  cases s with
  | nil =>
    change (if isSep c = true then ([], []) else if c = 92 then ([255], []) else ([c], [])) = _
    rw [if_neg hsep, if_neg hc']
    rfl
  | cons d s => rw [bareWord, if_neg hsep, if_neg hc']

theorem quotedWord_letters {letters : List Letter}
    (h : ∀ l ∈ letters, l.escaped = false → l.byte ≠ 34 ∧ l.byte ≠ 92) (tail : Bytes) :
    quotedWord (letters.flatMap Letter.text ++ 34 :: tail) = (letters.map Letter.byte, tail) := by
  induction letters with
  | nil => exact quotedWord_quote tail
  | cons l letters ih =>
    have hrest := ih (fun l hl => h l (List.mem_cons_of_mem _ hl))
    obtain ⟨escaped, c⟩ := l
    rw [List.flatMap_cons, List.append_assoc, Letter.text]
    cases escaped with
    | true =>
      rw [if_pos rfl]
      change quotedWord (92 :: c :: (letters.flatMap Letter.text ++ 34 :: tail)) = _
      rw [quotedWord, if_neg (by decide), if_pos rfl, hrest]
      rfl
    | false =>
      obtain ⟨hc, hc'⟩ := h ⟨false, c⟩ List.mem_cons_self rfl
      rw [if_neg Bool.false_ne_true]
      change quotedWord (c :: (letters.flatMap Letter.text ++ 34 :: tail)) = _
      rw [quotedWord_cons hc hc', hrest]
      rfl

theorem bareWord_letters {letters : List Letter}
    (h : ∀ l ∈ letters, l.escaped = false → isSep l.byte = false ∧ l.byte ≠ 92) {tail : Bytes}
    (htail : Clear tail) :
    bareWord (letters.flatMap Letter.text ++ tail) = (letters.map Letter.byte, tail.drop 1) := by
  induction letters with
  | nil =>
    cases tail with
    | nil => rfl
    | cons c tail => exact bareWord_sep (htail c rfl) tail
  | cons l letters ih =>
    have hrest := ih (fun l hl => h l (List.mem_cons_of_mem _ hl))
    obtain ⟨escaped, c⟩ := l
    rw [List.flatMap_cons, List.append_assoc, Letter.text]
    cases escaped with
    | true =>
      have hsep : ¬ isSep 92 = true := by decide
      rw [if_pos rfl]
      change bareWord (92 :: c :: (letters.flatMap Letter.text ++ tail)) = _
      rw [bareWord, if_neg hsep, if_pos rfl, hrest]
      rfl
    | false =>
      obtain ⟨hc, hc'⟩ := h ⟨false, c⟩ List.mem_cons_self rfl
      rw [if_neg Bool.false_ne_true]
      change bareWord (c :: (letters.flatMap Letter.text ++ tail)) = _
      rw [bareWord_cons hc hc', hrest]
      rfl

def Word.behind (w : Word) (tail : Bytes) : Bytes :=
  match w with
  | .bare _ _ => tail.drop 1
  | .quoted _ => tail

theorem Word.behind_same {w : Word} {tail : Bytes} (hw : w.Written tail) :
    Same (w.behind tail) tail := by
  cases w with
  | bare first letters => exact same_drop hw.2.2.2.2
  | quoted letters => exact Same.refl tail

theorem token_word {g tail : Bytes} {w : Word} (hg : AllSep g) (hw : w.Written tail)
    (hlength : w.value.length < 100) :
    token (g ++ (w.text ++ tail)) = some (kindOf w.value, w.value, w.behind tail) := by
  have hnul : cstring w.value = w.value := cstring_eq_self hw.1
  rw [token_same (same_append hg _)]
  cases w with
  | bare first letters =>
    obtain ⟨-, hsep, hquote, hletters, hclear⟩ := hw
    have hdrop : (first :: (letters.flatMap Letter.text ++ tail)).dropWhile isSep =
        first :: (letters.flatMap Letter.text ++ tail) :=
      List.dropWhile_cons_of_neg (Bool.eq_false_iff.mp hsep)
    have hread : readWord first (letters.flatMap Letter.text ++ tail) =
        ((Word.bare first letters).value, tail.drop 1) := by
      rw [readWord, if_neg hquote, bareWord_letters hletters hclear]
      rfl
    change token (first :: (letters.flatMap Letter.text ++ tail)) = _
    unfold token
    rw [hdrop]
    dsimp only
    rw [hread]
    dsimp only
    rw [if_pos hlength, hnul]
    rfl
  | quoted letters =>
    have hdrop : (34 :: (letters.flatMap Letter.text ++ 34 :: tail)).dropWhile isSep =
        34 :: (letters.flatMap Letter.text ++ 34 :: tail) :=
      List.dropWhile_cons_of_neg (by decide)
    have hread : readWord 34 (letters.flatMap Letter.text ++ 34 :: tail) =
        ((Word.quoted letters).value, tail) := by
      rw [readWord, if_pos rfl, quotedWord_letters hw.2]
      rfl
    have htext : (Word.quoted letters).text ++ tail =
        34 :: (letters.flatMap Letter.text ++ 34 :: tail) := by
      rw [Word.text, List.cons_append, List.append_assoc]
      rfl
    rw [htext]
    unfold token
    rw [hdrop]
    dsimp only
    rw [hread]
    dsimp only
    rw [if_pos hlength, hnul]
    rfl

def keyword (c : UInt8) (s : Bytes) : Word := .bare c (s.map (fun d => ⟨false, d⟩))

theorem keyword_text (c : UInt8) (s : Bytes) : (keyword c s).text = c :: s := by
  have hflat : (s.map (fun d => (⟨false, d⟩ : Letter))).flatMap Letter.text = s := by
    induction s with
    | nil => rfl
    | cons d s ih =>
      rw [List.map_cons, List.flatMap_cons, ih]
      rfl
  exact congrArg (List.cons c) hflat

theorem keyword_value (c : UInt8) (s : Bytes) : (keyword c s).value = c :: s := by
  rw [keyword, Word.value, List.map_map]
  exact congrArg (List.cons c) (List.map_id s)

theorem token_keyword {g tail : Bytes} {c : UInt8} {s : Bytes} (hg : AllSep g)
    (hs : (c :: s).all (fun d => d ≠ 0 && !isSep d && d ≠ 34 && d ≠ 92) = true)
    (hlength : (c :: s).length < 100) (htail : Clear tail) :
    token (g ++ (c :: s ++ tail)) = some (kindOf (c :: s), c :: s, tail.drop 1) := by
  have hchar (d : UInt8) (hd : d ∈ c :: s) : d ≠ 0 ∧ isSep d = false ∧ d ≠ 34 ∧ d ≠ 92 := by
    have h := List.all_eq_true.mp hs d hd
    simp only [Bool.and_eq_true, decide_eq_true_eq, Bool.not_eq_true'] at h
    exact ⟨h.1.1.1, h.1.1.2, h.1.2, h.2⟩
  have hwritten : (keyword c s).Written tail := by
    refine ⟨?_, (hchar c List.mem_cons_self).2.1, (hchar c List.mem_cons_self).2.2.1, ?_, htail⟩
    · rw [keyword_value]
      exact fun h => (hchar 0 h).1 rfl
    · intro l hl _
      obtain ⟨d, hd, rfl⟩ := List.mem_map.mp hl
      have h := hchar d (List.mem_cons_of_mem c hd)
      exact ⟨h.2.1, h.2.2.2⟩
  have h := token_word hg hwritten (by rwa [keyword_value])
  rwa [keyword_text, keyword_value] at h

/-! ## The loops on such a file -/

section Loops

variable {env : NetrcEnv} {s t : Scan} {tail : Bytes}

def out (env : NetrcEnv) (s : Scan) : Verdict :=
  outcome (step env) (fun s => s.input.length) .bad s

theorem out_ok (h : step env s = .ok t) : out env s = out env t := outcome_ok (step_shorter env) h

theorem out_error {v : Verdict} (h : step env s = .error v) : out env s = v := outcome_error h

theorem out_congr (h : step env s = step env t) : out env s = out env t := by
  cases ht : step env t with
  | ok u => rw [out_ok ht, out_ok (h.trans ht)]
  | error v => rw [out_error ht, out_error (h.trans ht)]

def Scan.at (s : Scan) (input : Bytes) : Scan := { s with input }

theorem takeLogin_at (s : Scan) (a v i : Bytes) :
    (takeLogin (s.at a) v).at i = (takeLogin s v).at i := by
  unfold takeLogin Scan.at
  dsimp only
  cases s.creds.aname <;> rfl

theorem step_matching (hmatch : s.isMatch = true) (a : Bytes) :
    step env (s.at a) = nextItem env (s.at a) := if_pos hmatch

theorem nextItem_token (a : Bytes) :
    nextItem env (s.at a) = ((token a).map (fun p => handleItem env (s.at a) p.2.2 p.1)).getD
      (.error .overflow) := by
  unfold nextItem
  rw [show (s.at a).input = a from rfl]
  cases token a <;> rfl

theorem step_same {a b : Bytes} (h : Same a b) : step env (s.at a) = step env (s.at b) := by
  have htoken := token_same h
  have hwith {f : Scan → Bytes → Scan} {rest : Bytes}
      (hf : ∀ v i, (f (s.at a) v).at i = (f (s.at b) v).at i) :
      withValue (s.at a) rest (f (s.at a)) = withValue (s.at b) rest (f (s.at b)) := by
    unfold withValue
    split
    · rfl
    · rfl
    case h_3 => exact congrArg Except.ok (hf _ _)
  have hlogin (v i : Bytes) : (takeLogin (s.at a) v).at i = (takeLogin (s.at b) v).at i := by
    rw [takeLogin_at, takeLogin_at]
  by_cases hmatch : s.isMatch = true
  · rw [step_matching hmatch, step_matching hmatch, nextItem_token, nextItem_token, htoken]
    cases token b with
    | none => rfl
    | some p =>
      obtain ⟨k, v, rest⟩ := p
      change handleItem env (s.at a) rest k = handleItem env (s.at b) rest k
      cases k with
      | login => exact hwith hlogin
      | passwd =>
        unfold handleItem
        dsimp only
        rw [hwith (f := takePasswd) (fun _ _ => rfl)]
        rfl
      | account =>
        unfold handleItem
        dsimp only
        rw [hwith (f := takeAccount) (fun _ _ => rfl)]
      | _ => rfl
  · have hentry (i : Bytes) : step env (s.at i) = nextEntry env (s.at i) := if_neg hmatch
    rw [hentry, hentry]
    unfold nextEntry Scan.at
    dsimp only
    rw [htoken]

theorem out_same {a b : Bytes} (h : Same a b) : out env (s.at a) = out env (s.at b) :=
  out_congr (step_same h)

theorem out_token {k : Kind} {v a rest : Bytes} (hmatch : s.isMatch = false)
    (htoken : token a = some (k, v, rest)) (hk : k ≠ .eof ∧ k ≠ .mach ∧ k ≠ .default) :
    out env (s.at a) = out env (s.at rest) := by
  refine out_ok ?_
  unfold step nextEntry Scan.at
  dsimp only
  rw [hmatch, if_neg Bool.false_ne_true, htoken]
  obtain ⟨h1, h2, h3⟩ := hk
  cases k with
  | eof => exact absurd rfl h1
  | mach => exact absurd rfl h2
  | default => exact absurd rfl h3
  | _ => rfl

theorem out_passes {a : Bytes} (hmatch : s.isMatch = false) (h : Passes tail a) :
    out env (s.at a) = out env (s.at tail) := by
  induction h with
  | done h => exact out_same h
  | word htoken hk h ih => rw [out_token hmatch htoken hk, ih]

def Field.kind : Field → Kind
  | .login => .login
  | .password => .passwd
  | .passwd => .passwd
  | .account => .account

theorem token_field (f : Field) {g : Bytes} (hg : AllSep g) (h : Clear tail) :
    token (g ++ (f.keyword ++ tail)) = some (f.kind, f.keyword, tail.drop 1) := by
  cases f with
  | login => exact token_keyword hg (by decide) (by decide) h
  | password => exact token_keyword hg (by decide) (by decide) h
  | passwd => exact token_keyword hg (by decide) (by decide) h
  | account => exact token_keyword hg (by decide) (by decide) h

theorem token_macdef {g : Bytes} (hg : AllSep g) (h : Clear tail) :
    token (g ++ (ascii "macdef" ++ tail)) = some (.macdef, ascii "macdef", tail.drop 1) :=
  token_keyword hg (by decide) (by decide) h

theorem macro_clear {m : Macro} (hm : m.Written) (t : Bytes) : Clear (m.text ++ t) := by
  intro c hc
  obtain rfl := Option.some.inj hc
  exact hm.separator

theorem itemsText_cons (i : Item) (items : List Item) (t : Bytes) :
    itemsText (i :: items) ++ t = i.text ++ (itemsText items ++ t) := by
  rw [itemsText, List.flatMap_cons, List.append_assoc]
  rfl

theorem kindOf_ne_eof {v : Bytes} (hv : v ≠ []) : kindOf v ≠ .eof := by
  rw [kindOf, if_neg hv]
  cases h : toktab.lookup v with
  | none => exact fun h => nomatch h
  | some k =>
    obtain ⟨l, r, hsplit, -⟩ := List.lookup_eq_some_iff.mp h
    have hall : toktab.all (fun p => p.2 ≠ .eof) = true := by decide
    have hmem : (v, k) ∈ toktab := hsplit ▸ List.mem_append_right _ List.mem_cons_self
    exact of_decide_eq_true (List.all_eq_true.mp hall _ hmem)

theorem drop_gap {h : Bytes} (hh : AllSep h) (hne : h ≠ []) (t : Bytes) :
    Clear (h ++ t) ∧ ∃ g, AllSep g ∧ (h ++ t).drop 1 = g ++ t := by
  cases h with
  | nil => exact absurd rfl hne
  | cons c h =>
    refine ⟨fun d hd => ?_, h, fun d hd => hh d (List.mem_cons_of_mem c hd), rfl⟩
    obtain rfl := Option.some.inj hd
    exact hh c List.mem_cons_self

theorem withValue_word {w : Word} {g : Bytes} (hg : AllSep g) (hw : w.Written tail)
    (hfits : w.Fits) (f : Bytes → Scan) :
    withValue s (g ++ (w.text ++ tail)) f = .ok ((f w.value).at (w.behind tail)) := by
  have hne := kindOf_ne_eof hfits.1
  rw [withValue, token_word hg hw hfits.2]
  cases hkind : kindOf w.value with
  | eof => exact absurd hkind hne
  | _ => rfl

theorem out_idle {i : Item} (hmatch : s.isMatch = false) (hi : i.Written tail) (hidle : i.Idle) :
    out env (s.at (i.text ++ tail)) = out env (s.at tail) := by
  cases i with
  | field f g h w =>
    obtain ⟨hg, hh, hne, hw⟩ := hi
    obtain ⟨hfits, hmach, hdefault⟩ := hidle
    obtain ⟨hclear, g', hg', hdrop⟩ := drop_gap hh hne (w.text ++ tail)
    have hkeyword := token_field f hg hclear
    have hword := token_word hg' hw hfits.2
    have hkind : f.kind ≠ .eof ∧ f.kind ≠ .mach ∧ f.kind ≠ .default := by
      cases f <;> decide
    rw [hdrop] at hkeyword
    rw [Item.text, List.append_assoc, List.append_assoc, List.append_assoc,
      out_token hmatch hkeyword hkind,
      out_token hmatch hword ⟨kindOf_ne_eof hfits.1, hmach, hdefault⟩]
    exact out_same (Word.behind_same hw)
  | macdef g m =>
    obtain ⟨hg, hm⟩ := hi
    have hclear := macro_clear hm tail
    rw [Item.text, List.append_assoc, List.append_assoc,
      out_token hmatch (token_macdef hg hclear) (by decide), out_same (same_drop hclear)]
    exact out_passes hmatch (hidle tail)

theorem out_items {items : List Item} (hmatch : s.isMatch = false)
    (hitems : ItemsWritten tail items) (hidle : ∀ i ∈ items, i.Idle) :
    out env (s.at (itemsText items ++ tail)) = out env (s.at tail) := by
  induction items with
  | nil => rfl
  | cons i items ih =>
    rw [itemsText_cons, out_idle hmatch hitems.1 (hidle i List.mem_cons_self)]
    exact ih hitems.2 (fun j hj => hidle j (List.mem_cons_of_mem i hj))

/-! ## Macros -/

theorem readBody_line {line rest t : Bytes} (h10 : 10 ∉ line) (h0 : 0 ∉ line)
    (hrest : ∀ space p, readBody space true rest = some p → p.2 = t) {space : Nat} {nul : Bool}
    (hne : line ≠ [] ∨ nul = false) {p : Nat × Bytes}
    (hp : readBody space nul (line ++ 10 :: rest) = some p) : p.2 = t := by
  induction line generalizing space nul p with
  | nil =>
    obtain rfl : nul = false := hne.resolve_left (fun h => h rfl)
    rw [List.nil_append, readBody] at hp
    split at hp
    · cases hp
    · rw [if_pos rfl, if_neg Bool.false_ne_true] at hp
      obtain ⟨q, hq, rfl⟩ := Option.map_eq_some_iff.mp hp
      exact hrest _ q hq
  | cons c line ih =>
    rw [List.mem_cons, not_or] at h10 h0
    rw [List.cons_append, readBody] at hp
    split at hp
    · cases hp
    · rw [if_neg (fun h => h10.1 h.symm), decide_eq_false (fun h => h0.1 h.symm)] at hp
      obtain ⟨q, hq, rfl⟩ := Option.map_eq_some_iff.mp hp
      have hrest := ih h10.2 h0.2 (Or.inr rfl) hq
      exact hrest

theorem readBody_lines {lines : List Bytes}
    (hlines : ∀ line ∈ lines, line ≠ [] ∧ 10 ∉ line ∧ 0 ∉ line) (t : Bytes) {space : Nat}
    {p : Nat × Bytes}
    (hp : readBody space true (lines.flatMap (fun line => line ++ [10]) ++ 10 :: t) = some p) :
    p.2 = t := by
  induction lines generalizing space p with
  | nil =>
    rw [List.flatMap_nil, List.nil_append, readBody] at hp
    split at hp
    · cases hp
    · rw [if_pos rfl, if_pos rfl] at hp
      obtain rfl := Option.some.inj hp
      rfl
  | cons line lines ih =>
    obtain ⟨hne, h10, h0⟩ := hlines line List.mem_cons_self
    rw [List.flatMap_cons, List.append_assoc, List.append_assoc] at hp
    exact readBody_line h10 h0
      (fun space q hq => ih (fun l hl => hlines l (List.mem_cons_of_mem line hl)) hq)
      (Or.inl hne) hp

theorem readMacro_text {m : Macro} (hm : m.Written) {macros : Macros} {t : Bytes}
    {p : Macros × Bytes} (hp : readMacro macros ((m.text ++ t).drop 1) = some p) : p.2 = t := by
  obtain ⟨-, hblanks, hfirst, hname, hne, hlines⟩ := hm
  obtain ⟨line, lines, hcons⟩ := List.exists_cons_of_ne_nil hne
  have htext : (m.text ++ t).drop 1 =
      m.blanks ++ (m.first :: (m.name ++ 10 :: (m.lines.flatMap (fun line => line ++ [10]) ++
        10 :: t))) := by
    simp only [Macro.text, Macro.body, List.cons_append, List.append_assoc, List.drop_one,
      List.tail_cons, List.nil_append]
  have hdrop : (m.blanks ++ (m.first :: (m.name ++ 10 :: (m.lines.flatMap
      (fun line => line ++ [10]) ++ 10 :: t)))).dropWhile (fun c => c = 32 || c = 9) =
      m.first :: (m.name ++ 10 :: (m.lines.flatMap (fun line => line ++ [10]) ++ 10 :: t)) := by
    rw [List.dropWhile_append_of_pos, List.dropWhile_cons_of_neg]
    · rw [Bool.or_eq_true, decide_eq_true_iff, decide_eq_true_iff]
      exact fun h => h.elim hfirst.1 hfirst.2.1
    · intro c hc
      rw [Bool.or_eq_true, decide_eq_true_iff, decide_eq_true_iff]
      exact hblanks c hc
  have hline : (m.name ++ 10 :: (m.lines.flatMap (fun line => line ++ [10]) ++ 10 :: t)).dropWhile
      (fun c => c ≠ 10) = 10 :: (m.lines.flatMap (fun line => line ++ [10]) ++ 10 :: t) := by
    rw [List.dropWhile_append_of_pos, List.dropWhile_cons_of_neg]
    · decide
    · exact fun c hc => decide_eq_true (fun h => hname (h ▸ hc))
  rw [htext] at hp
  unfold readMacro at hp
  rw [hdrop] at hp
  dsimp only at hp
  rw [if_neg hfirst.2.2] at hp
  split at hp
  · exact nomatch hp
  · rw [hline] at hp
    obtain ⟨q, hq, rfl⟩ := Option.map_eq_some_iff.mp hp
    rw [hcons] at hlines hq
    obtain ⟨hline1, h10, h0⟩ := hlines line List.mem_cons_self
    rw [List.flatMap_cons, List.append_assoc, List.append_assoc] at hq
    exact readBody_line h10 h0
      (fun space r hr => readBody_lines (fun l hl => hlines l (List.mem_cons_of_mem line hl)) t hr)
      (Or.inl hline1) hq

/-! ## The entry that is wanted -/

theorem token_item {f : Field} {g h : Bytes} {w : Word}
    (hi : (Item.field f g h w).Written tail) :
    ∃ g', AllSep g' ∧ token ((Item.field f g h w).text ++ tail) =
      some (f.kind, f.keyword, g' ++ (w.text ++ tail)) := by
  obtain ⟨hg, hh, hne, hw⟩ := hi
  obtain ⟨hclear, g', hg', hdrop⟩ := drop_gap hh hne (w.text ++ tail)
  refine ⟨g', hg', ?_⟩
  rw [Item.text, List.append_assoc, List.append_assoc, List.append_assoc,
    token_field f hg hclear, hdrop]

theorem out_value {a g : Bytes} {w : Word} (hg : AllSep g) (hw : w.Written tail) (hfits : w.Fits)
    {F : Scan → Bytes → Scan} (hF : ∀ v i, (F (s.at a) v).at i = (F s v).at i)
    (hstep : step env (s.at a) = withValue (s.at a) (g ++ (w.text ++ tail)) (F (s.at a))) :
    out env (s.at a) = out env ((F s w.value).at tail) := by
  rw [withValue_word hg hw hfits, hF] at hstep
  rw [out_ok hstep]
  exact out_same (Word.behind_same hw)

theorem out_login {g h : Bytes} {w : Word} (hmatch : s.isMatch = true)
    (hi : (Item.field .login g h w).Written tail) (hfits : w.Fits) :
    out env (s.at ((Item.field .login g h w).text ++ tail)) =
      out env ((takeLogin s w.value).at tail) := by
  obtain ⟨g', hg', htoken⟩ := token_item hi
  refine out_value hg' hi.2.2.2 hfits (takeLogin_at s _) ?_
  rw [step_matching hmatch, nextItem_token, htoken]
  rfl

/-- A login is known, and is that of a guest, or nobody else may read the file. -/
def PasswdAllowed (env : NetrcEnv) (c : Creds) : Bool :=
  c.aname.any (fun a => a = ascii "anonymous" || !env.exposed)

theorem out_unless {refused : Prop} [Decidable refused] {a g : Bytes} {w : Word} (hg : AllSep g)
    (hw : w.Written tail) (hfits : w.Fits) {F : Scan → Bytes → Scan}
    (hF : ∀ v i, (F (s.at a) v).at i = (F s v).at i)
    (hstep : step env (s.at a) = if refused then .error .bad
      else withValue (s.at a) (g ++ (w.text ++ tail)) (F (s.at a))) :
    out env (s.at a) = if refused then .bad else out env ((F s w.value).at tail) := by
  split
  case isTrue h =>
    rw [if_pos h] at hstep
    exact out_error hstep
  case isFalse h =>
    rw [if_neg h] at hstep
    exact out_value hg hw hfits hF hstep

theorem out_passwd {f : Field} {g h : Bytes} {w : Word} (hmatch : s.isMatch = true)
    (hf : f.kind = .passwd) (hi : (Item.field f g h w).Written tail) (hfits : w.Fits) :
    out env (s.at ((Item.field f g h w).text ++ tail)) =
      if PasswdAllowed env s.creds then out env ((takePasswd s w.value).at tail) else .bad := by
  obtain ⟨g', hg', htoken⟩ := token_item hi
  rw [← ite_not]
  apply out_unless hg' hi.2.2.2 hfits fun _ _ => rfl
  rw [step_matching hmatch, nextItem_token, htoken, hf, ite_not]
  rfl

theorem out_account {g h : Bytes} {w : Word} (hmatch : s.isMatch = true)
    (hi : (Item.field .account g h w).Written tail) (hfits : w.Fits) :
    out env (s.at ((Item.field .account g h w).text ++ tail)) =
      if env.exposed then .bad else out env ((takeAccount s w.value).at tail) := by
  obtain ⟨g', hg', htoken⟩ := token_item hi
  apply out_unless hg' hi.2.2.2 hfits fun _ _ => rfl
  rw [step_matching hmatch, nextItem_token, htoken]
  rfl

theorem out_macdef (env : NetrcEnv) {g : Bytes} {m : Macro} (hmatch : s.isMatch = true)
    (hi : (Item.macdef g m).Written tail) :
    (env.proxy = true ∧ out env (s.at ((Item.macdef g m).text ++ tail)) = .returns s.creds) ∨
      env.proxy = false ∧ (out env (s.at ((Item.macdef g m).text ++ tail)) = .bad ∨
        ∃ macros, out env (s.at ((Item.macdef g m).text ++ tail)) =
          out env ({ s with macros }.at tail)) := by
  obtain ⟨hg, hm⟩ := hi
  have htoken : token ((Item.macdef g m).text ++ tail) =
      some (.macdef, ascii "macdef", (m.text ++ tail).drop 1) := by
    rw [Item.text, List.append_assoc, List.append_assoc, token_macdef hg (macro_clear hm tail)]
  have hstep : step env (s.at ((Item.macdef g m).text ++ tail)) =
      handleItem env (s.at ((Item.macdef g m).text ++ tail)) ((m.text ++ tail).drop 1) .macdef := by
    rw [step_matching hmatch, nextItem_token, htoken]
    rfl
  unfold handleItem at hstep
  dsimp only at hstep
  by_cases hproxy : env.proxy = true
  · left
    rw [if_pos hproxy] at hstep
    exact ⟨hproxy, out_error hstep⟩
  · right
    rw [if_neg hproxy] at hstep
    refine ⟨Bool.eq_false_iff.mpr hproxy, ?_⟩
    split at hstep
    · exact Or.inl (out_error hstep)
    case h_2 macros rest hmacro =>
      have hrest : rest = tail := readMacro_text hm hmacro
      rw [hrest] at hstep
      exact Or.inr ⟨macros, out_ok hstep⟩

def Ends (tail : Bytes) : Prop :=
  ∃ k v rest, token tail = some (k, v, rest) ∧ (k = .eof ∨ k = .mach ∨ k = .default)

theorem out_end (hmatch : s.isMatch = true) (h : Ends tail) :
    out env (s.at tail) = .returns s.creds := by
  obtain ⟨k, v, rest, htoken, hk⟩ := h
  have hstep : step env (s.at tail) = handleItem env (s.at tail) rest k := by
    rw [step_matching hmatch, nextItem_token, htoken]
    rfl
  rcases hk with rfl | rfl | rfl
  · exact out_error hstep
  · exact out_error hstep
  · exact out_error hstep

theorem merge_nil (c : Creds) : c.merge [] = c := by
  obtain ⟨aname, apass, aacct⟩ := c
  cases aname <;> cases apass <;> cases aacct <;> rfl

theorem merge_macros {c : Creds} {items : List Item} (h : ∀ i ∈ items, i.isField = false) :
    c.merge items = c := by
  have hnone (p : Field → Bool) : items.findSome? (Item.value p) = none := by
    rw [List.findSome?_eq_none_iff]
    intro i hi
    cases i with
    | field f g h' w => exact nomatch h _ hi
    | macdef g m => rfl
  have hmerge := merge_nil c
  unfold Creds.merge at hmerge ⊢
  rw [hnone, hnone, hnone]
  exact hmerge

theorem merge_login {g h : Bytes} {w : Word} (items : List Item) :
    (takeLogin s w.value).creds.merge items = s.creds.merge (.field .login g h w :: items) := by
  unfold takeLogin
  cases ha : s.creds.aname with
  | none =>
    dsimp only
    unfold Creds.merge
    rw [ha]
    rfl
  | some a =>
    dsimp only
    unfold Creds.merge
    rw [ha]
    rfl

theorem orElse_some_orElse {α : Type} (a : Option α) (b : α) (c : Option α) :
    ((a <|> some b) <|> c) = (a <|> some b) := by
  cases a <;> rfl

theorem merge_passwd {f : Field} {g h : Bytes} {w : Word} (hf : f.kind = .passwd)
    (items : List Item) :
    (takePasswd s w.value).creds.merge items = s.creds.merge (.field f g h w :: items) := by
  unfold takePasswd Creds.merge
  dsimp only
  rw [orElse_some_orElse]
  cases f with
  | login => exact nomatch hf
  | account => exact nomatch hf
  | password => rfl
  | passwd => rfl

theorem merge_account {g h : Bytes} {w : Word} (items : List Item) :
    (takeAccount s w.value).creds.merge items = s.creds.merge (.field .account g h w :: items) := by
  unfold takeAccount Creds.merge
  dsimp only
  rw [orElse_some_orElse]
  rfl

def Trouble (env : NetrcEnv) (c : Creds) (items : List Item) : Prop :=
  env.exposed = true ∨ (∃ i ∈ items, i.isField = false) ∨ c.aname = none ∧ ¬ LoginFirst items

theorem Trouble.cons {c : Creds} {i : Item} {items : List Item} (hi : i.value isLogin = none)
    (h : Trouble env c items) : Trouble env c (i :: items) := by
  rcases h with h | ⟨j, hj, hfield⟩ | ⟨haname, hfirst⟩
  · exact Or.inl h
  · exact Or.inr (Or.inl ⟨j, List.mem_cons_of_mem i hj, hfield⟩)
  · refine Or.inr (Or.inr ⟨haname, fun h => hfirst (fun j hj => h j ?_)⟩)
    rw [List.takeWhile_cons, decide_eq_true hi, if_pos rfl]
    exact List.mem_cons_of_mem i hj

/-- The logins of the entry are that of the caller, and there are not two. -/
def OneLogin (c : Creds) (items : List Item) : Prop :=
  (∀ a ∈ c.aname, ∀ l ∈ items.filterMap (Item.value isLogin), l = a) ∧
    (items.filterMap (Item.value isLogin)).length ≤ 1

theorem OneLogin.behind {c : Creds} {i : Item} {items : List Item} (hi : i.value isLogin = none)
    (h : OneLogin c (i :: items)) : OneLogin c items := by
  unfold OneLogin at h
  rw [List.filterMap_cons_none hi] at h
  exact h

theorem out_wanted {items : List Item} (hmatch : s.isMatch = true)
    (hwritten : ItemsWritten tail items) (hfits : ∀ i ∈ items, i.Fits)
    (hproxy : MacrosLast env items) (hend : Ends tail) (hlogin : OneLogin s.creds items) :
    out env (s.at (itemsText items ++ tail)) = .returns (s.creds.merge items) ∨
      out env (s.at (itemsText items ++ tail)) = .bad ∧ Trouble env s.creds items := by
  induction items generalizing s with
  | nil =>
    left
    rw [merge_nil]
    exact out_end hmatch hend
  | cons i items ih =>
    have hi := hwritten.1
    have hrest : ∀ j ∈ items, j.Fits := fun j hj => hfits j (List.mem_cons_of_mem i hj)
    rw [itemsText_cons]
    cases i with
    | macdef g m =>
      have htrouble : Trouble env s.creds (.macdef g m :: items) :=
        Or.inr (Or.inl ⟨_, List.mem_cons_self, rfl⟩)
      rcases out_macdef env hmatch hi with ⟨hp, h⟩ | ⟨hp, h | ⟨macros, h⟩⟩
      · left
        have hnone : ∀ i ∈ Item.macdef g m :: items, i.isField = false := hproxy hp
        rw [merge_macros hnone]
        exact h
      · exact Or.inr ⟨h, htrouble⟩
      · rw [h]
        have hlast : MacrosLast env items := fun h => nomatch hp.symm.trans h
        rcases ih (s := { s with macros }) hmatch hwritten.2 hrest hlast (OneLogin.behind rfl hlogin) with h' | ⟨h', -⟩
        · exact Or.inl h'
        · exact Or.inr ⟨h', htrouble⟩
    | field f g h w =>
      have hw : w.Fits := hfits _ List.mem_cons_self
      have hlast : MacrosLast env items := hproxy
      by_cases hpasswd : f.kind = .passwd
      · have hvalue : (Item.field f g h w).value isLogin = none := by
          cases f with
          | login => exact nomatch hpasswd
          | _ => rfl
        have hvalue' : (Item.field f g h w).value isPassword = some w.value := by
          cases f with
          | login => exact nomatch hpasswd
          | account => exact nomatch hpasswd
          | _ => rfl
        rw [out_passwd hmatch hpasswd hi hw]
        split
        case isTrue =>
          rcases ih (s := takePasswd s w.value) hmatch hwritten.2 hrest hlast
            (OneLogin.behind hvalue hlogin) with h' | ⟨h', htrouble⟩
          · rw [merge_passwd hpasswd] at h'
            exact Or.inl h'
          · exact Or.inr ⟨h', Trouble.cons hvalue htrouble⟩
        case isFalse hallowed =>
          refine Or.inr ⟨rfl, ?_⟩
          unfold PasswdAllowed at hallowed
          cases ha : s.creds.aname with
          | none =>
            refine Or.inr (Or.inr ⟨ha, fun hfirst => ?_⟩)
            have hnone := hfirst (.field f g h w) (by
              rw [List.takeWhile_cons, decide_eq_true hvalue, if_pos rfl]
              exact List.mem_cons_self)
            exact nomatch hvalue'.symm.trans hnone
          | some a =>
            left
            rw [ha, Option.any_some, Bool.or_eq_true, not_or, Bool.not_eq_true', Bool.not_eq_false]
              at hallowed
            exact hallowed.2
      cases f with
      | password => exact absurd rfl hpasswd
      | passwd => exact absurd rfl hpasswd
      | login =>
        have hsame : ∀ a ∈ s.creds.aname, w.value = a := fun a ha =>
          hlogin.1 a ha _ List.mem_cons_self
        have hnone : items.filterMap (Item.value isLogin) = [] :=
          List.length_eq_zero_iff.mp (Nat.le_zero.mp (Nat.le_of_succ_le_succ hlogin.2))
        have hone : OneLogin (takeLogin s w.value).creds items := by
          unfold OneLogin
          rw [hnone]
          exact ⟨fun _ _ _ h => absurd h List.not_mem_nil, Nat.zero_le _⟩
        have htaken : (takeLogin s w.value).isMatch = true ∧
            (takeLogin s w.value).creds.aname ≠ none := by
          unfold takeLogin
          cases ha : s.creds.aname with
          | none => exact ⟨hmatch, fun h => nomatch h⟩
          | some a =>
            refine ⟨decide_eq_true (hsame a ha).symm, fun h => ?_⟩
            exact nomatch ha.symm.trans h
        rw [out_login hmatch hi hw]
        rcases ih htaken.1 hwritten.2 hrest hlast hone with h' | ⟨h', htrouble⟩
        · rw [merge_login] at h'
          exact Or.inl h'
        · refine Or.inr ⟨h', ?_⟩
          rcases htrouble with ht | ⟨j, hj, hfield⟩ | ⟨hnone', -⟩
          · exact Or.inl ht
          · exact Or.inr (Or.inl ⟨j, List.mem_cons_of_mem _ hj, hfield⟩)
          · exact absurd hnone' htaken.2
      | account =>
        rw [out_account hmatch hi hw]
        split
        case isTrue hexposed => exact Or.inr ⟨rfl, Or.inl hexposed⟩
        case isFalse =>
          rcases ih (s := takeAccount s w.value) hmatch hwritten.2 hrest hlast (OneLogin.behind rfl hlogin)
            with h' | ⟨h', htrouble⟩
          · rw [merge_account] at h'
            exact Or.inl h'
          · exact Or.inr ⟨h', Trouble.cons rfl htrouble⟩

/-! ## The entries in front of it -/

theorem out_leaves {items : List Item} {a : Bytes} (hmatch : s.isMatch = true)
    (ha : s.creds.aname = some a) (hwritten : ItemsWritten tail items) (hleaves : Leaves env items)
    (hother : ∃ l ∈ items.filterMap (Item.value isLogin), l ≠ a)
    (hone : (items.filterMap (Item.value isLogin)).length ≤ 1) :
    (out env (s.at (itemsText items ++ tail)) = .bad ∧ ∃ i ∈ items, i.isField = false) ∨
      ∃ macros, out env (s.at (itemsText items ++ tail)) =
        out env ({ s with isMatch := false, macros }.at tail) := by
  induction items generalizing s with
  | nil =>
    obtain ⟨l, hl, -⟩ := hother
    exact absurd hl List.not_mem_nil
  | cons i items ih =>
    have hi := hwritten.1
    rw [itemsText_cons]
    cases i with
    | macdef g m =>
      obtain ⟨hproxy, hleaves⟩ := hleaves
      rcases out_macdef env hmatch hi with ⟨hp, -⟩ | ⟨-, h | ⟨macros, h⟩⟩
      · exact nomatch hproxy.symm.trans hp
      · exact Or.inl ⟨h, _, List.mem_cons_self, rfl⟩
      · rw [h]
        rcases ih (s := { s with macros }) hmatch ha hwritten.2 hleaves hother hone with
          ⟨h', j, hj, hfield⟩ | h'
        · exact Or.inl ⟨h', j, List.mem_cons_of_mem _ hj, hfield⟩
        · exact Or.inr h'
    | field f g h w =>
      obtain ⟨rfl, hw, hidle⟩ := hleaves
      have hnone : items.filterMap (Item.value isLogin) = [] :=
        List.length_eq_zero_iff.mp (Nat.le_zero.mp (Nat.le_of_succ_le_succ hone))
      have hvalue : w.value ≠ a := by
        obtain ⟨l, hl, hne⟩ := hother
        change l ∈ w.value :: items.filterMap (Item.value isLogin) at hl
        rw [hnone, List.mem_singleton] at hl
        exact hl ▸ hne
      have htaken : takeLogin s w.value = { s with isMatch := false } := by
        unfold takeLogin
        rw [ha]
        dsimp only
        rw [decide_eq_false (fun h => hvalue h.symm)]
      right
      refine ⟨s.macros, ?_⟩
      rw [out_login hmatch hi hw, htaken]
      exact out_items rfl hwritten.2 hidle

theorem out_head {g : Bytes} {name : Option (Bytes × Word)} (hmatch : s.isMatch = false)
    (hdefault : s.usedefault = false) (hg : AllSep g) (hhead : HeadWritten tail name)
    (hname : NameFits env name) :
    out env (s.at (g ++ (headText name ++ tail))) =
      out env ({ s with isMatch := name.all (fun p : Bytes × Word => env.isMatch p.2.value),
                        usedefault := name.isNone }.at tail) := by
  have hentry (a : Bytes) : step env (s.at a) = nextEntry env (s.at a) :=
    if_neg (Bool.eq_false_iff.mp hmatch)
  cases name with
  | none =>
    have hclear : Clear tail := hhead
    have htoken : token (g ++ (headText none ++ tail)) =
        some (.default, ascii "default", tail.drop 1) :=
      token_keyword hg (by decide) (by decide) hclear
    have hstep : step env (s.at (g ++ (headText none ++ tail))) =
        .ok ({ s with isMatch := true, usedefault := true }.at (tail.drop 1)) := by
      rw [hentry]
      unfold nextEntry Scan.at
      dsimp only
      rw [htoken]
    rw [out_ok hstep]
    exact out_same (same_drop hclear)
  | some p =>
    obtain ⟨h, w⟩ := p
    obtain ⟨hh, hne, hw⟩ := hhead
    obtain ⟨hfits, hid⟩ := hname (h, w) rfl
    obtain ⟨hclear, g', hg', hdrop⟩ := drop_gap hh hne (w.text ++ tail)
    have htoken : token (g ++ (headText (some (h, w)) ++ tail)) =
        some (.mach, ascii "machine", g' ++ (w.text ++ tail)) := by
      rw [headText, List.append_assoc, List.append_assoc, ← hdrop]
      exact token_keyword hg (by decide) (by decide) hclear
    have hword := token_word hg' hw hfits.2
    have hstep : step env (s.at (g ++ (headText (some (h, w)) ++ tail))) =
        .ok ({ s with isMatch := env.isMatch w.value }.at (w.behind tail)) := by
      rw [hentry]
      unfold nextEntry Scan.at
      dsimp only
      rw [htoken]
      dsimp only
      rw [if_neg (Bool.eq_false_iff.mp hdefault), hword]
      by_cases hkind : kindOf w.value = .id
      · rw [hkind]
      · have hother : env.isMatch w.value = false :=
          Bool.eq_false_iff.mpr (fun h => hkind (hid h))
        rw [hother]
        cases hk : kindOf w.value with
        | id => exact absurd hk hkind
        | _ => rw [← hmatch]
    rw [out_ok hstep, out_same (Word.behind_same hw)]
    have hall : (some (h, w)).all (fun p => env.isMatch p.2.value) = env.isMatch w.value := rfl
    rw [hall, Option.isNone_some, ← hdefault]

theorem fileText_cons (e : Entry) (es : List Entry) (tail : Bytes) :
    fileText (e :: es) tail =
      e.gap ++ (headText e.name ++ (itemsText e.items ++ fileText es tail)) := by
  rw [fileText, List.flatMap_cons, Entry.text, List.append_assoc, List.append_assoc,
    List.append_assoc]
  rfl

theorem token_tail (h : AllSep tail) : token tail = some (.eof, [], []) := by
  have hsame := same_append h []
  rw [List.append_nil] at hsame
  rw [token_same hsame]
  rfl

theorem out_eof (hmatch : s.isMatch = false) (h : AllSep tail) :
    out env (s.at tail) = .returns s.creds := by
  refine out_error ?_
  unfold step nextEntry Scan.at
  dsimp only
  rw [hmatch, if_neg Bool.false_ne_true, token_tail h]

theorem ends_fileText {es : List Entry} (h : FileWritten tail es) : Ends (fileText es tail) := by
  cases es with
  | nil => exact ⟨.eof, [], [], token_tail h, Or.inl rfl⟩
  | cons e es =>
    obtain ⟨⟨hgap, hhead, -, -⟩, -⟩ := h
    rw [fileText_cons]
    cases hname : e.name with
    | none =>
      rw [hname] at hhead
      exact ⟨.default, ascii "default", _, token_keyword hgap (by decide) (by decide) hhead,
        Or.inr (Or.inr rfl)⟩
    | some p =>
      obtain ⟨h, w⟩ := p
      rw [hname] at hhead
      have hclear := (drop_gap hhead.1 hhead.2.1 (w.text ++ (itemsText e.items ++
        fileText es tail))).1
      rw [headText, List.append_assoc, List.append_assoc]
      exact ⟨.mach, ascii "machine", _, token_keyword hgap (by decide) (by decide) hclear,
        Or.inr (Or.inl rfl)⟩

theorem expected_cons {c : Creds} {e : Entry} (es : List Entry)
    (h : (e.isMatch env && e.isWanted c) = false) : expected env c (e :: es) = expected env c es := by
  rw [expected, List.find?_cons, h]
  rfl

theorem Refuses.cons {c : Creds} {es : List Entry} (e : Entry) (h : Refuses env c es) :
    Refuses env c (e :: es) := by
  rcases h with h | ⟨f, hf, h⟩
  · exact Or.inl h
  · exact Or.inr ⟨f, List.mem_cons_of_mem e hf, h⟩

theorem not_wanted {c : Creds} {e : Entry} (h : e.isWanted c = false) :
    ∃ a, c.aname = some a ∧ ∃ l ∈ e.items.filterMap (Item.value isLogin), l ≠ a := by
  unfold Entry.isWanted at h
  cases ha : c.aname with
  | none =>
    rw [ha] at h
    exact nomatch h
  | some a =>
    rw [ha, Option.all_some, List.all_eq_false] at h
    obtain ⟨l, hl, hne⟩ := h
    exact ⟨a, rfl, l, hl, fun h => hne (decide_eq_true h)⟩

theorem wanted_oneLogin {c : Creds} {e : Entry} (h : e.isWanted c = true)
    (hone : (e.items.filterMap (Item.value isLogin)).length ≤ 1) : OneLogin c e.items := by
  refine ⟨fun a ha l hl => ?_, hone⟩
  unfold Entry.isWanted at h
  rw [Option.mem_def.mp ha, Option.all_some] at h
  exact of_decide_eq_true (List.all_eq_true.mp h l hl)

/-- The reader goes through the entries; the induction is on those that are left. -/
theorem out_file {es : List Entry} (hmatch : s.isMatch = false) (hdefault : s.usedefault = false)
    (hwritten : FileWritten tail es) (hcareful : Careful env s.creds es) :
    out env (s.at (fileText es tail)) = .returns (expected env s.creds es) ∨
      out env (s.at (fileText es tail)) = .bad ∧ Refuses env s.creds es := by
  induction es generalizing s with
  | nil =>
    exact Or.inl (out_eof hmatch hwritten)
  | cons e es ih =>
    obtain ⟨⟨hgap, hhead, hitems, hone⟩, hrest⟩ := hwritten
    obtain ⟨hname, hcareful⟩ := hcareful
    rw [fileText_cons, out_head hmatch hdefault hgap hhead hname]
    by_cases he : e.isMatch env = true
    · rw [if_pos he] at hcareful
      have hall : e.name.all (fun p : Bytes × Word => env.isMatch p.2.value) = true := he
      rw [hall]
      by_cases hwanted : e.isWanted s.creds = true
      · rw [if_pos hwanted] at hcareful
        have hfound : expected env s.creds (e :: es) = s.creds.merge e.items := by
          rw [expected, List.find?_cons, he, hwanted]
          rfl
        rcases out_wanted (s := { s with isMatch := true, usedefault := e.name.isNone }) rfl hitems
          hcareful.1 hcareful.2 (ends_fileText hrest) (wanted_oneLogin hwanted hone) with
          h | ⟨h, htrouble⟩
        · rw [hfound]
          exact Or.inl h
        · refine Or.inr ⟨h, ?_⟩
          rcases htrouble with h | h | h
          · exact Or.inl h
          · exact Or.inr ⟨e, List.mem_cons_self, he, Or.inl h⟩
          · exact Or.inr ⟨e, List.mem_cons_self, he, Or.inr h⟩
      · rw [if_neg hwanted] at hcareful
        obtain ⟨hleaves, hlast, hcareful⟩ := hcareful
        have hnot : e.isWanted s.creds = false := Bool.eq_false_iff.mpr hwanted
        obtain ⟨a, ha, hother⟩ := not_wanted hnot
        have hskip : expected env s.creds (e :: es) = expected env s.creds es :=
          expected_cons es (by rw [hnot, Bool.and_false])
        rcases out_leaves (s := { s with isMatch := true, usedefault := e.name.isNone }) rfl ha
          hitems hleaves hother hone with ⟨h, hmacro⟩ | ⟨macros, h⟩
        · exact Or.inr ⟨h, Or.inr ⟨e, List.mem_cons_self, he, Or.inl hmacro⟩⟩
        · rw [h, hskip]
          cases hnone : e.name with
          | none =>
            obtain rfl := hlast hnone
            exact Or.inl (out_eof rfl hrest)
          | some p =>
            rcases ih (s := { s with isMatch := false, usedefault := false, macros }) rfl rfl hrest
              hcareful with h' | ⟨h', hrefuses⟩
            · exact Or.inl h'
            · exact Or.inr ⟨h', hrefuses.cons e⟩
    · rw [if_neg he] at hcareful
      have hnot : e.isMatch env = false := Bool.eq_false_iff.mpr he
      have hall : e.name.all (fun p : Bytes × Word => env.isMatch p.2.value) = false := hnot
      have hsome : e.name.isNone = false := by
        cases hn : e.name with
        | none =>
          rw [hn] at hall
          exact nomatch hall
        | some p => rfl
      have hskip : expected env s.creds (e :: es) = expected env s.creds es :=
        expected_cons es (by rw [hnot, Bool.false_and])
      rw [hall, hsome, out_items rfl hitems hcareful.1, hskip]
      rcases ih (s := { s with isMatch := false, usedefault := false }) rfl rfl hrest
        hcareful.2 with h' | ⟨h', hrefuses⟩
      · exact Or.inl h'
      · exact Or.inr ⟨h', hrefuses.cons e⟩

end Loops

/-- **Entries of .netrc are isolated**: from a well-formed file that keeps to the condition, the
reader returns the fields of the first entry for the host and the login, or refuses it. -/
theorem xruserpass_careful {env : NetrcEnv} (macros : Macros) {given : Creds} {es : List Entry}
    {tail : Bytes} (hwritten : FileWritten tail es) (hcareful : Careful env given es) :
    xruserpass env macros given (fileText es tail) = .returns (expected env given es) ∨
      xruserpass env macros given (fileText es tail) = .bad ∧ Refuses env given es :=
  out_file (s := ⟨false, false, given, macros, fileText es tail⟩) rfl rfl hwritten hcareful

def plain (s : Bytes) : Word := .bare (s.headD 0) (s.tail.map (fun c => ⟨false, c⟩))

def machineLine (name login password : Bytes) : Entry where
  gap := [10]
  name := some ([32], plain name)
  items := [.field .login [32] [32] (plain login), .field .password [32] [32] (plain password)]

theorem xruserpass_second :
    xruserpass ⟨ascii "h", ascii "h.org", [], false, false⟩ ⟨0, 0, false⟩ ⟨none, none, none⟩
        (fileText [machineLine (ascii "g") (ascii "u") (ascii "x"),
          machineLine (ascii "h") (ascii "v") (ascii "machine")] [10]) =
      .returns ⟨some (ascii "v"), some (ascii "machine"), none⟩ := by
  have hwritten : FileWritten [10] [machineLine (ascii "g") (ascii "u") (ascii "x"),
      machineLine (ascii "h") (ascii "v") (ascii "machine")] := by
    decide +kernel
  have hidle (f : Field) (v : Bytes) (hv : (plain v).Fits) (h : kindOf (plain v).value = .id) :
      (Item.field f [32] [32] (plain v)).Idle :=
    ⟨hv, by rw [h]; decide, by rw [h]; decide⟩
  have hother : ∀ i ∈ (machineLine (ascii "g") (ascii "u") (ascii "x")).items, i.Idle := by
    intro i hi
    rcases List.mem_pair.mp hi with rfl | rfl
    · exact hidle .login (ascii "u") ⟨by decide, by decide⟩ (by decide)
    · exact hidle .password (ascii "x") ⟨by decide, by decide⟩ (by decide)
  have hfits : ∀ i ∈ (machineLine (ascii "h") (ascii "v") (ascii "machine")).items, i.Fits := by
    intro i hi
    rcases List.mem_pair.mp hi with rfl | rfl
    · exact ⟨by decide, by decide⟩
    · exact ⟨by decide, by decide⟩
  have hcareful : Careful ⟨ascii "h", ascii "h.org", [], false, false⟩ ⟨none, none, none⟩
      [machineLine (ascii "g") (ascii "u") (ascii "x"),
        machineLine (ascii "h") (ascii "v") (ascii "machine")] := by
    refine ⟨?_, ?_⟩
    · intro p hp
      obtain rfl := Option.some.inj hp
      exact ⟨⟨by decide, by decide⟩, fun h => absurd h (by decide)⟩
    · rw [if_neg (by decide)]
      refine ⟨hother, ?_, ?_⟩
      · intro p hp
        obtain rfl := Option.some.inj hp
        exact ⟨⟨by decide, by decide⟩, fun _ => by decide⟩
      · rw [if_pos (by decide), if_pos (by decide)]
        exact ⟨hfits, fun h => absurd h (by decide)⟩
  rcases xruserpass_careful ⟨0, 0, false⟩ hwritten hcareful with h | ⟨h, -⟩
  · exact h.trans (by decide +kernel)
  · exact absurd h (by decide +kernel)

/-- A value of another machine is taken for the default entry. -/
theorem not_isolated_default :
    let env : NetrcEnv := ⟨ascii "h", ascii "h.org", [], false, false⟩
    let es := [{ gap := [], name := some ([32], plain (ascii "g")),
                 items := [.field .account [32] [32] (plain (ascii "default")),
                   .field .login [32] [32] (plain (ascii "u")),
                   .field .password [32] [32] (plain (ascii "x"))] : Entry }]
    FileWritten [10] es ∧ expected env ⟨none, none, none⟩ es = ⟨none, none, none⟩ ∧
      xruserpass env ⟨0, 0, false⟩ ⟨none, none, none⟩ (fileText es [10]) =
        .returns ⟨some (ascii "u"), some (ascii "x"), none⟩ := by
  decide +kernel

end Netkit.Ftp.Ruserpass

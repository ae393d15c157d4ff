import Netkit.Foundations.Decimal
import Netkit.Ftpd.OneReply

/-!
# Lines that the grammar reads

The scanner goes through the characters of a line, and the grammar through its tokens. Here is a
line for a list of tokens, and what the parser makes of it is what the grammar says of the tokens:
nothing that is in a line gets lost between the two, and nothing of the next line is taken.

* `Rule.read`: the rules on tokens; `sentence_read`: the parser on the line agrees with them.
-/

namespace Netkit.Ftpd

open Netkit.Foundations

/-! ## Tokens and their characters -/

def Letter.char : Letter → UInt8
  | .A => 65
  | .B => 66
  | .C => 67
  | .E => 69
  | .F => 70
  | .I => 73
  | .L => 76
  | .N => 78
  | .P => 80
  | .R => 82
  | .S => 83
  | .T => 84

/-- The word of a command is that of `SITE`: the first word of a line is not among its tokens. -/
def Token.text : Token → Bytes
  | .SP => [32]
  | .CRLF => [10]
  | .COMMA => [44]
  | .letter l => [l.char]
  | .STRING s => s
  | .NUMBER i => decimal i.toNat
  | .command c => ((sitetab.find? (fun p => p.token == c)).map Tab.name).getD []

/-- The tokens, and the end of the line as it is in `cbuf`. -/
def spelled (ts : List Token) : Bytes := ts.flatMap Token.text ++ [10]

def Token.isSymbol : Token → Bool
  | .SP => true
  | .COMMA => true
  | .letter _ => true
  | _ => false

/-- A text that is one token: it is not empty, and the line does not end in it. -/
structure OneString (s : Bytes) : Prop where
  nonempty : s ≠ []
  plain : ∀ c ∈ s, c ≠ 0 ∧ c ≠ 10 ∧ c ≠ 13

/-- The tokens in front of the end of a line. A number is not followed by a number, and a word is
followed by a space if it is followed by anything. -/
inductive Written : LexState → List Token → Prop where
  | argsEnd : Written .ARGS []
  | args {t : Token} {ts : List Token} (ht : t.isSymbol = true) (h : Written .ARGS ts) :
    Written .ARGS (t :: ts)
  | number {n : ℕ} {ts : List Token} (hn : n < 2147483648)
    (hnext : ∀ i, ts.head? ≠ some (.NUMBER i)) (h : Written .ARGS ts) :
    Written .ARGS (.NUMBER n :: ts)
  | str1 {ts : List Token} (h : Written .STR2 ts) : Written .STR1 (.SP :: ts)
  | str2 {s : Bytes} (hs : OneString s) : Written .STR2 [.STRING s]
  | ostrEnd : Written .OSTR []
  | ostr {ts : List Token} (h : Written .STR2 ts) : Written .OSTR (.SP :: ts)
  | zstr1 {ts : List Token} (h : Written .ZSTR2 ts) : Written .ZSTR1 (.SP :: ts)
  | zstr2End : Written .ZSTR2 []
  | zstr2 {s : Bytes} (hs : OneString s) : Written .ZSTR2 [.STRING s]
  | siteSpace {ts : List Token} (h : Written .SITECMD ts) : Written .SITECMD (.SP :: ts)
  | site {c : CommandName} {p : Tab} {ts : List Token}
    (hp : sitetab.find? (fun p => p.token == c) = some p) (hnext : ∀ t ∈ ts.head?, t = .SP)
    (h : Written p.state ts) : Written .SITECMD (.command c :: ts)
  | nstrSpace {ts : List Token} (h : Written .NSTR ts) : Written .NSTR (.SP :: ts)
  | nstr {n : ℕ} {ts : List Token} (hn : n < 2147483648) (h : Written .STR1 ts) :
    Written .NSTR (.NUMBER n :: ts)

/-- The scanner stands in front of these tokens. -/
structure Lexer.Has (l : Lexer) (ts : List Token) : Prop where
  within : l.Within
  written : Written l.state ts
  string : l.string l.cpos = spelled ts

variable {l m : Lexer} {t : Token} {ts : List Token} {state : LexState}

theorem spelled_cons (t : Token) (ts : List Token) : spelled (t :: ts) = t.text ++ spelled ts := by
  rw [spelled, List.flatMap_cons, List.append_assoc]
  rfl

theorem Written.state_ne (h : Written state ts) : state ≠ .CMD := by
  rintro rfl
  cases h

theorem spelled_nondigit (h : Written .ARGS ts) (hnext : ∀ i, ts.head? ≠ some (.NUMBER i)) :
    ∃ c rest, spelled ts = c :: rest ∧ isDigit c = false := by
  cases h with
  | argsEnd => exact ⟨10, [], rfl, by decide⟩
  | @args t ts ht h =>
    cases t with
    | SP => exact ⟨32, spelled ts, spelled_cons .SP ts, by decide⟩
    | COMMA => exact ⟨44, spelled ts, spelled_cons .COMMA ts, by decide⟩
    | letter l => exact ⟨l.char, spelled ts, spelled_cons (.letter l) ts, by cases l <;> decide⟩
    | _ => cases ht
  | number => exact absurd rfl (hnext _)

/-! ## The place of the scanner -/

theorem at_of_string (hl : l.Within) {c : UInt8} {b : Bytes} (h : l.string l.cpos = c :: b) :
    l.at l.cpos = c := by
  rw [string_eq hl.cpos] at h
  rw [← clean_at hl]
  show (cstring l.cbuf).getD l.cpos 0 = c
  rw [List.getD_eq_getElem?_getD, ← List.head?_drop, h]
  rfl

theorem has_next {a : Bytes} {next : LexState} (hl : l.Within)
    (h : l.string l.cpos = a ++ spelled ts) (hw : Written next ts) :
    Lexer.Has { l with cpos := l.cpos + a.length, state := next } ts := by
  rw [string_eq hl.cpos] at h
  have hlength := congrArg List.length h
  rw [List.length_drop, List.length_append] at hlength
  have hcpos := hl.cpos
  have hle : l.cpos + a.length ≤ (cstring l.cbuf).length := by
    have hpos : 0 < (spelled ts).length := by
      rw [spelled, List.length_append]
      exact Nat.lt_add_left _ Nat.one_pos
    omega
  refine ⟨⟨hw.state_ne, hle⟩, hw, ?_⟩
  have hstring := string_eq (l := { l with cpos := l.cpos + a.length, state := next }) hle
  rw [hstring, ← List.drop_drop]
  show List.drop a.length (List.drop l.cpos (cstring l.cbuf)) = spelled ts
  rw [h, List.drop_left]

/-! ## The tokens one by one -/

theorem symbol_char (ht : t.isSymbol = true) : ∃ c, t.text = [c] ∧ isdigit c = false ∧ c ≠ 10 ∧
    charToken c = some t := by
  cases t with
  | SP => exact ⟨32, rfl, rfl, by decide, rfl⟩
  | COMMA => exact ⟨44, rfl, rfl, by decide, rfl⟩
  | letter l => exact ⟨l.char, rfl, by cases l <;> rfl, by cases l <;> decide, by cases l <;> rfl⟩
  | _ => cases ht

theorem atoi_decimal {n : ℕ} (hn : n < 2147483648) : atoi (decimal n) = n := by
  have hvalue : (decimal n).foldl (fun n c => n * 10 + (c.toNat - 48)) 0 = n := by
    rw [foldl_value, value_decimal]
  unfold atoi
  rw [hvalue]
  dsimp only
  have hmin : min n 9223372036854775807 = n := by omega
  rw [hmin, Nat.mod_eq_of_lt (by omega), if_pos hn]

theorem digits_decimal {n : ℕ} {c : UInt8} {rest : Bytes} (hl : l.Within)
    (h : l.string l.cpos = decimal n ++ c :: rest) (hc : isDigit c = false) :
    l.digits = decimal n ∧ isdigit (l.at l.cpos) = true := by
  have hdigits : l.digits = decimal n := by
    rw [digits_eq hl, ← string_eq hl.cpos, h]
    exact (decimal_span n hc rest).1
  have hne : decimal n ≠ [] := by
    intro hnil
    have hzero := Nat.length_toDigits_pos (b := 10) (n := n)
    rw [decimal, List.map_eq_nil_iff] at hnil
    rw [hnil] at hzero
    exact Nat.lt_irrefl 0 hzero
  obtain ⟨d, ds, hd⟩ := List.exists_cons_of_ne_nil hne
  refine ⟨hdigits, ?_⟩
  rw [hd] at h
  rw [at_of_string hl h]
  exact decimal_digits n d (hd ▸ List.mem_cons_self)

/-- The scanner hands out a token, and stands in front of those behind it. -/
def Yields (l : Lexer) (t : Token) (ts : List Token) (x : Lexed) : Prop :=
  ∃ m, x = .ok (t, m) ∧ SameStreams l m ∧ m.Has ts

theorem yields_next {a : Bytes} {next : LexState} (hl : l.Within)
    (h : l.string l.cpos = a ++ spelled ts) (hw : Written next ts) :
    Yields l t ts (Lexer.token { l with cpos := l.cpos + a.length, state := next } t) :=
  ⟨{ l with cpos := l.cpos + a.length, state := next }, rfl, ⟨rfl, rfl, rfl⟩, has_next hl h hw⟩

theorem lexSpace_yields {next : LexState} (hl : l.Within)
    (h : l.string l.cpos = spelled (.SP :: ts)) (hw : Written next ts) :
    Yields l .SP ts (l.lexSpace next) := by
  rw [spelled_cons] at h
  have hat : l.at l.cpos = 32 := at_of_string hl h
  unfold Lexer.lexSpace
  rw [if_pos hat]
  exact yields_next hl h hw

theorem lexNumber_yields {n : ℕ} {next : LexState} (hl : l.Within) (hn : n < 2147483648)
    (h : l.string l.cpos = spelled (.NUMBER n :: ts))
    (hends : ∃ c rest, spelled ts = c :: rest ∧ isDigit c = false) (hw : Written next ts) :
    Yields l (.NUMBER n) ts (l.lexNumber next) ∧ isdigit (l.at l.cpos) = true := by
  rw [spelled_cons] at h
  change l.string l.cpos = decimal (n : Int).toNat ++ spelled ts at h
  rw [Int.toNat_natCast] at h
  obtain ⟨c, rest, hrest, hc⟩ := hends
  obtain ⟨hdigits, hat⟩ := digits_decimal hl (hrest ▸ h) hc
  refine ⟨?_, hat⟩
  unfold Lexer.lexNumber
  rw [hdigits, atoi_decimal hn]
  exact yields_next hl h hw

theorem lexString_yields {s : Bytes} (hs : OneString s) (hl : l.Within)
    (h : l.string l.cpos = spelled [.STRING s]) : Yields l (.STRING s) [] l.lexString := by
  rw [spelled_cons] at h
  change l.string l.cpos = s ++ spelled [] at h
  have hnext := has_next hl h .argsEnd
  have hpos := List.length_pos_of_ne_nil hs.nonempty
  have hlength : (s ++ spelled []).length = s.length + 1 := List.length_append
  have hlast : l.at (l.cpos + (s.length + 1) - 1) = 10 := at_of_string hnext.within hnext.string
  unfold Lexer.lexString
  dsimp only
  rw [h, hlength, hlast, if_pos ⟨Nat.succ_lt_succ hpos, rfl⟩, Nat.add_sub_cancel, List.take_left]
  exact yields_next hl h .argsEnd

/-- A word in capitals, and what the scanner does with it. -/
structure Word (w : Bytes) : Prop where
  nonempty : w ≠ []
  capitals : ∀ c ∈ w, 65 ≤ c.toNat ∧ c.toNat ≤ 90

theorem Word.upper {w : Bytes} (hw : Word w) : w.map toupper = w := by
  refine (List.map_congr_left fun c hc => ?_).trans (List.map_id w)
  have hcapital := hw.capitals c hc
  unfold toupper islower
  rw [decide_eq_false (by omega)]
  rfl

theorem strpbrk_word {w b : Bytes} {c : UInt8} {i : ℕ} (hw : Word w)
    (h : l.string i = w ++ c :: b) (hc : c = 32 ∨ c = 10) :
    l.strpbrk i = some (i + w.length) := by
  have hfind : (w ++ c :: b).findIdx? (fun c => c == 32 || c == 10) = some w.length := by
    rw [List.findIdx?_append, List.findIdx?_eq_none_iff.mpr, List.findIdx?_cons]
    · rcases hc with rfl | rfl
      · simp
      · simp
    · intro d hd
      have hcapital := hw.capitals d hd
      rw [Bool.or_eq_false_iff, beq_eq_false_iff_ne, beq_eq_false_iff_ne]
      constructor
      · rintro rfl
        exact absurd hcapital.1 (by decide)
      · rintro rfl
        exact absurd hcapital.1 (by decide)
  unfold Lexer.strpbrk
  rw [h, hfind]
  rfl

theorem upper_word {w b : Bytes} {i : ℕ} (hi : i ≤ (cstring l.cbuf).length) (hw : Word w)
    (h : l.string i = w ++ b) :
    l.word i (i + w.length) = w ∧
      cstring (l.upper i (i + w.length)).cbuf = cstring l.cbuf := by
  rw [string_eq hi] at h
  have hraw : cstring ((l.cbuf.take (i + w.length)).drop i) = w := by
    rw [raw_eq hi (Nat.le_add_right i _), List.drop_take, h, Nat.add_sub_cancel_left,
      List.take_left]
  have hself : cstring l.clean.cbuf = l.clean.cbuf :=
    cstring_eq_self (zero_not_mem_cstring l.cbuf)
  have hrawClean := (clean_raw hi (Nat.le_add_right i w.length)).trans hraw
  constructor
  · unfold Lexer.word
    rw [hraw, hw.upper]
  · rw [(cstring_upper hi (Nat.le_add_right i _)).1]
    unfold Lexer.upper
    dsimp only
    rw [hrawClean, hw.upper]
    show (cstring l.cbuf).take i ++ (w ++ (cstring l.cbuf).drop (i + w.length)) = _
    rw [← List.drop_drop, h, List.drop_left, ← h, List.take_append_drop]

theorem sitetab_word {c : CommandName} {p : Tab}
    (hp : sitetab.find? (fun p => p.token == c) = some p) :
    Word p.name ∧ lookup sitetab p.name = some p ∧ p.implemented = true ∧ p.token = c := by
  have htoken : p.token = c := eq_of_beq (@List.find?_some _ (fun p : Tab => p.token == c) _ _ hp)
  have hmem := List.mem_of_find?_eq_some hp
  simp only [sitetab, List.mem_cons, List.not_mem_nil, or_false] at hmem
  rcases hmem with rfl | rfl | rfl | rfl
  · exact ⟨⟨by decide, by decide +kernel⟩, rfl, rfl, htoken⟩
  · exact ⟨⟨by decide, by decide +kernel⟩, rfl, rfl, htoken⟩
  · exact ⟨⟨by decide, by decide +kernel⟩, rfl, rfl, htoken⟩
  · exact ⟨⟨by decide, by decide +kernel⟩, rfl, rfl, htoken⟩

theorem spelled_blank (hnext : ∀ t ∈ ts.head?, t = .SP) :
    ∃ c rest, spelled ts = c :: rest ∧ (c = 32 ∨ c = 10) := by
  cases ts with
  | nil => exact ⟨10, [], rfl, Or.inr rfl⟩
  | cons t ts =>
    obtain rfl := hnext t rfl
    exact ⟨32, spelled ts, spelled_cons .SP ts, Or.inl rfl⟩

theorem lexSite_yields {c : CommandName} {p : Tab} (hl : l.Within)
    (hp : sitetab.find? (fun p => p.token == c) = some p) (hnext : ∀ t ∈ ts.head?, t = .SP)
    (hw : Written p.state ts) (h : l.string l.cpos = spelled (.command c :: ts)) :
    Yields l (.command c) ts l.lexSite := by
  obtain ⟨hword, hlookup, himplemented, rfl⟩ := sitetab_word hp
  have htext : (Token.command p.token).text = p.name := by
    rw [Token.text, hp]
    rfl
  rw [spelled_cons, htext] at h
  obtain ⟨d, ds, hd⟩ := List.exists_cons_of_ne_nil hword.nonempty
  have hspace : l.at l.cpos ≠ 32 := by
    intro hat
    rw [hd] at h
    have hcapital := hword.capitals d (hd ▸ List.mem_cons_self)
    rw [at_of_string hl h] at hat
    rw [hat] at hcapital
    exact absurd hcapital.1 (by decide)
  obtain ⟨b, rest, hrest, hb⟩ := spelled_blank hnext
  have hstrpbrk := strpbrk_word hword (hrest ▸ h) hb
  obtain ⟨hupper, hcbuf⟩ := upper_word hl.cpos hword h
  have hnext := has_next hl h hw
  refine ⟨{ l.upper l.cpos (l.cpos + p.name.length) with
    cpos := l.cpos + p.name.length, state := p.state }, ?_, ⟨rfl, rfl, rfl⟩, ?_⟩
  · unfold Lexer.lexSite
    rw [if_neg hspace, hstrpbrk]
    dsimp only [Option.getD_some]
    rw [hupper, hlookup]
    unfold Lexer.found
    dsimp only
    rw [if_pos himplemented]
  · have hle : l.cpos + p.name.length ≤ (cstring l.cbuf).length := hnext.within.cpos
    refine ⟨⟨hw.state_ne, by rw [hcbuf]; exact hle⟩, hw, ?_⟩
    have hstring : l.string (l.cpos + p.name.length) = spelled ts := hnext.string
    rw [string_eq hle] at hstring
    rw [string_eq (by rw [hcbuf]; exact hle), hcbuf]
    exact hstring

theorem yylex_token (h : l.Has (t :: ts)) : Yields l t ts (yylex l) := by
  obtain ⟨hl, hw, hstring⟩ := h
  unfold yylex
  generalize hstate : l.state = state at hw
  cases hw with
  | args ht h =>
    obtain ⟨c, htext, hdigit, hend, htoken⟩ := symbol_char ht
    rw [spelled_cons, htext] at hstring
    have hnext := yields_next (t := t) hl hstring h
    dsimp only
    unfold Lexer.lexArgs
    rw [at_of_string hl hstring, hdigit, if_neg Bool.false_ne_true, if_neg hend, htoken]
    rwa [← hstate] at hnext
  | number hn hnext h =>
    obtain ⟨hyields, hdigit⟩ := lexNumber_yields hl hn hstring (spelled_nondigit h hnext) h
    dsimp only
    unfold Lexer.lexArgs
    rwa [if_pos hdigit]
  | str1 h => exact lexSpace_yields hl hstring h
  | str2 hs => exact lexString_yields hs hl hstring
  | ostr h =>
    have hat : l.at l.cpos = 32 := at_of_string hl (hstring.trans (spelled_cons .SP ts))
    dsimp only
    rw [hat, if_neg (by decide)]
    exact lexSpace_yields hl hstring h
  | zstr1 h => exact lexSpace_yields hl hstring h
  | @zstr2 s hs =>
    obtain ⟨c, b, hc⟩ := List.exists_cons_of_ne_nil hs.nonempty
    have hat : l.at l.cpos = c := by
      apply at_of_string hl (b := b ++ spelled [])
      rw [hstring, spelled_cons, Token.text, hc]
      rfl
    have hplain := hs.plain c (hc ▸ List.mem_cons_self)
    dsimp only
    rw [hat, if_neg hplain.2.1]
    exact lexString_yields hs hl hstring
  | siteSpace h =>
    rw [spelled_cons] at hstring
    have hnext := yields_next (t := .SP) hl hstring h
    dsimp only
    unfold Lexer.lexSite
    rw [if_pos (at_of_string hl hstring)]
    rwa [← hstate] at hnext
  | site hp hnext h => exact lexSite_yields hl hp hnext h hstring
  | nstrSpace h =>
    rw [spelled_cons] at hstring
    have hnext := yields_next (t := .SP) hl hstring h
    dsimp only
    unfold Lexer.lexNstr
    rw [if_pos (at_of_string hl hstring)]
    rwa [← hstate] at hnext
  | @nstr n _ hn h =>
    have hends : ∃ c rest, spelled ts = c :: rest ∧ isDigit c = false := by
      cases h with
      | @str1 ts => exact ⟨32, spelled ts, spelled_cons .SP ts, by decide⟩
    obtain ⟨hyields, hdigit⟩ := lexNumber_yields hl hn hstring hends h
    have hspace : l.at l.cpos ≠ 32 := by
      intro hat
      rw [hat] at hdigit
      exact absurd hdigit (by decide)
    dsimp only
    unfold Lexer.lexNstr
    rwa [if_neg hspace, if_pos hdigit]

theorem yylex_end (h : l.Has []) :
    ∃ m, yylex l = .ok (.CRLF, m) ∧ SameStreams l m ∧ m.state = .CMD := by
  obtain ⟨hl, hw, hstring⟩ := h
  have hat : l.at l.cpos = 10 := at_of_string hl hstring
  unfold yylex
  rw [hat]
  generalize hstate : l.state = state at hw
  cases hw with
  | argsEnd =>
    dsimp only
    unfold Lexer.lexArgs
    rw [hat]
    exact ⟨_, rfl, ⟨rfl, rfl, rfl⟩, rfl⟩
  | ostrEnd => exact ⟨_, rfl, ⟨rfl, rfl, rfl⟩, rfl⟩
  | zstr2End => exact ⟨_, rfl, ⟨rfl, rfl, rfl⟩, rfl⟩

/-! ## The first word -/

def SafeByte (c : UInt8) : Prop := c ≠ 0 ∧ c ≠ 10 ∧ c ≠ 13

theorem safe_of_lt {c : UInt8} (h : 13 < c.toNat) : SafeByte c := by
  refine ⟨?_, ?_, ?_⟩ <;>
  · rintro rfl
    exact absurd h (by decide)

theorem Word.safe {w : Bytes} (hw : Word w) : ∀ c ∈ w, SafeByte c := by
  intro c hc
  have hcapital := hw.capitals c hc
  exact safe_of_lt (by omega)

theorem decimal_safe (n : ℕ) : ∀ c ∈ decimal n, SafeByte c := by
  intro c hc
  have hdigit := decimal_digits n c hc
  rw [isDigit, Bool.and_eq_true, decide_eq_true_iff] at hdigit
  exact safe_of_lt (by omega)

theorem symbol_safe (ht : t.isSymbol = true) : ∀ c ∈ t.text, SafeByte c := by
  unfold SafeByte
  cases t with
  | letter l => cases l <;> decide +kernel
  | SP => decide +kernel
  | COMMA => decide +kernel
  | _ => cases ht

theorem Written.safe (h : Written state ts) : ∀ c ∈ ts.flatMap Token.text, SafeByte c := by
  have hcons {t : Token} {ts : List Token} (ht : ∀ c ∈ t.text, SafeByte c)
      (hts : ∀ c ∈ ts.flatMap Token.text, SafeByte c) :
      ∀ c ∈ (t :: ts).flatMap Token.text, SafeByte c := by
    intro c hc
    rw [List.flatMap_cons] at hc
    exact (List.mem_append.mp hc).elim (ht c) (hts c)
  have hnil : ∀ c ∈ ([] : List Token).flatMap Token.text, SafeByte c :=
    fun c hc => absurd hc List.not_mem_nil
  have hspace : ∀ c ∈ Token.SP.text, SafeByte c := symbol_safe rfl
  induction h with
  | argsEnd => exact hnil
  | args ht _ ih => exact hcons (symbol_safe ht) ih
  | number _ _ _ ih => exact hcons (decimal_safe _) ih
  | str1 _ ih => exact hcons hspace ih
  | str2 hs => exact hcons hs.plain hnil
  | ostrEnd => exact hnil
  | ostr _ ih => exact hcons hspace ih
  | zstr1 _ ih => exact hcons hspace ih
  | zstr2End => exact hnil
  | zstr2 hs => exact hcons hs.plain hnil
  | siteSpace _ ih => exact hcons hspace ih
  | site hp _ _ ih =>
    apply hcons _ ih
    rw [Token.text, hp]
    exact (sitetab_word hp).1.safe
  | nstrSpace _ ih => exact hcons hspace ih
  | nstr _ _ ih => exact hcons (decimal_safe _) ih

/-- A line of the protocol: the word of a command and its tokens, with telnet commands between
their characters, perhaps, and its end. -/
structure Sentence (p : Tab) (ts : List Token) (content : Bytes) : Prop where
  served : lookup cmdtab p.name = some p ∧ p.implemented = true
  written : Written p.state ts
  blank : ∀ t ∈ ts.head?, t = .SP
  newline : 10 ∉ content
  plain : Ftpd.plain content = some (p.name ++ ts.flatMap Token.text ++ [13])
  length : (p.name ++ ts.flatMap Token.text).length < 510

variable {p : Tab} {content rest : Bytes}

theorem Sentence.word (h : Sentence p ts content) : Word p.name := by
  have htable : cmdtab.all (fun p => decide (p.name ≠ []) &&
      p.name.all (fun c => decide (65 ≤ c.toNat ∧ c.toNat ≤ 90))) = true := by decide +kernel
  have hp := List.all_eq_true.mp htable p (List.mem_of_find?_eq_some h.served.1)
  rw [Bool.and_eq_true, decide_eq_true_iff, List.all_eq_true] at hp
  exact ⟨hp.1, fun c hc => of_decide_eq_true (hp.2 c hc)⟩

theorem cutLine_sentence (h : Sentence p ts content) :
    cutLine (cstring (p.name ++ ts.flatMap Token.text ++ [13] ++ [10])) = p.name ++ spelled ts := by
  have hsafe : ∀ c ∈ p.name ++ ts.flatMap Token.text, SafeByte c := by
    intro c hc
    exact (List.mem_append.mp hc).elim (h.word.safe c) (h.written.safe c)
  have hzero : (0 : UInt8) ∉ p.name ++ ts.flatMap Token.text ++ [13] ++ [10] := by
    intro hmem
    rw [List.append_assoc] at hmem
    rcases List.mem_append.mp hmem with hmem | hmem
    · exact (hsafe 0 hmem).1 rfl
    · exact absurd hmem (by decide)
  have hfind : (p.name ++ ts.flatMap Token.text ++ [13] ++ [10]).findIdx? (fun c => c == 13) =
      some (p.name ++ ts.flatMap Token.text).length := by
    rw [List.append_assoc, List.findIdx?_append, List.findIdx?_eq_none_iff.mpr]
    · exact congrArg some (Nat.zero_add _)
    · exact fun c hc => beq_eq_false_iff_ne.mpr (hsafe c hc).2.2
  rw [cstring_eq_self hzero]
  unfold cutLine
  rw [hfind]
  dsimp only
  rw [List.append_assoc, List.take_left, List.append_assoc]
  rfl

theorem lexCommand_sentence (h : Sentence p ts content) (htmpline : l.tmpline = [])
    (hstdin : l.stdin = content ++ 10 :: rest) :
    ∃ m, l.lexCommand = .ok (.command p.token, m) ∧ m.Has ts ∧ m.stdin = rest ∧
      m.tmpline = [] := by
  have hshort : (p.name ++ ts.flatMap Token.text ++ [13]).length < 511 := by
    rw [List.length_append]
    exact Nat.succ_lt_succ h.length
  obtain ⟨answers, hread⟩ := readline_line h.newline h.plain hshort rest
  have hget : getline 511 l.tmpline l.stdin =
      ⟨p.name ++ ts.flatMap Token.text ++ [13] ++ [10], rest, answers, false⟩ := by
    rw [htmpline, hstdin, getline, if_neg List.not_mem_nil, List.length_nil, Nat.sub_zero, hread]
    rfl
  obtain ⟨k, hk⟩ : ∃ k, k = (Lexer.fill { l with
      tmpline := [], stdin := rest, answers := l.answers ++ answers }
        (p.name ++ ts.flatMap Token.text ++ [13] ++ [10])).cutCR := ⟨_, rfl⟩
  have hline : cstring k.cbuf = p.name ++ spelled ts := by
    rw [hk, cutCR_string, fill_string, cutLine_sentence h]
    rw [fill_string]
    have hle := (List.takeWhile_prefix (l := p.name ++ ts.flatMap Token.text ++ [13] ++ [10])
      (fun c => c ≠ 0)).length_le
    unfold Lexer.fill cstring
    dsimp only
    rw [@List.length_append _ (p.name ++ ts.flatMap Token.text ++ [13] ++ [10]), List.length_cons]
    omega
  have hkeeps : k.stdin = rest ∧ k.tmpline = [] := by
    rw [hk, cutCR_keeps]
    exact ⟨rfl, rfl⟩
  obtain ⟨b, tail, hb, hblank⟩ := spelled_blank h.blank
  have hstring : k.string 0 = p.name ++ spelled ts := hline
  have hstrpbrk := strpbrk_word h.word (hb ▸ hstring) hblank
  obtain ⟨hword, hcbuf⟩ := upper_word (Nat.zero_le _) h.word hstring
  have hpos := List.length_pos_of_ne_nil h.word.nonempty
  rw [Nat.zero_add] at hstrpbrk hword hcbuf
  refine ⟨{ k.upper 0 p.name.length with cpos := p.name.length, state := p.state }, ?_, ?_,
    hkeeps.1, hkeeps.2⟩
  · unfold Lexer.lexCommand
    dsimp only
    rw [hget]
    dsimp only
    rw [if_neg Bool.false_ne_true, ← hk, hstrpbrk]
    dsimp only [Option.getD_some]
    rw [if_neg (Nat.pos_iff_ne_zero.mp hpos), hword, h.served.1]
    unfold Lexer.found
    dsimp only
    rw [if_pos h.served.2]
  · have hle : p.name.length ≤ (cstring (k.upper 0 p.name.length).cbuf).length := by
      rw [hcbuf, hline, List.length_append]
      exact Nat.le_add_right _ _
    refine ⟨⟨h.written.state_ne, hle⟩, h.written, ?_⟩
    refine (string_eq hle).trans ?_
    show (cstring (k.upper 0 p.name.length).cbuf).drop p.name.length = _
    rw [hcbuf, hline, List.drop_left]

/-! ## The grammar -/

/-- The rules on a list of tokens, the end of the line among them: the command, and the server
behind the reductions on the way. -/
def Rule.read (glob : Bytes → Option Bytes) :
    Rule → Option Token → List Token → Server → Option (Command × Server)
  | .look next, some t, ts, s => (next t).read glob (some t) ts s
  | .look next, none, t :: ts, s => (next t).read glob (some t) ts s
  | .look _, none, [], _ => none
  | .shift next, _, ts, s => next.read glob none ts s
  | .check next, t, ts, s => (next s.login.loggedIn).read glob t ts s.checkLogin
  | .path p next, t, ts, s => (next (s.pathname glob p).1).read glob t ts (s.pathname glob p).2
  | .hostPort n next, t, ts, s => next.read glob t ts (s.hostPort n)
  | .reduce c, _, [], s => some (c, s)
  | .reduce _, _, _ :: _, _ => none
  | .fail, _, _, _ => none

/-- The scanner stands in front of the tokens and the end of the line, or behind it. -/
def Lexer.Offers (l : Lexer) (ts : List Token) : Prop :=
  (ts = [] ∧ l.state = .CMD) ∨ ∃ args, ts = args ++ [.CRLF] ∧ l.Has args

theorem offers_token (h : l.Offers (t :: ts)) :
    ∃ m, yylex l = .ok (t, m) ∧ SameStreams l m ∧ m.Offers ts := by
  rcases h with ⟨hnil, -⟩ | ⟨args, hargs, hl⟩
  · cases hnil
  · cases args with
    | nil =>
      cases hargs
      obtain ⟨m, hm, hstreams, hstate⟩ := yylex_end hl
      exact ⟨m, hm, hstreams, Or.inl ⟨rfl, hstate⟩⟩
    | cons a args =>
      cases hargs
      obtain ⟨m, hm, hstreams, hhas⟩ := yylex_token hl
      exact ⟨m, hm, hstreams, Or.inr ⟨args, rfl, hhas⟩⟩

theorem parse_read (glob : Bytes → Option Bytes) {r : Rule} {t : Option Token} {s u : Server}
    {c : Command} (hread : r.read glob t ts s = some (c, u)) (hl : l.Offers ts) :
    ∃ m, parse glob r t { s with lexer := l } = .done (.command c { u with lexer := m }) ∧
      SameStreams l m ∧ m.state = .CMD := by
  induction r generalizing t ts s l with
  | look next ih =>
    cases t with
    | some t => exact ih t hread hl
    | none =>
      cases ts with
      | nil => cases hread
      | cons t ts =>
        obtain ⟨m, hm, hstreams, hoffers⟩ := offers_token hl
        obtain ⟨n, hn, hsame, hstate⟩ := ih t hread hoffers
        refine ⟨n, ?_, ⟨hsame.stdin.trans hstreams.stdin, hsame.answers.trans hstreams.answers,
          hsame.tmpline.trans hstreams.tmpline⟩, hstate⟩
        unfold parse
        dsimp only
        rw [hm]
        exact hn
  | shift next ih => exact ih hread hl
  | check next ih =>
    have hcheck : Server.checkLogin { s with lexer := l } = { s.checkLogin with lexer := l } := by
      unfold Server.checkLogin
      dsimp only
      split
      · rfl
      · rfl
    unfold parse
    rw [hcheck]
    exact ih _ hread hl
  | path p next ih =>
    have hpath : Server.pathname { s with lexer := l } glob p =
        ((s.pathname glob p).1, { (s.pathname glob p).2 with lexer := l }) := by
      unfold Server.pathname
      dsimp only
      split
      · split
        · rfl
        · rfl
      · rfl
    unfold parse
    rw [hpath]
    exact ih _ hread hl
  | hostPort n next ih => exact ih hread hl
  | reduce c' =>
    cases ts with
    | nil =>
      cases hread
      rcases hl with ⟨-, hstate⟩ | ⟨args, hargs, -⟩
      · exact ⟨l, rfl, ⟨rfl, rfl, rfl⟩, hstate⟩
      · exact absurd hargs.symm (List.append_ne_nil_of_right_ne_nil _ (List.cons_ne_nil _ _))
    | cons t ts => cases hread
  | fail => cases hread

theorem parse_sentence (glob : Bytes → Option Bytes) {s : Server} (hstate : s.lexer.state = .CMD)
    (htmpline : s.lexer.tmpline = []) (h : Sentence p ts content)
    (hstdin : s.lexer.stdin = content ++ 10 :: rest) :
    ∃ k : Lexer, parse glob commandRule none s =
        parse glob (ruleOf p.token) none { s with lexer := k } ∧
      k.Offers (ts ++ [.CRLF]) ∧ k.stdin = rest ∧ k.tmpline = [] := by
  obtain ⟨k, hk, hhas, hrest, hempty⟩ := lexCommand_sentence h htmpline hstdin
  refine ⟨k, ?_, Or.inr ⟨ts, rfl, hhas⟩, hrest, hempty⟩
  have hyylex : yylex s.lexer = .ok (.command p.token, k) := by
    unfold yylex
    rw [hstate]
    exact hk
  unfold commandRule
  rw [parse, hyylex]
  rfl

/-- **A line is read as it is meant.** What the parser makes of a sentence is the command that the
grammar sees in its tokens, with its values; nothing of the line is left, and what is behind it has
not been touched. -/
theorem sentence_read (glob : Bytes → Option Bytes) {s u : Server} {c : Command}
    (hstate : s.lexer.state = .CMD) (htmpline : s.lexer.tmpline = [])
    (h : Sentence p ts content) (hstdin : s.lexer.stdin = content ++ 10 :: rest)
    (hread : (ruleOf p.token).read glob none (ts ++ [.CRLF]) s = some (c, u)) :
    ∃ m, parseCommand glob s = .command c { u with lexer := m } ∧ m.state = .CMD ∧
      m.tmpline = [] ∧ m.stdin = rest := by
  obtain ⟨k, hparse, hoffers, hrest, hempty⟩ := parse_sentence glob hstate htmpline h hstdin
  obtain ⟨m, hm, hstreams, hend⟩ := parse_read glob hread hoffers
  refine ⟨m, ?_, hend, hstreams.tmpline.trans hempty, hstreams.stdin.trans hrest⟩
  unfold parseCommand
  rw [hparse, hm]

/-- A change of mode, with a telnet command in its first word, and nobody logged in. -/
def changing : Server := Server.start ⟨0, 0⟩ true [] ([83, Telnet.IAC, Telnet.NOP] ++
  ascii "ITE CHMOD 644 f\r\nQUIT\r\n")

theorem sentence_read_chmod : ∃ m, parseCommand (fun _ => none) changing =
    .command (.siteChmod false 420 (some (ascii "f"))) { changing.checkLogin with lexer := m } ∧
      m.state = .CMD ∧ m.tmpline = [] ∧ m.stdin = ascii "QUIT\r\n" := by
  have hsentence : Sentence (tab "SITE" .SITE .SITECMD true "site-cmd [ <sp> arguments ]")
      [.SP, .command .CHMOD, .SP, .NUMBER 644, .SP, .STRING (ascii "f")]
      ([83, Telnet.IAC, Telnet.NOP] ++ ascii "ITE CHMOD 644 f\r") :=
    ⟨⟨rfl, rfl⟩, .siteSpace (.site rfl (fun t ht => (Option.some.inj ht).symm) (.nstrSpace
      (@Written.nstr 644 _ (by decide) (.str1 (.str2 ⟨by decide, by decide +kernel⟩))))),
      fun t ht => (Option.some.inj ht).symm, by decide, by decide +kernel, by decide +kernel⟩
  exact sentence_read (fun _ => none) rfl rfl hsentence rfl (by decide +kernel)

end Netkit.Ftpd

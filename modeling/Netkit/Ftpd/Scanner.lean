import Netkit.Ftpd.Grammar

/-!
# The scanner within a line

Within a line the scanner stays in front of the NUL that ends it, so that what older lines have
left behind that NUL plays no part.
-/

namespace Netkit.Ftpd

open Netkit.Foundations

variable {l m : Lexer}

/-! ## Clean buffers -/

def Lexer.clean (l : Lexer) : Lexer := { l with cbuf := cstring l.cbuf }

/-- The scanner is within a line. -/
structure Lexer.Within (l : Lexer) : Prop where
  state : l.state ≠ .CMD
  cpos : l.cpos ≤ (cstring l.cbuf).length

/-- Nothing has been read from the connection, or written to it. -/
structure SameStreams (l m : Lexer) : Prop where
  stdin : m.stdin = l.stdin
  answers : m.answers = l.answers
  tmpline : m.tmpline = l.tmpline

/-- What the scanner comes to, and what it comes to with a clean buffer. -/
inductive Scanned (l : Lexer) : Lexed → Lexed → Prop where
  | token {t : Token} {m : Lexer} (streams : SameStreams l m) (within : t ≠ .CRLF → m.Within)
      (atEnd : t = .CRLF → m.state = .CMD) : Scanned l (.ok (t, m)) (.ok (t, m.clean))
  | stop {why : Stop} {m : Lexer} (streams : SameStreams l m) (state : m.state = .CMD)
      (more : why ≠ .eof) : Scanned l (.error (why, m)) (.error (why, m.clean))

theorem clean_at (hl : l.Within) : l.clean.at l.cpos = l.at l.cpos := getD_cstring hl.cpos

theorem string_eq {i : Nat} (hi : i ≤ (cstring l.cbuf).length) :
    l.string i = (cstring l.cbuf).drop i := cstring_drop hi

theorem clean_string {i : Nat} (hi : i ≤ (cstring l.cbuf).length) :
    l.clean.string i = l.string i := by
  have hclean : i ≤ (cstring l.clean.cbuf).length := by
    rw [show cstring l.clean.cbuf = cstring l.cbuf from
      cstring_eq_self (zero_not_mem_cstring l.cbuf)]
    exact hi
  rw [string_eq hclean, string_eq hi]
  exact congrArg (List.drop i) (cstring_eq_self (zero_not_mem_cstring l.cbuf))

theorem lt_of_at {i : Nat} (hi : i ≤ (cstring l.cbuf).length) (hne : l.at i ≠ 0) :
    i < (cstring l.cbuf).length := by
  refine Nat.lt_of_le_of_ne hi (fun heq => hne ?_)
  have hat : l.at i = (cstring l.cbuf).getD i 0 := (getD_cstring hi).symm
  rw [hat, heq, List.getD_eq_getElem?_getD, List.getElem?_eq_none (Nat.le_refl _)]
  rfl

/-! ## Tokens within a line -/

theorem fail_scanned (streams : SameStreams l m) : Scanned l m.fail m.clean.fail :=
  .stop ⟨streams.stdin, streams.answers, streams.tmpline⟩ rfl (fun h => nomatch h)

theorem token_scanned {t : Token} (streams : SameStreams l m) (ht : t ≠ .CRLF)
    (hm : m.Within) : Scanned l (m.token t) (m.clean.token t) :=
  .token streams (fun _ => hm) (fun h => absurd h ht)

theorem lexSpace_scanned {next : LexState} (hl : l.Within) (hnext : next ≠ .CMD) :
    Scanned l (l.lexSpace next) (l.clean.lexSpace next) := by
  have hat := clean_at hl
  unfold Lexer.lexSpace
  change Scanned l _ (if l.clean.at l.cpos = 32 then _ else _)
  rw [hat]
  split
  · next hspace =>
    have hlt : l.cpos < (cstring l.cbuf).length :=
      lt_of_at hl.cpos (by rw [hspace]; exact (by decide))
    exact token_scanned ⟨rfl, rfl, rfl⟩ (fun h => nomatch h) ⟨hnext, hlt⟩
  · exact fail_scanned ⟨rfl, rfl, rfl⟩

theorem lexString_scanned (hl : l.Within) : Scanned l l.lexString l.clean.lexString := by
  have hstring := clean_string hl.cpos
  have hlength : (l.string l.cpos).length = (cstring l.cbuf).length - l.cpos := by
    rw [string_eq hl.cpos, List.length_drop]
  have hcpos := hl.cpos
  have hlast : l.cpos + (l.string l.cpos).length - 1 ≤ (cstring l.cbuf).length := by omega
  have hat : l.clean.at (l.cpos + (l.string l.cpos).length - 1) =
      l.at (l.cpos + (l.string l.cpos).length - 1) := getD_cstring hlast
  unfold Lexer.lexString
  dsimp only
  rw [show l.clean.cpos = l.cpos from rfl, hstring, hat]
  split
  · exact token_scanned ⟨rfl, rfl, rfl⟩ (fun h => nomatch h) ⟨(fun h => nomatch h), hlast⟩
  · exact fail_scanned ⟨rfl, rfl, rfl⟩

theorem takeWhile_cstring {p : UInt8 → Bool} (hp : p 0 = false) (b : Bytes) :
    (cstring b).takeWhile p = b.takeWhile p := by
  induction b with
  | nil => rfl
  | cons c b ih =>
    by_cases hc : c = 0
    · rw [hc, cstring_zero, List.takeWhile_cons_of_neg (by rw [hp]; exact Bool.false_ne_true)]
      rfl
    · rw [cstring_cons hc, List.takeWhile_cons, List.takeWhile_cons, ih]

theorem digits_eq (hl : l.Within) :
    l.digits = ((cstring l.cbuf).drop l.cpos).takeWhile isdigit := by
  unfold Lexer.digits
  rw [← cstring_drop hl.cpos, takeWhile_cstring rfl]

theorem clean_digits (hl : l.Within) : l.clean.digits = l.digits := (digits_eq hl).symm

theorem lexNumber_scanned {next : LexState} (hl : l.Within) (hnext : next ≠ .CMD) :
    Scanned l (l.lexNumber next) (l.clean.lexNumber next) := by
  have hlength : l.digits.length ≤ (cstring l.cbuf).length - l.cpos := by
    rw [digits_eq hl, ← List.length_drop]
    exact (List.takeWhile_prefix _).length_le
  have hcpos := hl.cpos
  unfold Lexer.lexNumber
  rw [clean_digits hl]
  exact token_scanned ⟨rfl, rfl, rfl⟩ (fun h => nomatch h) ⟨hnext, by dsimp only; omega⟩

theorem charToken_ne {c : UInt8} {t : Token} (h : charToken c = some t) :
    t ≠ .CRLF ∧ c ≠ 0 := by
  constructor
  · rintro rfl
    unfold charToken at h
    split at h
    · exact nomatch h
    · split at h
      · exact nomatch h
      · split at h <;> exact nomatch h
  · rintro rfl
    exact nomatch h

theorem lexArgs_scanned (hl : l.Within) : Scanned l l.lexArgs l.clean.lexArgs := by
  have hat := clean_at hl
  unfold Lexer.lexArgs
  rw [show l.clean.cpos = l.cpos from rfl, hat]
  split
  · exact lexNumber_scanned hl (fun h => nomatch h)
  · split
    · exact .token ⟨rfl, rfl, rfl⟩ (fun h => absurd rfl h) (fun _ => rfl)
    · split
      · next t ht =>
        obtain ⟨hne, hat0⟩ := charToken_ne ht
        exact token_scanned ⟨rfl, rfl, rfl⟩ hne ⟨hl.state, lt_of_at hl.cpos hat0⟩
      · exact fail_scanned ⟨rfl, rfl, rfl⟩

theorem lexNstr_scanned (hl : l.Within) : Scanned l l.lexNstr l.clean.lexNstr := by
  have hat := clean_at hl
  unfold Lexer.lexNstr
  rw [show l.clean.cpos = l.cpos from rfl, hat]
  split
  · next hspace =>
    have hlt : l.cpos < (cstring l.cbuf).length :=
      lt_of_at hl.cpos (by rw [hspace]; exact (by decide))
    exact token_scanned ⟨rfl, rfl, rfl⟩ (fun h => nomatch h) ⟨hl.state, hlt⟩
  · split
    · exact lexNumber_scanned hl (fun h => nomatch h)
    · exact lexSpace_scanned hl (fun h => nomatch h)

/-! ## Words -/

theorem toupper_ne_zero {c : UInt8} (hc : c ≠ 0) : toupper c ≠ 0 := by
  unfold toupper
  split
  · next hlower =>
    intro h
    have hnat := congrArg UInt8.toNat h
    rw [islower, Bool.and_eq_true, decide_eq_true_iff, decide_eq_true_iff] at hlower
    rw [UInt8.toNat_sub_of_le _ _ (UInt8.le_iff_toNat_le.mpr (by
      change 32 ≤ c.toNat
      omega))] at hnat
    change c.toNat - 32 = 0 at hnat
    omega
  · exact hc

theorem raw_eq {i j : Nat} (hi : i ≤ (cstring l.cbuf).length) (hij : i ≤ j) :
    cstring ((l.cbuf.take j).drop i) = ((cstring l.cbuf).take j).drop i := by
  have hlength : i ≤ (cstring (l.cbuf.take j)).length := by
    rw [cstring_take, List.length_take]
    exact Nat.le_min.mpr ⟨hij, hi⟩
  rw [cstring_drop hlength, cstring_take]

theorem clean_raw {i j : Nat} (hi : i ≤ (cstring l.cbuf).length) (hij : i ≤ j) :
    cstring ((l.clean.cbuf.take j).drop i) = cstring ((l.cbuf.take j).drop i) := by
  have hself : cstring l.clean.cbuf = cstring l.cbuf :=
    cstring_eq_self (zero_not_mem_cstring l.cbuf)
  rw [raw_eq (l := l.clean) (by rw [hself]; exact hi) hij, raw_eq hi hij, hself]

theorem clean_word {i j : Nat} (hi : i ≤ (cstring l.cbuf).length) (hij : i ≤ j) :
    l.clean.word i j = l.word i j := congrArg (List.map toupper) (clean_raw hi hij)

theorem cstring_upper {i j : Nat} (hi : i ≤ (cstring l.cbuf).length) (hij : i ≤ j) :
    cstring (l.upper i j).cbuf = (l.clean.upper i j).cbuf ∧
      (cstring (l.upper i j).cbuf).length = (cstring l.cbuf).length := by
  have hraw := raw_eq hi hij
  have hzero : (0 : UInt8) ∉ (((cstring l.cbuf).take j).drop i).map toupper := by
    intro hmem
    obtain ⟨c, hc, hupper⟩ := List.mem_map.mp hmem
    have hmem' : c ∈ cstring l.cbuf := List.mem_of_mem_take (List.mem_of_mem_drop hc)
    exact toupper_ne_zero (fun h => zero_not_mem_cstring l.cbuf (h ▸ hmem')) hupper
  have hlength : (((cstring l.cbuf).take j).drop i).length =
      min j (cstring l.cbuf).length - i := by
    rw [List.length_drop, List.length_take]
  have hend : i + (((cstring l.cbuf).take j).drop i).length ≤ (cstring l.cbuf).length := by
    omega
  have htake : (0 : UInt8) ∉ l.cbuf.take i := by
    rw [← take_cstring hi]
    exact fun hmem => zero_not_mem_cstring l.cbuf (List.mem_of_mem_take hmem)
  have hcbuf : cstring (l.upper i j).cbuf = (cstring l.cbuf).take i ++
      ((((cstring l.cbuf).take j).drop i).map toupper ++
        (cstring l.cbuf).drop (i + (((cstring l.cbuf).take j).drop i).length)) := by
    unfold Lexer.upper
    dsimp only
    rw [hraw, cstring_append htake, cstring_append hzero, cstring_drop hend, take_cstring hi]
  constructor
  · rw [hcbuf]
    unfold Lexer.upper
    dsimp only
    rw [clean_raw hi hij, hraw]
    rfl
  · rw [hcbuf]
    simp only [List.length_append, List.length_map, List.length_take, List.length_drop]
    omega

theorem clean_upper {i j : Nat} (hi : i ≤ (cstring l.cbuf).length) (hij : i ≤ j) :
    (l.upper i j).clean = l.clean.upper i j := by
  have h := (cstring_upper hi hij).1
  unfold Lexer.clean Lexer.upper at h ⊢
  dsimp only at h ⊢
  rw [h]

theorem states_of_table {table : List Tab} (htable : table.all (fun p => p.state ≠ .CMD) = true)
    {p : Tab} {word : Bytes} (hp : lookup table word = some p) : p.state ≠ .CMD :=
  of_decide_eq_true (List.all_eq_true.mp htable p (List.mem_of_find?_eq_some hp))

theorem found_scanned {p : Option Tab} (streams : SameStreams l m)
    (hp : ∀ q, p = some q → q.state ≠ .CMD) (hm : m.cpos ≤ (cstring m.cbuf).length) :
    Scanned l (m.found p) (m.clean.found p) := by
  cases p with
  | none => exact fail_scanned streams
  | some p =>
    unfold Lexer.found
    dsimp only
    split
    · exact .token ⟨streams.stdin, streams.answers, streams.tmpline⟩
        (fun _ => ⟨hp p rfl, hm⟩) (fun h => nomatch h)
    · exact .stop ⟨streams.stdin, streams.answers, streams.tmpline⟩ rfl (fun h => nomatch h)

theorem strpbrk_getD {i : Nat} (hi : i ≤ (cstring l.cbuf).length) :
    i ≤ (l.strpbrk i).getD i ∧ (l.strpbrk i).getD i ≤ (cstring l.cbuf).length := by
  unfold Lexer.strpbrk
  cases h : (l.string i).findIdx? (fun c => c == 32 || c == 10) with
  | none => exact ⟨Nat.le_refl i, hi⟩
  | some k =>
    have hk : k < (l.string i).length := (List.findIdx?_eq_some_iff_getElem.mp h).1
    rw [string_eq hi, List.length_drop] at hk
    change i ≤ i + k ∧ i + k ≤ _
    omega

theorem lexSite_scanned (hl : l.Within) : Scanned l l.lexSite l.clean.lexSite := by
  have hat := clean_at hl
  obtain ⟨hle, hlen⟩ := strpbrk_getD hl.cpos
  have hstrpbrk : l.clean.strpbrk l.cpos = l.strpbrk l.cpos := by
    unfold Lexer.strpbrk
    rw [clean_string hl.cpos]
  unfold Lexer.lexSite
  rw [show l.clean.cpos = l.cpos from rfl, hat]
  split
  · next hspace =>
    have hlt : l.cpos < (cstring l.cbuf).length :=
      lt_of_at hl.cpos (by rw [hspace]; exact (by decide))
    exact token_scanned ⟨rfl, rfl, rfl⟩ (fun h => nomatch h) ⟨hl.state, hlt⟩
  · dsimp only
    rw [hstrpbrk, clean_word hl.cpos hle, ← clean_upper hl.cpos hle]
    refine found_scanned ⟨rfl, rfl, rfl⟩ (fun q hq => states_of_table (by decide +kernel) hq) ?_
    rw [(cstring_upper hl.cpos hle).2]
    exact hlen

/-- Within a line the scanner comes to the same with a clean buffer, and stays within the line
until it has seen its end. -/
theorem yylex_scanned (hl : l.Within) : Scanned l (yylex l) (yylex l.clean) := by
  have hat := clean_at hl
  unfold yylex
  rw [show l.clean.state = l.state from rfl, show l.clean.cpos = l.cpos from rfl, hat]
  cases hstate : l.state with
  | CMD => exact absurd hstate hl.state
  | SITECMD => exact lexSite_scanned hl
  | OSTR =>
    dsimp only
    split
    · exact .token ⟨rfl, rfl, rfl⟩ (fun h => absurd rfl h) (fun _ => rfl)
    · exact lexSpace_scanned hl (fun h => nomatch h)
  | STR1 => exact lexSpace_scanned hl (fun h => nomatch h)
  | ZSTR1 => exact lexSpace_scanned hl (fun h => nomatch h)
  | ZSTR2 =>
    dsimp only
    split
    · exact .token ⟨rfl, rfl, rfl⟩ (fun h => absurd rfl h) (fun _ => rfl)
    · exact lexString_scanned hl
  | STR2 => exact lexString_scanned hl
  | NSTR => exact lexNstr_scanned hl
  | ARGS => exact lexArgs_scanned hl

/-! ## The end of a line -/

/-- A line without its telnet commands, unless one of them reaches across its end. -/
def plain : Bytes → Option Bytes
  | [] => some []
  | c :: content =>
    if c = Telnet.IAC then
      match content with
      | [] => none
      | verb :: content =>
        if (refusal verb).isSome then
          match content with
          | [] => none
          | _ :: content => plain content
        else if verb = Telnet.IAC then (plain content).map (fun chars => verb :: chars)
        else plain content
    else (plain content).map (fun chars => c :: chars)

theorem readline_newline (stdin : Bytes) (n : Nat) :
    readline (10 :: stdin) n = ⟨[10], stdin, [], false⟩ := by
  rw [readline.eq_def]
  dsimp only
  rw [if_neg (by decide), if_pos (Or.inr rfl)]

theorem readline_char {c : UInt8} (hiac : c ≠ Telnet.IAC) (hlf : c ≠ 10) (stdin : Bytes) {n : Nat}
    (hn : 1 < n) : readline (c :: stdin) n = (readline stdin (n - 1)).push c := by
  rw [readline.eq_def]
  dsimp only
  rw [if_neg hiac, if_neg (not_or.mpr ⟨Nat.not_le_of_lt hn, hlf⟩)]

theorem readline_iac (stdin : Bytes) {n : Nat} (hn : 1 < n) :
    readline (Telnet.IAC :: Telnet.IAC :: stdin) n =
      (readline stdin (n - 1)).push Telnet.IAC := by
  rw [readline.eq_def]
  dsimp only
  rw [if_pos rfl, show refusal Telnet.IAC = none from rfl]
  dsimp only
  rw [if_pos rfl, if_neg (Nat.not_le_of_lt hn)]

theorem readline_command {verb : UInt8} (hrefusal : refusal verb = none) (hiac : verb ≠ Telnet.IAC)
    (stdin : Bytes) (n : Nat) :
    readline (Telnet.IAC :: verb :: stdin) n = readline stdin n := by
  rw [readline.eq_def]
  dsimp only
  rw [if_pos rfl, hrefusal]
  dsimp only
  rw [if_neg hiac]

theorem readline_option {verb no : UInt8} (hrefusal : refusal verb = some no) (option : UInt8)
    (stdin : Bytes) (n : Nat) :
    readline (Telnet.IAC :: verb :: option :: stdin) n =
      (readline stdin n).answer no option := by
  rw [readline.eq_def]
  dsimp only
  rw [if_pos rfl, hrefusal]

theorem readline_line {content chars : Bytes} (hcontent : 10 ∉ content)
    (hplain : plain content = some chars) {n : Nat} (hn : chars.length < n) (rest : Bytes) :
    ∃ answers, readline (content ++ 10 :: rest) n = ⟨chars ++ [10], rest, answers, false⟩ := by
  fun_induction plain content generalizing n chars with
  | case1 =>
    obtain rfl := Option.some.inj hplain
    exact ⟨[], readline_newline rest n⟩
  | case2 => exact nomatch hplain
  | case3 => exact nomatch hplain
  | case4 verb hrefusal option content ih =>
    obtain ⟨no, hno⟩ := Option.isSome_iff_exists.mp hrefusal
    have hrest : 10 ∉ content := fun h => hcontent (List.mem_of_mem_drop (i := 3) h)
    obtain ⟨answers, hread⟩ := ih hrest hplain hn
    refine ⟨[Telnet.IAC, no, option] ++ answers, ?_⟩
    rw [List.cons_append, List.cons_append, List.cons_append, readline_option hno, hread]
    rfl
  | case5 content hrefusal ih =>
    obtain ⟨tail, htail, rfl⟩ := Option.map_eq_some_iff.mp hplain
    have hrest : 10 ∉ content := fun h => hcontent (List.mem_of_mem_drop (i := 2) h)
    rw [List.length_cons] at hn
    obtain ⟨answers, hread⟩ := ih hrest htail (n := n - 1) (by omega)
    refine ⟨answers, ?_⟩
    rw [List.cons_append, List.cons_append, readline_iac _ (by omega), hread]
    rfl
  | case6 verb content hrefusal hiac ih =>
    have hrest : 10 ∉ content := fun h => hcontent (List.mem_of_mem_drop (i := 2) h)
    obtain ⟨answers, hread⟩ := ih hrest hplain hn
    refine ⟨answers, ?_⟩
    rw [List.cons_append, List.cons_append,
      readline_command (Option.not_isSome_iff_eq_none.mp hrefusal) hiac, hread]
  | case7 c content hiac ih =>
    obtain ⟨tail, htail, rfl⟩ := Option.map_eq_some_iff.mp hplain
    rw [List.mem_cons, not_or] at hcontent
    rw [List.length_cons] at hn
    obtain ⟨answers, hread⟩ := ih hcontent.2 htail (n := n - 1) (by omega)
    refine ⟨answers, ?_⟩
    rw [List.cons_append, readline_char hiac (Ne.symm hcontent.1) _ (by omega), hread]
    rfl

/-! ## The first token -/

def endsWord (c : UInt8) : Bool := c == 0 || c == 32 || c == 13

/-- A line that fits into the buffer, and whose first word is not cut short by a NUL. -/
def fits (content : Bytes) : Bool :=
  (plain content).any (fun chars => decide (chars.length < 511) &&
    decide (chars.find? endsWord ≠ some 0))

def cutLine (line : Bytes) : Bytes :=
  match line.findIdx? (fun c => c == 13) with
  | none => line
  | some i => line.take i ++ [10]

theorem fill_string (l : Lexer) (chars : Bytes) :
    cstring (l.fill chars).cbuf = cstring chars := cstring_append_zero chars _

theorem set_set_string {a b : Bytes} {c d : UInt8} (ha : (0 : UInt8) ∉ a) :
    cstring (((a ++ c :: d :: b).set a.length 10).set (a.length + 1) 0) = a ++ [10] := by
  have hset : ((a ++ c :: d :: b).set a.length 10).set (a.length + 1) 0 = a ++ 10 :: 0 :: b := by
    rw [List.set_append_right _ _ (Nat.le_refl _), Nat.sub_self, List.set_cons_zero,
      List.set_append_right _ _ (Nat.le_succ _), Nat.succ_sub (Nat.le_refl _), Nat.sub_self]
    rfl
  rw [hset, cstring_append ha]
  rfl

theorem cutCR_string (l : Lexer) (hend : (cstring l.cbuf).length < l.cbuf.length) :
    cstring l.cutCR.cbuf = cutLine (cstring l.cbuf) := by
  have hstring : l.string 0 = cstring l.cbuf := rfl
  unfold Lexer.cutCR cutLine
  rw [hstring]
  cases h : (cstring l.cbuf).findIdx? (fun c => c == 13) with
  | none => rfl
  | some i =>
    have hi : i < (cstring l.cbuf).length := (List.findIdx?_eq_some_iff_getElem.mp h).1
    have htake := take_cstring (Nat.le_of_lt hi)
    have hzero : (0 : UInt8) ∉ l.cbuf.take i := by
      rw [← htake]
      exact fun hmem => zero_not_mem_cstring l.cbuf (List.mem_of_mem_take hmem)
    have hlength : (l.cbuf.take i).length = i := by
      rw [List.length_take]
      omega
    have hcbuf : l.cbuf = l.cbuf.take i ++ l.cbuf[i] :: l.cbuf[i + 1] :: l.cbuf.drop (i + 2) := by
      rw [← List.drop_eq_getElem_cons, ← List.drop_eq_getElem_cons, List.take_append_drop]
    have hset := set_set_string (b := l.cbuf.drop (i + 2)) (c := l.cbuf[i])
      (d := l.cbuf[i + 1]) hzero
    rw [hlength, ← hcbuf] at hset
    dsimp only
    rw [hset, htake]

theorem cutCR_keeps (l : Lexer) : l.cutCR = { l with cbuf := l.cutCR.cbuf } := by
  unfold Lexer.cutCR
  split
  · rfl
  · rfl

theorem opens_string {chars : Bytes} (hopens : chars.find? endsWord ≠ some 0) :
    ∃ c ∈ cstring (chars ++ [10]), c = 32 ∨ c = 13 ∨ c = 10 := by
  induction chars with
  | nil => exact ⟨10, List.mem_singleton_self 10, Or.inr (Or.inr rfl)⟩
  | cons c chars ih =>
    by_cases hfound : endsWord c = true
    · rw [List.find?_cons_of_pos hfound] at hopens
      have hc : c ≠ 0 := fun h => hopens (congrArg some h)
      rw [List.cons_append, cstring_cons hc]
      rw [endsWord, Bool.or_eq_true, Bool.or_eq_true, beq_iff_eq, beq_iff_eq, beq_iff_eq,
        or_assoc] at hfound
      exact ⟨c, List.mem_cons_self, (hfound.resolve_left hc).imp_right Or.inl⟩
    · rw [List.find?_cons_of_neg hfound] at hopens
      have hc : c ≠ 0 := by
        rintro rfl
        exact hfound rfl
      obtain ⟨d, hd, hends⟩ := ih hopens
      rw [List.cons_append, cstring_cons hc]
      exact ⟨d, List.mem_cons_of_mem c hd, hends⟩

theorem cutLine_ends {line : Bytes} (h : ∃ c ∈ line, c = 32 ∨ c = 13 ∨ c = 10) :
    ∃ j, (cutLine line).findIdx? (fun c => c == 32 || c == 10) = some j ∧
      j < (cutLine line).length := by
  have hmem : ∃ c ∈ cutLine line, (c == 32 || c == 10) = true := by
    unfold cutLine
    split
    · next hnone =>
      obtain ⟨c, hc, hends⟩ := h
      have hcr : (c == 13) = false := List.findIdx?_eq_none_iff.mp hnone c hc
      refine ⟨c, hc, ?_⟩
      rcases hends with rfl | rfl | rfl
      · rfl
      · exact absurd hcr (by decide)
      · rfl
    · exact ⟨10, List.mem_append_right _ (List.mem_singleton_self 10), rfl⟩
  obtain ⟨c, hc, hends⟩ := hmem
  cases hfind : (cutLine line).findIdx? (fun c => c == 32 || c == 10) with
  | none =>
    have hnot := List.findIdx?_eq_none_iff.mp hfind c hc
    exact absurd (hends.symm.trans hnot) Bool.true_eq_false.mp
  | some j => exact ⟨j, rfl, (List.findIdx?_eq_some_iff_getElem.mp hfind).1⟩

def isServed (c : CommandName) : Bool := cmdtab.any (fun p => p.token == c && p.implemented)

/-- What the scanner comes to at the beginning of a line, with two buffers. -/
inductive Opened (rest : Bytes) : Lexed → Lexed → Prop where
  | token {c : CommandName} {m n : Lexer} (served : isServed c = true) (within : m.Within)
      (stdin : m.stdin = rest) (tmpline : m.tmpline = []) (clean : m.clean = n.clean) :
      Opened rest (.ok (.command c, m)) (.ok (.command c, n))
  | stop {why : Stop} {m n : Lexer} (state : m.state = .CMD) (stdin : m.stdin = rest)
      (tmpline : m.tmpline = []) (more : why ≠ .eof) (clean : m.clean = n.clean) :
      Opened rest (.error (why, m)) (.error (why, n))

theorem clean_state {n : Lexer} (h : m.clean = n.clean) (state : LexState) :
    Lexer.clean { m with state := state } = Lexer.clean { n with state := state } :=
  congrArg (fun l => { l with state := state }) h

theorem found_opened {n : Lexer} {rest word : Bytes} (hclean : m.clean = n.clean)
    (hstdin : m.stdin = rest) (htmpline : m.tmpline = [])
    (hcpos : ∀ p, lookup cmdtab word = some p → m.cpos ≤ (cstring m.cbuf).length) :
    Opened rest (m.found (lookup cmdtab word)) (n.found (lookup cmdtab word)) := by
  cases hp : lookup cmdtab word with
  | none => exact .stop rfl hstdin htmpline (fun h => nomatch h) (clean_state hclean .CMD)
  | some p =>
    have hstate : p.state ≠ .CMD := states_of_table (by decide +kernel) hp
    unfold Lexer.found
    dsimp only
    split
    · next himplemented =>
      have hserved : isServed p.token = true :=
        List.any_eq_true.mpr ⟨p, List.mem_of_find?_eq_some hp, by
          rw [beq_self_eq_true, himplemented]
          rfl⟩
      exact .token hserved ⟨hstate, hcpos p hp⟩ hstdin htmpline (clean_state hclean p.state)
    · exact .stop rfl hstdin htmpline (fun h => nomatch h) (clean_state hclean .CMD)

theorem lookup_blank {c : UInt8} (hc : c = 32 ∨ c = 10) (word : Bytes) :
    lookup cmdtab (toupper c :: word) = none := by
  have htable : cmdtab.all (fun p => p.name.head? ≠ some 32 ∧ p.name.head? ≠ some 10) = true := by
    decide +kernel
  rw [lookup, List.find?_eq_none]
  intro p hp hname
  have hheads := of_decide_eq_true (List.all_eq_true.mp htable p hp)
  have hhead := congrArg List.head? (eq_of_beq hname)
  rcases hc with rfl | rfl
  · exact hheads.1 hhead
  · exact hheads.2 hhead

theorem word_opened {n : Lexer} {line rest : Bytes} {j : Nat}
    (hj : line.findIdx? (fun c => c == 32 || c == 10) = some j)
    (hm : cstring m.cbuf = line) (hstdin : m.stdin = rest) (htmpline : m.tmpline = [])
    (hmn : Lexer.clean { m with cpos := 0 } = Lexer.clean { n with cpos := 0 }) (i : Nat)
    (hi : i = if j = 0 then 4 else j) :
    Opened rest (Lexer.found { m.upper 0 i with cpos := i } (lookup cmdtab (m.word 0 i)))
      (Lexer.found { n.upper 0 i with cpos := i } (lookup cmdtab (n.word 0 i))) := by
  have hn : cstring n.cbuf = line := (congrArg Lexer.cbuf hmn).symm.trans hm
  have hword {l : Lexer} (hl : cstring l.cbuf = line) :
      l.word 0 i = (line.take i).map toupper := by
    unfold Lexer.word
    rw [raw_eq (Nat.zero_le _) (Nat.zero_le i), hl, List.drop_zero]
  have hupper (l : Lexer) : Lexer.clean { l.upper 0 i with cpos := i } =
      { (Lexer.clean { l with cpos := 0 }).upper 0 i with cpos := i } :=
    congrArg (fun k => { k with cpos := i })
      (clean_upper (l := { l with cpos := 0 }) (Nat.zero_le _) (Nat.zero_le i))
  rw [hword hm, hword hn]
  refine found_opened ?_ hstdin htmpline (fun p hp => ?_)
  · rw [hupper, hupper, hmn]
  · change i ≤ (cstring (m.upper 0 i).cbuf).length
    rw [(cstring_upper (Nat.zero_le _) (Nat.zero_le i)).2, hm, hi]
    obtain ⟨hlt, hends, -⟩ := List.findIdx?_eq_some_iff_getElem.mp hj
    split
    · next hzero =>
      subst hzero
      obtain ⟨c, tail, rfl⟩ := List.exists_cons_of_ne_nil (List.ne_nil_of_length_pos hlt)
      rw [hi, if_pos rfl] at hp
      rw [Bool.or_eq_true, beq_iff_eq, beq_iff_eq] at hends
      exact absurd ((lookup_blank hends _).symm.trans hp) (Option.some_ne_none p).symm
    · exact Nat.le_of_lt hlt

theorem lexCommand_opened {content rest : Bytes} (hstdin : l.stdin = content ++ 10 :: rest)
    (hcontent : 10 ∉ content) (hfits : fits content = true) (htmpline : l.tmpline = [])
    (buf : Bytes) (pos : Nat) :
    Opened rest l.lexCommand (Lexer.lexCommand { l with cbuf := buf, cpos := pos }) := by
  obtain ⟨chars, hplain, hok⟩ := (Option.any_eq_true _ _).mp hfits
  rw [Bool.and_eq_true, decide_eq_true_iff, decide_eq_true_iff] at hok
  obtain ⟨answers, hread⟩ := readline_line hcontent hplain hok.1 rest
  have hget : getline 511 l.tmpline l.stdin = ⟨chars ++ [10], rest, answers, false⟩ := by
    rw [htmpline, hstdin, getline, if_neg List.not_mem_nil, List.length_nil, Nat.sub_zero, hread]
    rfl
  -- The string that the scanner works on is that of the line, in either buffer.
  have hline (k : Lexer) : cstring ((k.fill (chars ++ [10])).cutCR).cbuf =
      cutLine (cstring (chars ++ [10])) := by
    rw [cutCR_string, fill_string]
    rw [fill_string]
    unfold Lexer.fill
    dsimp only
    have hle := (List.takeWhile_prefix (l := chars ++ [10]) (fun c => c ≠ 0)).length_le
    rw [@List.length_append _ (chars ++ [10]), List.length_cons]
    unfold cstring
    omega
  have hclean (k : Lexer) :
      Lexer.clean { (k.fill (chars ++ [10])).cutCR with cpos := 0 } =
        ⟨cutLine (cstring (chars ++ [10])), 0, k.state, k.tmpline, k.stdin, k.answers⟩ := by
    rw [← hline k, cutCR_keeps]
    rfl
  obtain ⟨j, hj, -⟩ := cutLine_ends (opens_string hok.2)
  have hstrpbrk (k : Lexer) : ((k.fill (chars ++ [10])).cutCR).strpbrk 0 = some (0 + j) := by
    unfold Lexer.strpbrk
    rw [show ((k.fill (chars ++ [10])).cutCR).string 0 =
      cstring ((k.fill (chars ++ [10])).cutCR).cbuf from rfl, hline, hj]
    rfl
  unfold Lexer.lexCommand
  dsimp only
  rw [hget]
  dsimp only
  rw [if_neg Bool.false_ne_true, if_neg Bool.false_ne_true, hstrpbrk, hstrpbrk]
  dsimp only [Option.getD_some]
  rw [Nat.zero_add]
  refine word_opened hj (hline _) ?_ ?_ ?_ _ rfl
  · rw [cutCR_keeps]
    rfl
  · rw [cutCR_keeps]
    rfl
  · have hold := hclean { l with
      cbuf := buf, cpos := pos, tmpline := [], stdin := rest, answers := l.answers ++ answers }
    exact (hclean _).trans hold.symm

end Netkit.Ftpd

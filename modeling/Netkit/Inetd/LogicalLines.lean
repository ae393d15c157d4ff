import Mathlib.Data.List.TakeWhile
import Netkit.Foundations.Pieces
import Netkit.Inetd.Servtab

/-!
# Logical lines of the configuration file

`loadconfigfile` takes one word after another from `nexttoken`, which reads the file in chunks and
keeps its place in the hidden state of `strtok`. What comes out is to be one entry for each logical
line.

* `delivers_iff`: when there is one entry for each logical line; `not_delivers_many`: a store past
  the end of `fields`.
-/

namespace Netkit.Inetd

open Netkit.Foundations

/-! ## Reading words -/

/-- What `strtok` splits at. -/
def isDelim (c : Char) : Bool := c = ' ' || c = '\t' || c = '\n'

def cstring (s : Text) : Text := s.takeWhile (fun c => c.toNat ≠ 0)

/-- The rest of the buffer that `strtok` has its place in, and the chunks that `fgets` is going to
read. -/
structure Tokenizer where
  saved : Text
  lines : List Text

/-- The loop with `fgets` in `nexttoken`. -/
def skipComments : List Text → Option (Text × List Text)
  | [] => none
  | line :: lines => if line.head? = some '#' then skipComments lines else some (line, lines)

/-- `strchr(" \t", linebuf[2])`, which also finds the NUL at the end of the two. -/
def blankFirst (line : Text) : Bool :=
  match line with
  | [] => true
  | c :: _ => c = ' ' || c = '\t' || c.toNat = 0

/-- `nexttoken`: `none` at the end of the file, and an empty text at the end of an entry. -/
def nexttoken (st : Tokenizer) : Option Text × Tokenizer :=
  match nextPiece isDelim st.saved with
  | some (s, rest) => (some s, { st with saved := rest })
  | none =>
    match skipComments st.lines with
    | none => (none, ⟨[], []⟩)
    | some (line, lines) =>
      if blankFirst line then
        match nextPiece isDelim (cstring line) with
        | none => (some [], ⟨[], lines⟩)
        | some (s, rest) => (some s, ⟨rest, lines⟩)
      else
        -- The `Q ` in front of the line is taken, so that the next call begins with the line.
        match nextPiece isDelim ('Q' :: ' ' :: cstring line) with
        | none => (some [], ⟨[], lines⟩)
        | some (_, rest) => (some [], ⟨rest, lines⟩)

theorem skipComments_length {lines rest : List Text} {line : Text}
    (h : skipComments lines = some (line, rest)) : rest.length < lines.length := by
  induction lines with
  | nil => cases h
  | cons l lines ih =>
    rw [skipComments] at h
    split at h
    · exact Nat.lt_succ_of_lt (ih h)
    · obtain ⟨-, rfl⟩ := Prod.mk.inj (Option.some.inj h)
      exact Nat.lt_succ_self _

theorem nexttoken_less {st st' : Tokenizer} {s : Text} (h : nexttoken st = (some s, st')) :
    st'.lines.length < st.lines.length ∨
      st'.lines.length = st.lines.length ∧ st'.saved.length < st.saved.length := by
  unfold nexttoken at h
  split at h
  · next hpiece =>
    obtain ⟨-, rfl⟩ := Prod.mk.inj h
    exact Or.inr ⟨rfl, nextPiece_length hpiece⟩
  · split at h
    · cases (Prod.mk.inj h).1
    · next hskip =>
      have hless := skipComments_length hskip
      split at h
      · split at h
        · obtain ⟨-, rfl⟩ := Prod.mk.inj h
          exact Or.inl hless
        · obtain ⟨-, rfl⟩ := Prod.mk.inj h
          exact Or.inl hless
      · split at h
        · obtain ⟨-, rfl⟩ := Prod.mk.inj h
          exact Or.inl hless
        · obtain ⟨-, rfl⟩ := Prod.mk.inj h
          exact Or.inl hless

/-- The loop of `loadconfigfile`: the words that `assemble_entry` gets, call by call. The array has
room for `MAXARGV + 6 - 1` of them; what is compared is `MAXARGV + 6`. -/
def loadLoop (st : Tokenizer) (fields : List Text) : Except Stop (List (List Text)) :=
  match _h : nexttoken st with
  | (none, _) => .ok (if fields = [] then [] else [fields])
  | (some [], st') =>
    if fields = [] then loadLoop st' [] else (loadLoop st' []).map (fun es => fields :: es)
  | (some (c :: s), st') =>
    if fields.length < MAXARGV + 6 then
      if fields.length < MAXARGV + 6 - 1 then loadLoop st' (fields ++ [c :: s])
      else .error .overflow
    else loadLoop st' fields
termination_by (st.lines.length, st.saved.length)
decreasing_by
  all_goals
    rw [Prod.lex_def]
    exact nexttoken_less (by assumption)

def loadconfigfile (file : Text) : Except Stop (List (List Text)) :=
  loadLoop ⟨[], chunks file []⟩ []

/-! ## The entries -/

theorem cstring_nul {c : Char} (hc : c.toNat = 0) (s : Text) : cstring (c :: s) = [] :=
  List.takeWhile_cons_of_neg (by simpa using hc)

theorem cstring_cons {c : Char} (hc : c.toNat ≠ 0) (s : Text) :
    cstring (c :: s) = c :: cstring s :=
  List.takeWhile_cons_of_pos (decide_eq_true hc)

theorem isDelim_iff {c : Char} : isDelim c = true ↔ c = ' ' ∨ c = '\t' ∨ c = '\n' := by
  rw [isDelim, Bool.or_eq_true, Bool.or_eq_true, decide_eq_true_iff, decide_eq_true_iff,
    decide_eq_true_iff, or_assoc]

theorem words_eq (s cur : Text) (hcur : ∀ c ∈ cur, isDelim c = false) :
    words s cur = pieces isDelim (cur ++ cstring s) := by
  have hflush (w : Text) (hw : ∀ c ∈ w, isDelim c = false) :
      (if w = [] then [] else [w]) = pieces isDelim w := by
    split
    · next hnil => rw [hnil, pieces_nil]
    · next hne => exact (pieces_of_forall hne hw).symm
  induction s generalizing cur with
  | nil => rw [words, hflush cur hcur, cstring, List.takeWhile_nil, List.append_nil]
  | cons c s ih =>
    unfold words
    by_cases hnul : c.toNat = 0
    · rw [if_pos hnul, cstring_nul hnul, hflush cur hcur, List.append_nil]
    · rw [if_neg hnul, cstring_cons hnul]
      by_cases hc : isDelim c = true
      · rw [if_pos (isDelim_iff.mp hc), pieces_append_cons hc, ← hflush cur hcur,
          ih [] (fun d hd => absurd hd List.not_mem_nil)]
        split <;> rfl
      · rw [Bool.not_eq_true] at hc
        have hcur' : ∀ d ∈ cur ++ [c], isDelim d = false := by
          intro d hd
          rcases List.mem_append.mp hd with hd | hd
          · exact hcur d hd
          · rw [List.mem_singleton.mp hd]
            exact hc
        have hnot : ¬ (c = ' ' ∨ c = '\t' ∨ c = '\n') := by
          rw [← isDelim_iff, hc]
          exact Bool.false_ne_true
        rw [if_neg hnot, ih (cur ++ [c]) hcur', List.append_assoc]
        rfl

theorem words_chunk (line : Text) : words line [] = pieces isDelim (cstring line) :=
  words_eq line [] (fun _ hc => absurd hc List.not_mem_nil)

def Tokenizer.tokens (st : Tokenizer) : List (Option Text) :=
  (pieces isDelim st.saved).map some ++
    (st.lines.filter (fun line => line.head? ≠ some '#')).flatMap lineTokens

theorem tokens_lines (saved : Text) (lines : List Text) : Tokenizer.tokens ⟨saved, lines⟩ =
    (pieces isDelim saved).map some ++ Tokenizer.tokens ⟨[], lines⟩ := by
  unfold Tokenizer.tokens
  rw [pieces_nil]
  rfl

theorem skipComments_tokens (lines : List Text) : Tokenizer.tokens ⟨[], lines⟩ =
    match skipComments lines with
    | none => []
    | some (line, rest) => lineTokens line ++ Tokenizer.tokens ⟨[], rest⟩ := by
  induction lines with
  | nil => rfl
  | cons line lines ih =>
    unfold Tokenizer.tokens at ih ⊢
    rw [skipComments, List.filter_cons]
    by_cases hcomment : line.head? = some '#'
    · rw [if_pos hcomment, if_neg (by simpa using hcomment)]
      exact ih
    · rw [if_neg hcomment, if_pos (decide_eq_true hcomment), List.flatMap_cons]
      rfl

theorem lineTokens_eq {line : Text} (hne : line ≠ []) : lineTokens line =
    if blankFirst line then
      if pieces isDelim (cstring line) = [] then [none]
      else (pieces isDelim (cstring line)).map some
    else none :: (pieces isDelim (cstring line)).map some := by
  cases line with
  | nil => exact absurd rfl hne
  | cons c line =>
    unfold lineTokens blankFirst
    rw [words_chunk]
    dsimp only
    by_cases hblank : c = ' ' ∨ c = '\t' ∨ c.toNat = 0
    · have hfirst : (decide (c = ' ') || decide (c = '\t') || decide (c.toNat = 0)) = true := by
        simpa [or_assoc] using hblank
      rw [if_pos hblank, if_pos hfirst]
    · have hfirst : ¬ (decide (c = ' ') || decide (c = '\t') || decide (c.toNat = 0)) = true := by
        simpa [or_assoc] using hblank
      rw [if_neg hblank, if_neg hfirst]

/-- What one call says about the tokens: there are none, the next one ends an entry, or it is a
word. -/
def Tokenizer.Gives (st : Tokenizer) : Option Text × Tokenizer → Prop
  | (none, _) => st.tokens = []
  | (some [], st') => st.tokens = none :: st'.tokens ∧ ∀ line ∈ st'.lines, line ≠ []
  | (some (c :: s), st') => st.tokens = some (c :: s) :: st'.tokens ∧ ∀ line ∈ st'.lines, line ≠ []

theorem gives_word {st st' : Tokenizer} {s : Text} (hs : s ≠ [])
    (htokens : st.tokens = some s :: st'.tokens) (hne : ∀ line ∈ st'.lines, line ≠ []) :
    st.Gives (some s, st') := by
  cases s with
  | nil => exact absurd rfl hs
  | cons c s => exact ⟨htokens, hne⟩

theorem skipComments_mem {lines rest : List Text} {line : Text}
    (h : skipComments lines = some (line, rest)) : line ∈ lines ∧ ∀ l ∈ rest, l ∈ lines := by
  induction lines with
  | nil => cases h
  | cons l lines ih =>
    rw [skipComments] at h
    split at h
    · obtain ⟨hline, hrest⟩ := ih h
      exact ⟨List.mem_cons_of_mem l hline, fun x hx => List.mem_cons_of_mem l (hrest x hx)⟩
    · obtain ⟨rfl, rfl⟩ := Prod.mk.inj (Option.some.inj h)
      exact ⟨List.mem_cons_self, fun x hx => List.mem_cons_of_mem l hx⟩

theorem nexttoken_gives {st : Tokenizer} (hne : ∀ line ∈ st.lines, line ≠ []) :
    st.Gives (nexttoken st) := by
  obtain ⟨saved, lines⟩ := st
  have htokens := tokens_lines saved lines
  rw [pieces_eq] at htokens
  unfold nexttoken
  dsimp only
  cases hpiece : nextPiece isDelim saved with
  | some p =>
    obtain ⟨s, rest⟩ := p
    rw [hpiece] at htokens
    refine gives_word (nextPiece_ne_nil hpiece) ?_ hne
    rw [htokens, tokens_lines rest]
    rfl
  | none =>
    rw [hpiece, skipComments_tokens] at htokens
    cases hskip : skipComments lines with
    | none =>
      rw [hskip] at htokens
      exact htokens
    | some p =>
      obtain ⟨line, rest⟩ := p
      obtain ⟨hline, hrest⟩ := skipComments_mem hskip
      have hrest' : ∀ l ∈ rest, l ≠ [] := fun l hl => hne l (hrest l hl)
      rw [hskip] at htokens
      dsimp only at htokens ⊢
      rw [lineTokens_eq (hne line hline), pieces_eq] at htokens
      by_cases hblank : blankFirst line = true
      · rw [if_pos hblank] at htokens ⊢
        cases hfirst : nextPiece isDelim (cstring line) with
        | none =>
          rw [hfirst] at htokens
          exact ⟨htokens, hrest'⟩
        | some p =>
          obtain ⟨s, behind⟩ := p
          rw [hfirst] at htokens
          refine gives_word (nextPiece_ne_nil hfirst) ?_ hrest'
          rw [htokens, tokens_lines behind]
          rfl
      · rw [if_neg hblank, ← pieces_eq] at htokens
        have hline : nextPiece isDelim ('Q' :: ' ' :: cstring line) = some (['Q'], cstring line) :=
          rfl
        rw [if_neg hblank, hline]
        refine ⟨?_, hrest'⟩
        rw [htokens, tokens_lines (cstring line)]
        rfl

theorem chunks_ne_nil (file cur : Text) : ∀ line ∈ chunks file cur, line ≠ [] := by
  induction file generalizing cur with
  | nil =>
    intro line hline
    rw [chunks] at hline
    split at hline
    · exact absurd hline List.not_mem_nil
    · next hcur =>
      rw [List.mem_singleton.mp hline]
      exact hcur
  | cons c file ih =>
    intro line hline
    rw [chunks] at hline
    split at hline
    · rcases List.mem_cons.mp hline with rfl | hline
      · exact List.append_ne_nil_of_right_ne_nil cur (List.cons_ne_nil c [])
      · exact ih [] line hline
    · exact ih (cur ++ [c]) line hline

theorem collect_front (ts : List (Option Text)) {fields : List Text} (hne : fields ≠ []) :
    ∃ e ∈ collect ts fields, fields <+: e := by
  induction ts generalizing fields with
  | nil =>
    rw [collect, if_neg hne]
    exact ⟨fields, List.mem_singleton_self fields, List.prefix_rfl⟩
  | cons t ts ih =>
    cases t with
    | none =>
      rw [collect, if_neg hne]
      exact ⟨fields, List.mem_cons_self, List.prefix_rfl⟩
    | some w =>
      obtain ⟨e, he, hfront⟩ := ih (List.append_ne_nil_of_left_ne_nil hne [w])
      exact ⟨e, he, (List.prefix_append fields [w]).trans hfront⟩

/-- The entries, unless one of them has more words than fit into the array. -/
def bounded (es : List (List Text)) : Except Stop (List (List Text)) :=
  if ∀ e ∈ es, e.length ≤ MAXARGV + 5 then .ok es else .error .overflow

theorem bounded_cons {fields : List Text} (h : fields.length ≤ MAXARGV + 5)
    (es : List (List Text)) :
    bounded (fields :: es) = (bounded es).map (fun es => fields :: es) := by
  unfold bounded
  by_cases hes : ∀ e ∈ es, e.length ≤ MAXARGV + 5
  · have hall : ∀ e ∈ fields :: es, e.length ≤ MAXARGV + 5 := List.forall_mem_cons.mpr ⟨h, hes⟩
    rw [if_pos hes, if_pos hall]
    rfl
  · rw [if_neg hes, if_neg (fun hall => hes (List.forall_mem_cons.mp hall).2)]
    rfl

theorem loadLoop_eq (st : Tokenizer) (fields : List Text) (hne : ∀ line ∈ st.lines, line ≠ [])
    (hfields : fields.length ≤ MAXARGV + 5) :
    loadLoop st fields = bounded (collect st.tokens fields) := by
  have hgives := nexttoken_gives hne
  fun_induction loadLoop st fields with
  | case1 st fields rest h =>
    rw [h] at hgives
    rw [show st.tokens = [] from hgives, collect]
    by_cases hnil : fields = []
    · rw [if_pos hnil]
      rfl
    · rw [if_neg hnil]
      exact (bounded_cons hfields []).symm
  | case2 st st' h ih =>
    rw [h] at hgives
    rw [ih hgives.2 (Nat.zero_le _) (nexttoken_gives hgives.2), hgives.1, collect, if_pos rfl]
  | case3 st fields st' h hnil ih =>
    rw [h] at hgives
    rw [ih hgives.2 (Nat.zero_le _) (nexttoken_gives hgives.2), hgives.1, collect, if_neg hnil,
      bounded_cons hfields]
  | case4 st fields c s st' h hlt hroom ih =>
    rw [h] at hgives
    have hlength : (fields ++ [c :: s]).length ≤ MAXARGV + 5 := by
      rw [List.length_append, List.length_singleton]
      omega
    rw [ih hgives.2 hlength (nexttoken_gives hgives.2), hgives.1, collect]
  | case5 st fields c s st' h hlt hroom =>
    rw [h] at hgives
    obtain ⟨e, he, hfront⟩ := collect_front st'.tokens
      (List.append_ne_nil_of_right_ne_nil fields (List.cons_ne_nil (c :: s) []))
    have hlength := hfront.length_le
    rw [List.length_append, List.length_singleton] at hlength
    rw [hgives.1, collect, bounded, if_neg (fun hall => ?_)]
    have hle := hall e he
    omega
  | case6 st fields c s st' h hlt ih =>
    omega

theorem loadconfigfile_eq (file : Text) : loadconfigfile file = bounded (entries file) := by
  rw [loadconfigfile, loadLoop_eq _ _ (chunks_ne_nil file []) (Nat.zero_le _)]
  unfold Tokenizer.tokens entries fileTokens
  rw [pieces_nil]
  rfl

/-! ## Lines -/

def wordsOf (line : Text) : List Text := pieces isDelim line

def continues (line : Text) : Bool := line.head? = some ' ' || line.head? = some '\t'

/-- The logical lines, each with its words: a line that begins with a character that is neither a
blank nor `#`, and the lines behind it that begin with a blank. Lines that begin with `#` are
passed over, and a line without a word ends the logical line. -/
def logical : List Text → Option (List Text) → List (List Text)
  | [], cur => cur.toList
  | line :: lines, cur =>
    if line.head? = some '#' then logical lines cur
    else if wordsOf line = [] then cur.toList ++ logical lines none
    else if continues line then logical lines (cur.map (fun ws => ws ++ wordsOf line))
    else cur.toList ++ logical lines (some (wordsOf line))

def logicalLines (file : Text) : List (List Text) := logical (file.splitOn '\n') none

/-- The lines as `strtok` sees them: cut after 253 characters, and ended by a NUL. -/
def seenLines (file : Text) : List Text := (chunks file []).map cstring

/-- What the code makes of lines: a line that begins with a blank begins an entry if there is
none. -/
def delivered : List Text → List Text → List (List Text)
  | [], fields => if fields = [] then [] else [fields]
  | line :: lines, fields =>
    if line.head? = some '#' then delivered lines fields
    else if wordsOf line = [] then
      (if fields = [] then [] else [fields]) ++ delivered lines []
    else if continues line then delivered lines (fields ++ wordsOf line)
    else (if fields = [] then [] else [fields]) ++ delivered lines (wordsOf line)

/-- No line that continues another one stands where there is nothing to continue. -/
def NoOrphan : List Text → Bool → Prop
  | [], _ => True
  | line :: lines, started =>
    if line.head? = some '#' then NoOrphan lines started
    else if wordsOf line = [] then NoOrphan lines false
    else if continues line then started = true ∧ NoOrphan lines true
    else NoOrphan lines true

theorem collect_words (ws : List Text) (ts : List (Option Text)) (fields : List Text) :
    collect (ws.map some ++ ts) fields = collect ts (fields ++ ws) := by
  induction ws generalizing fields with
  | nil => rw [List.map_nil, List.nil_append, List.append_nil]
  | cons w ws ih =>
    rw [List.map_cons, List.cons_append, collect, ih, List.append_assoc]
    rfl

theorem collect_end (ts : List (Option Text)) (fields : List Text) :
    collect (none :: ts) fields = (if fields = [] then [] else [fields]) ++ collect ts [] := by
  rw [collect]
  split <;> rfl

theorem head?_cstring {c : Char} (hc : c.toNat ≠ 0) (line : Text) :
    (cstring line).head? = some c ↔ line.head? = some c := by
  cases line with
  | nil => exact Iff.rfl
  | cons d line =>
    by_cases hd : d.toNat = 0
    · rw [cstring_nul hd]
      refine iff_of_false (Option.some_ne_none c).symm (fun h => ?_)
      rw [List.head?_cons, Option.some.injEq] at h
      exact hc (h ▸ hd)
    · rw [cstring_cons hd]
      rfl

theorem blankFirst_eq {line : Text} (hline : wordsOf (cstring line) ≠ []) :
    blankFirst line = continues (cstring line) := by
  cases line with
  | nil => exact absurd pieces_nil hline
  | cons c line =>
    by_cases hc : c.toNat = 0
    · rw [cstring_nul hc] at hline
      exact absurd pieces_nil hline
    · rw [cstring_cons hc]
      unfold blankFirst continues
      simp [hc]

theorem collect_lines (lines : List Text) (hne : ∀ line ∈ lines, line ≠ []) (fields : List Text) :
    collect ((lines.filter (fun line => line.head? ≠ some '#')).flatMap lineTokens) fields =
      delivered (lines.map cstring) fields := by
  induction lines generalizing fields with
  | nil => rfl
  | cons line lines ih =>
    have hline := hne line List.mem_cons_self
    have hrest : ∀ l ∈ lines, l ≠ [] := fun l hl => hne l (List.mem_cons_of_mem line hl)
    rw [List.map_cons, delivered, List.filter_cons]
    by_cases hcomment : line.head? = some '#'
    · rw [if_neg (by simpa using hcomment), if_pos ((head?_cstring (by decide) line).mpr hcomment)]
      exact ih hrest fields
    · rw [if_pos (decide_eq_true hcomment),
        if_neg (fun h => hcomment ((head?_cstring (by decide) line).mp h)), List.flatMap_cons,
        lineTokens_eq hline]
      by_cases hwords : wordsOf (cstring line) = []
      · have htokens : (if blankFirst line = true then
            if pieces isDelim (cstring line) = [] then [none]
            else (pieces isDelim (cstring line)).map some
            else none :: (pieces isDelim (cstring line)).map some) = [none] := by
          rw [show pieces isDelim (cstring line) = [] from hwords, if_pos rfl]
          split <;> rfl
        rw [htokens, if_pos hwords, List.singleton_append, collect_end, ih hrest]
      · rw [if_neg hwords, blankFirst_eq hwords,
          if_neg (show ¬ pieces isDelim (cstring line) = [] from hwords)]
        split
        · rw [collect_words, ih hrest]
          rfl
        · rw [List.cons_append, collect_end, collect_words, ih hrest]
          rfl

theorem entries_eq (file : Text) : entries file = delivered (seenLines file) [] :=
  collect_lines (chunks file []) (chunks_ne_nil file []) []

/-! ## Entries and logical lines -/

def openLine (fields : List Text) : Option (List Text) := if fields = [] then none else some fields

theorem openLine_toList (fields : List Text) :
    (openLine fields).toList = if fields = [] then [] else [fields] := by
  unfold openLine
  split <;> rfl

theorem openLine_of_ne {fields : List Text} (h : fields ≠ []) : openLine fields = some fields :=
  if_neg h

theorem delivered_eq {lines fields : List Text} (h : NoOrphan lines (decide (fields ≠ []))) :
    delivered lines fields = logical lines (openLine fields) := by
  induction lines generalizing fields with
  | nil => exact (openLine_toList fields).symm
  | cons line lines ih =>
    rw [NoOrphan] at h
    rw [delivered, logical, openLine_toList]
    split
    · next hcomment =>
      rw [if_pos hcomment] at h
      exact ih h
    · next hcomment =>
      rw [if_neg hcomment] at h
      split
      · next hwords =>
        rw [if_pos hwords] at h
        rw [ih (by simpa using h)]
        rfl
      · next hwords =>
        rw [if_neg hwords] at h
        split
        · next hcontinues =>
          rw [if_pos hcontinues] at h
          have hne : fields ≠ [] := of_decide_eq_true h.1
          have hboth : fields ++ wordsOf line ≠ [] := List.append_ne_nil_of_left_ne_nil hne _
          rw [ih (by rw [decide_eq_true hboth]; exact h.2), openLine_of_ne hboth,
            openLine_of_ne hne]
          rfl
        · next hcontinues =>
          rw [if_neg hcontinues] at h
          rw [ih (by rw [decide_eq_true hwords]; exact h), openLine_of_ne hwords]

/-! ## How many there are -/

/-- There is at least one entry for each logical line, and one more if the code has begun an entry
where there is no logical line. -/
theorem logical_length_le (lines fields : List Text) :
    (logical lines (openLine fields)).length ≤ (delivered lines fields).length ∧
      (fields ≠ [] → (logical lines none).length + 1 ≤ (delivered lines fields).length) := by
  induction lines generalizing fields with
  | nil =>
    rw [logical, openLine_toList, delivered]
    refine ⟨Nat.le_refl _, fun hne => ?_⟩
    rw [if_neg hne]
    exact Nat.le_refl 1
  | cons line lines ih =>
    have hempty := (ih []).1
    rw [delivered, logical, logical, openLine_toList]
    split
    · exact ih fields
    · split
      · refine ⟨?_, fun hne => ?_⟩
        · rw [List.length_append, List.length_append]
          exact Nat.add_le_add_left hempty _
        · rw [if_neg hne, List.length_append, List.length_append, List.length_singleton,
            Option.toList_none, List.length_nil, Nat.zero_add, Nat.add_comm]
          exact Nat.add_le_add_left hempty 1
      · next hwords =>
        split
        · have hboth : fields ++ wordsOf line ≠ [] :=
            List.append_ne_nil_of_right_ne_nil fields hwords
          obtain ⟨hopen, hmore⟩ := ih (fields ++ wordsOf line)
          refine ⟨?_, fun _ => hmore hboth⟩
          by_cases hne : fields = []
          · subst hne
            exact Nat.le_of_succ_le (hmore hboth)
          · rw [openLine_of_ne hne]
            rw [openLine_of_ne hboth] at hopen
            exact hopen
        · have hopen := (ih (wordsOf line)).1
          rw [openLine_of_ne hwords] at hopen
          refine ⟨?_, fun hne => ?_⟩
          · rw [List.length_append, List.length_append]
            exact Nat.add_le_add_left hopen _
          · rw [if_neg hne, List.length_append, List.length_append, List.length_singleton,
              Option.toList_none, List.length_nil, Nat.zero_add, Nat.add_comm]
            exact Nat.add_le_add_left hopen 1

theorem logical_length_lt {lines : List Text} (fields : List Text)
    (h : ¬ NoOrphan lines (decide (fields ≠ []))) :
    (logical lines (openLine fields)).length < (delivered lines fields).length := by
  induction lines generalizing fields with
  | nil => exact absurd trivial h
  | cons line lines ih =>
    rw [NoOrphan] at h
    rw [delivered, logical, openLine_toList]
    split
    · next hcomment =>
      rw [if_pos hcomment] at h
      exact ih fields h
    · next hcomment =>
      rw [if_neg hcomment] at h
      split
      · next hwords =>
        rw [if_pos hwords] at h
        have hless := ih [] (by simpa using h)
        rw [List.length_append, List.length_append]
        exact Nat.add_lt_add_left hless _
      · next hwords =>
        rw [if_neg hwords] at h
        split
        · next hcontinues =>
          rw [if_pos hcontinues] at h
          have hboth : fields ++ wordsOf line ≠ [] :=
            List.append_ne_nil_of_right_ne_nil fields hwords
          by_cases hne : fields = []
          · subst hne
            exact (logical_length_le lines ([] ++ wordsOf line)).2 hboth
          · have hless := ih (fields ++ wordsOf line) (fun hno =>
              h ⟨decide_eq_true hne, by rwa [decide_eq_true hboth] at hno⟩)
            rw [openLine_of_ne hboth] at hless
            rw [openLine_of_ne hne]
            exact hless
        · next hcontinues =>
          rw [if_neg hcontinues] at h
          have hless := ih (wordsOf line) (by rwa [decide_eq_true hwords])
          rw [openLine_of_ne hwords] at hless
          rw [List.length_append, List.length_append]
          exact Nat.add_lt_add_left hless _

def begins (line : Text) : Bool :=
  decide (line.head? ≠ some '#') && decide (wordsOf line ≠ []) && !continues line

theorem logical_length (lines : List Text) (cur : Option (List Text)) :
    (logical lines cur).length = cur.toList.length + lines.countP begins := by
  induction lines generalizing cur with
  | nil => rfl
  | cons line lines ih =>
    have hmap (f : List Text → List Text) : (cur.map f).toList.length = cur.toList.length := by
      cases cur <;> rfl
    rw [logical, List.countP_cons]
    by_cases hcomment : line.head? = some '#'
    · rw [if_pos hcomment, ih, if_neg (by simp [begins, hcomment]), Nat.add_zero]
    · rw [if_neg hcomment]
      by_cases hwords : wordsOf line = []
      · rw [if_pos hwords, List.length_append, ih, if_neg (by simp [begins, hwords]), Nat.add_zero,
          Option.toList_none, List.length_nil, Nat.zero_add]
      · rw [if_neg hwords]
        by_cases hcontinues : continues line = true
        · rw [if_pos hcontinues, ih, hmap, if_neg (by simp [begins, hcontinues]), Nat.add_zero]
        · have hbegins : begins line = true := by simp [begins, hcomment, hwords, hcontinues]
          rw [if_neg hcontinues, List.length_append, ih, if_pos hbegins, Option.toList_some,
            List.length_singleton]
          omega

/-- The line begins with a character that begins a word of a logical line. -/
def letterFirst (line : Text) : Bool :=
  match line with
  | [] => false
  | c :: _ => c ≠ '#' && !isDelim c && c.toNat ≠ 0

theorem begins_of_letterFirst {line : Text} (h : letterFirst line = true) :
    begins (cstring line) = true := by
  cases line with
  | nil => cases h
  | cons c line =>
    simp only [letterFirst, Bool.and_eq_true, decide_eq_true_eq, Bool.not_eq_true'] at h
    obtain ⟨⟨hcomment, hletter⟩, hnul⟩ := h
    obtain ⟨w, ws, hws⟩ := exists_piece hletter (cstring line)
    have hblank : c ≠ ' ' ∧ c ≠ '\t' := by
      constructor
      · rintro rfl
        exact absurd hletter (by decide)
      · rintro rfl
        exact absurd hletter (by decide)
    rw [cstring_cons hnul]
    simp [begins, continues, wordsOf, hws, hcomment, hblank]

theorem letterFirst_of_begins {line : Text} (hnewline : '\n' ∉ line) (h : begins line = true)
    (hnul : ∀ c ∈ line.head?, c.toNat ≠ 0) : letterFirst line = true := by
  simp only [begins, Bool.and_eq_true, decide_eq_true_eq, Bool.not_eq_true'] at h
  obtain ⟨⟨hcomment, hwords⟩, hcontinues⟩ := h
  cases line with
  | nil => exact absurd pieces_nil hwords
  | cons c line =>
    have hc := hnul c rfl
    have hdelim : isDelim c = false := by
      rw [Bool.eq_false_iff, ne_eq, isDelim_iff]
      rintro (rfl | rfl | rfl)
      · cases hcontinues
      · cases hcontinues
      · exact hnewline List.mem_cons_self
    simp only [letterFirst, Bool.and_eq_true, decide_eq_true_eq, Bool.not_eq_true']
    exact ⟨⟨fun heq => hcomment (congrArg some heq), hdelim⟩, hc⟩

def letters (line : Text) : Nat := if letterFirst line then 1 else 0

theorem letters_append (cur : Text) (c : Char) : letters cur ≤ letters (cur ++ [c]) := by
  cases cur with
  | nil => exact Nat.zero_le _
  | cons d cur => exact Nat.le_refl _

theorem countP_cons_letters (line : Text) (lines : List Text) :
    (line :: lines).countP letterFirst = lines.countP letterFirst + letters line :=
  List.countP_cons

/-- Where a line of the file begins, a chunk begins. The induction is on the file; what has been
read of a chunk counts as its beginning. -/
theorem countP_chunks (file : Text) :
    (∀ cur, (file.splitOn '\n').tail.countP letterFirst + letters cur ≤
      (chunks file cur).countP letterFirst) ∧
      (file.splitOn '\n').countP letterFirst ≤ (chunks file []).countP letterFirst := by
  induction file with
  | nil =>
    refine ⟨fun cur => ?_, Nat.zero_le _⟩
    rw [List.splitOn_nil, chunks]
    cases cur with
    | nil => exact Nat.le_refl _
    | cons c cur =>
      rw [if_neg (List.cons_ne_nil c cur), countP_cons_letters]
      exact Nat.le_refl _
  | cons c file ih =>
    obtain ⟨ihmiddle, ihstart⟩ := ih
    have hsplit : (c :: file).splitOn '\n' = if c = '\n' then [] :: file.splitOn '\n'
        else (file.splitOn '\n').modifyHead (List.cons c) := by
      rw [List.splitOn_cons_eq_if_modifyHead]
      by_cases hc : c = '\n'
      · rw [if_pos hc, if_pos (beq_iff_eq.mpr hc)]
      · rw [if_neg hc, if_neg (fun h => hc (beq_iff_eq.mp h))]
    by_cases hc : c = '\n'
    · rw [hsplit, if_pos hc]
      have hchunks (cur : Text) : chunks (c :: file) cur = (cur ++ [c]) :: chunks file [] := by
        rw [chunks, if_pos (Or.inl hc)]
      refine ⟨fun cur => ?_, ?_⟩
      · rw [hchunks, countP_cons_letters, List.tail_cons]
        exact Nat.add_le_add ihstart (letters_append cur c)
      · rw [hchunks, countP_cons_letters, countP_cons_letters]
        exact Nat.add_le_add ihstart (Nat.zero_le _)
    · rw [hsplit, if_neg hc, List.tail_modifyHead]
      have hmiddle (cur : Text) :
          (file.splitOn '\n').tail.countP letterFirst + letters (cur ++ [c]) ≤
            (chunks (c :: file) cur).countP letterFirst := by
        rw [chunks]
        split
        · rw [countP_cons_letters]
          exact Nat.add_le_add_right (ihmiddle []) _
        · exact ihmiddle (cur ++ [c])
      refine ⟨fun cur => ?_, ?_⟩
      · exact (Nat.add_le_add_left (letters_append cur c) _).trans (hmiddle cur)
      · obtain ⟨l, ls, hls⟩ := List.exists_cons_of_ne_nil (List.splitOn_ne_nil '\n' file)
        have hstart := hmiddle []
        rw [hls, List.tail_cons] at hstart
        rw [hls, List.modifyHead_cons, countP_cons_letters]
        exact hstart

theorem newline_not_mem {file line : Text} (h : line ∈ file.splitOn '\n') : '\n' ∉ line := by
  induction file generalizing line with
  | nil =>
    rw [List.splitOn_nil, List.mem_singleton] at h
    rw [h]
    exact List.not_mem_nil
  | cons c file ih =>
    rw [List.splitOn_cons_eq_if_modifyHead] at h
    split at h
    · rcases List.mem_cons.mp h with rfl | h
      · exact List.not_mem_nil
      · exact ih h
    · next hc =>
      obtain ⟨l, ls, hls⟩ := List.exists_cons_of_ne_nil (List.splitOn_ne_nil '\n' file)
      rw [hls, List.modifyHead_cons] at h
      rcases List.mem_cons.mp h with rfl | h
      · rw [List.mem_cons, not_or]
        exact ⟨fun heq => hc (beq_iff_eq.mpr heq.symm), ih (hls ▸ List.mem_cons_self)⟩
      · exact ih (hls ▸ List.mem_cons_of_mem l h)

theorem logicalLines_length_le {file : Text}
    (hnul : ∀ line ∈ file.splitOn '\n', begins line = true → ∀ c ∈ line.head?, c.toNat ≠ 0) :
    (logicalLines file).length ≤ (logical (seenLines file) none).length := by
  rw [logicalLines, logical_length, logical_length]
  refine Nat.add_le_add_left ?_ _
  calc (file.splitOn '\n').countP begins
      ≤ (file.splitOn '\n').countP letterFirst := List.countP_mono_left (fun line hline h =>
        letterFirst_of_begins (newline_not_mem hline) h (hnul line hline h))
    _ ≤ (chunks file []).countP letterFirst := (countP_chunks file).2
    _ ≤ (chunks file []).countP (begins ∘ cstring) := List.countP_mono_left (fun line _ h =>
        begins_of_letterFirst h)
    _ = (seenLines file).countP begins := List.countP_map.symm

/-! ## No word with a NUL -/

theorem logical_front (lines : List Text) (ws : List Text) :
    ∃ e ∈ logical lines (some ws), ws <+: e := by
  induction lines generalizing ws with
  | nil => exact ⟨ws, List.mem_singleton_self ws, List.prefix_rfl⟩
  | cons line lines ih =>
    rw [logical]
    split
    · exact ih ws
    · split
      · exact ⟨ws, List.mem_append_left _ (List.mem_singleton_self ws), List.prefix_rfl⟩
      · split
        · obtain ⟨e, he, hfront⟩ := ih (ws ++ wordsOf line)
          exact ⟨e, he, (List.prefix_append ws _).trans hfront⟩
        · exact ⟨ws, List.mem_append_left _ (List.mem_singleton_self ws), List.prefix_rfl⟩

theorem logical_begins {lines : List Text} {line : Text} (hline : line ∈ lines)
    (h : begins line = true) (cur : Option (List Text)) :
    ∃ e ∈ logical lines cur, wordsOf line <+: e := by
  induction lines generalizing cur with
  | nil => exact absurd hline List.not_mem_nil
  | cons l lines ih =>
    rcases List.mem_cons.mp hline with rfl | hline
    · simp only [begins, Bool.and_eq_true, decide_eq_true_eq, Bool.not_eq_true'] at h
      obtain ⟨⟨hcomment, hwords⟩, hcontinues⟩ := h
      rw [logical, if_neg hcomment, if_neg hwords,
        if_neg (by rw [hcontinues]; exact Bool.false_ne_true)]
      obtain ⟨e, he, hfront⟩ := logical_front lines (wordsOf line)
      exact ⟨e, List.mem_append_right _ he, hfront⟩
    · rw [logical]
      split
      · exact ih hline cur
      · split
        · obtain ⟨e, he, hfront⟩ := ih hline none
          exact ⟨e, List.mem_append_right _ he, hfront⟩
        · split
          · exact ih hline _
          · obtain ⟨e, he, hfront⟩ := ih hline (some (wordsOf l))
            exact ⟨e, List.mem_append_right _ he, hfront⟩

theorem delivered_words {lines fields : List Text} {e : List Text}
    (he : e ∈ delivered lines fields) {w : Text} (hw : w ∈ e) :
    w ∈ fields ∨ ∃ line ∈ lines, w ∈ wordsOf line := by
  have hflush {fields : List Text} (h : e ∈ if fields = [] then [] else [fields]) : w ∈ fields := by
    split at h
    · exact absurd h List.not_mem_nil
    · exact List.mem_singleton.mp h ▸ hw
  induction lines generalizing fields with
  | nil => exact Or.inl (hflush he)
  | cons line lines ih =>
    have hnext {fields : List Text} (h : e ∈ delivered lines fields) :
        w ∈ fields ∨ ∃ l ∈ line :: lines, w ∈ wordsOf l :=
      (ih h).imp_right (fun ⟨l, hl, hwl⟩ => ⟨l, List.mem_cons_of_mem line hl, hwl⟩)
    have hhere (h : w ∈ wordsOf line) : ∃ l ∈ line :: lines, w ∈ wordsOf l :=
      ⟨line, List.mem_cons_self, h⟩
    rw [delivered] at he
    split at he
    · exact hnext he
    · split at he
      · rcases List.mem_append.mp he with he | he
        · exact Or.inl (hflush he)
        · exact (hnext he).elim (fun h => absurd h List.not_mem_nil) Or.inr
      · split at he
        · rcases hnext he with h | h
          · exact (List.mem_append.mp h).imp_right hhere
          · exact Or.inr h
        · rcases List.mem_append.mp he with he | he
          · exact Or.inl (hflush he)
          · exact Or.inr ((hnext he).elim hhere id)

theorem entries_nul {file : Text} {e : List Text} (he : e ∈ entries file) {w : Text} (hw : w ∈ e) :
    ∀ c ∈ w, c.toNat ≠ 0 := by
  intro c hc
  rw [entries_eq] at he
  rcases delivered_words he hw with h | ⟨line, hline, hword⟩
  · exact absurd h List.not_mem_nil
  · obtain ⟨chunk, -, rfl⟩ := List.mem_map.mp hline
    have hmem := mem_of_mem_pieces hword hc
    have hall := List.all_takeWhile (p := fun c : Char => decide (c.toNat ≠ 0)) (l := chunk)
    exact of_decide_eq_true (List.all_eq_true.mp hall c hmem)

/-! ## One entry for each logical line -/

/-- `loadconfigfile` comes to its end, and what it has delivered are the logical lines, with at most
`MAXARGV - 1` arguments. -/
def Delivers (file : Text) : Prop :=
  ∃ es, loadconfigfile file = .ok es ∧
    es = (logicalLines file).map (fun ws => ws.take (MAXARGV + 5)) ∧
    ∀ e ∈ es, (e.drop 6).length ≤ MAXARGV - 1

/-- When every line is cut after 253 characters, there is no line that continues nothing, no logical
line has more words than fit, and the logical lines have the words that they had. -/
structure Readable (file : Text) : Prop where
  noOrphan : NoOrphan (seenLines file) false
  short : ∀ ws ∈ logical (seenLines file) none, ws.length ≤ MAXARGV + 5
  uncut : logical (seenLines file) none =
    (logicalLines file).map (fun ws => ws.take (MAXARGV + 5))

theorem bounded_eq_ok {es fs : List (List Text)} (h : bounded es = .ok fs) :
    fs = es ∧ ∀ e ∈ es, e.length ≤ MAXARGV + 5 := by
  unfold bounded at h
  split at h
  · next hall => exact ⟨(Except.ok.inj h).symm, hall⟩
  · cases h

theorem not_nul_first {file : Text}
    (h : entries file = (logicalLines file).map (fun ws => ws.take (MAXARGV + 5))) {line : Text}
    (hline : line ∈ file.splitOn '\n') (hbegins : begins line = true) :
    ∀ c ∈ line.head?, c.toNat ≠ 0 := by
  intro c hc hnul
  cases line with
  | nil => cases hc
  | cons d line =>
    obtain rfl := Option.some.inj hc
    have hletter : isDelim d = false := by
      rw [Bool.eq_false_iff, ne_eq, isDelim_iff]
      rintro (rfl | rfl | rfl) <;> exact absurd hnul (by decide)
    obtain ⟨w, ws, hws⟩ := exists_piece hletter line
    obtain ⟨e, he, hfront⟩ := logical_begins hline hbegins none
    rw [wordsOf, hws] at hfront
    obtain ⟨rest, rfl⟩ := hfront
    have hdelivered : ((d :: w) :: ws ++ rest).take (MAXARGV + 5) ∈ entries file := by
      rw [h]
      exact List.mem_map_of_mem he
    exact entries_nul hdelivered (w := d :: w) List.mem_cons_self d List.mem_cons_self hnul

/-- **One entry is delivered for each logical line**, with its words, exactly if the file is
readable. -/
theorem delivers_iff (file : Text) : Delivers file ↔ Readable file := by
  have hseen : NoOrphan (seenLines file) false →
      entries file = logical (seenLines file) none := by
    intro hno
    rw [entries_eq]
    exact delivered_eq hno
  unfold Delivers
  rw [loadconfigfile_eq]
  constructor
  · rintro ⟨es, hok, hes, -⟩
    obtain ⟨rfl, hshort⟩ := bounded_eq_ok hok
    have hlength := congrArg List.length hes
    rw [List.length_map] at hlength
    have hno : NoOrphan (seenLines file) false := by
      by_contra horphan
      have hless : (logical (seenLines file) none).length <
          (delivered (seenLines file) []).length := logical_length_lt [] horphan
      have hle := logicalLines_length_le (fun line hline hbegins =>
        not_nul_first hes hline hbegins)
      rw [← entries_eq] at hless
      omega
    have hlogical := hseen hno
    exact ⟨hno, hlogical ▸ hshort, hlogical.symm.trans hes⟩
  · intro h
    have hlogical := hseen h.noOrphan
    refine ⟨entries file, ?_, hlogical.trans h.uncut, fun e he => ?_⟩
    · rw [bounded, if_pos]
      rw [hlogical]
      exact h.short
    · have hlength := h.short e (hlogical ▸ he)
      rw [List.length_drop]
      unfold MAXARGV at hlength ⊢
      omega

/-- A store goes past the end of `fields` in an entry of 26 words. -/
theorem not_delivers_many :
    ¬ Delivers "a a a a a a a a a a a a a a a a a a a a a a a a a a\n".toList := by
  rintro ⟨es, hok, -⟩
  rw [loadconfigfile_eq] at hok
  obtain ⟨rfl, hshort⟩ := bounded_eq_ok hok
  revert hshort
  decide +kernel

/-! ## Lines that fit into the buffer -/

def withEnds : List Text → List Text
  | [] => []
  | [line] => if line = [] then [] else [line]
  | line :: next :: lines => (line ++ ['\n']) :: withEnds (next :: lines)

/-- A line that `fgets` reads in one go, and in which `strtok` finds no end. -/
def Fits (line : Text) : Prop := line.length ≤ 252 ∧ ∀ c ∈ line, c.toNat ≠ 0

/-- Lines that fit are not cut. The induction is on the file; `cur` has been read of a line. -/
theorem chunks_eq (file cur : Text) (hcur : ∀ line ∈ (file.splitOn '\n').head?,
    (cur ++ line).length ≤ 252) (htail : ∀ line ∈ (file.splitOn '\n').tail, line.length ≤ 252) :
    chunks file cur = withEnds ((file.splitOn '\n').modifyHead (fun line => cur ++ line)) := by
  induction file generalizing cur with
  | nil =>
    rw [List.splitOn_nil, List.modifyHead_cons, List.append_nil]
    rfl
  | cons c file ih =>
    obtain ⟨l, ls, hls⟩ := List.exists_cons_of_ne_nil (List.splitOn_ne_nil '\n' file)
    rw [List.splitOn_cons_eq_if_modifyHead] at hcur htail ⊢
    by_cases hc : c = '\n'
    · rw [if_pos (beq_iff_eq.mpr hc)] at hcur htail ⊢
      rw [chunks, if_pos (Or.inl hc), List.modifyHead_cons, List.append_nil, hc]
      rw [ih [] (fun line hline => ?_) (fun line hline => ?_)]
      · rw [hls]
        rfl
      · exact htail line (List.mem_of_mem_head? hline)
      · exact htail line (List.mem_of_mem_tail hline)
    · have hne : ¬ (c == '\n') = true := fun h => hc (beq_iff_eq.mp h)
      rw [if_neg hne, hls, List.modifyHead_cons] at hcur htail ⊢
      have hlength := hcur (c :: l) rfl
      rw [List.length_append, List.length_cons] at hlength
      have hroom : ¬ (c = '\n' ∨ cur.length + 1 = 253) := by
        rintro (h | h)
        · exact hc h
        · omega
      rw [chunks, if_neg hroom, ih (cur ++ [c])]
      · rw [hls, List.modifyHead_cons, List.modifyHead_cons, List.append_assoc]
        rfl
      · intro line hline
        rw [hls] at hline
        obtain rfl := Option.some.inj hline
        rw [List.append_assoc]
        exact hcur (c :: l) rfl
      · rw [hls]
        exact htail

theorem wordsOf_append_newline (line : Text) : wordsOf (line ++ ['\n']) = wordsOf line := by
  unfold wordsOf
  rw [pieces_append_cons (by decide), pieces_nil, List.append_nil]

theorem cstring_of_forall {line : Text} (h : ∀ c ∈ line, c.toNat ≠ 0) : cstring line = line :=
  List.takeWhile_eq_self_iff.mpr (fun c hc => decide_eq_true (h c hc))

theorem head?_append_newline {line : Text} (c : Char) (hc : c ≠ '\n') :
    (line ++ ['\n']).head? = some c ↔ line.head? = some c := by
  cases line with
  | nil => exact iff_of_false (fun h => hc (Option.some.inj h).symm) (Option.some_ne_none c).symm
  | cons d line => exact Iff.rfl

theorem continues_append_newline (line : Text) : continues (line ++ ['\n']) = continues line := by
  unfold continues
  rw [decide_eq_decide.mpr (head?_append_newline ' ' (by decide)),
    decide_eq_decide.mpr (head?_append_newline '\t' (by decide))]

theorem logical_withEnds {lines : List Text} (h : ∀ line ∈ lines, ∀ c ∈ line, c.toNat ≠ 0) :
    (∀ cur, logical ((withEnds lines).map cstring) cur = logical lines cur) ∧
      ∀ started, NoOrphan ((withEnds lines).map cstring) started ↔ NoOrphan lines started := by
  fun_induction withEnds lines with
  | case1 => exact ⟨fun _ => rfl, fun _ => Iff.rfl⟩
  | case2 =>
    refine ⟨fun cur => ?_, fun started => ?_⟩
    · exact (List.append_nil cur.toList).symm
    · exact Iff.rfl
  | case3 line hne =>
    rw [List.map_singleton, cstring_of_forall (h line List.mem_cons_self)]
    exact ⟨fun _ => rfl, fun _ => Iff.rfl⟩
  | case4 line next lines ih =>
    obtain ⟨ihlogical, ihorphan⟩ := ih (fun l hl => h l (List.mem_cons_of_mem line hl))
    have hnul : ∀ c ∈ line ++ ['\n'], c.toNat ≠ 0 := by
      intro c hc
      rcases List.mem_append.mp hc with hc | hc
      · exact h line List.mem_cons_self c hc
      · rw [List.mem_singleton.mp hc]
        decide
    rw [List.map_cons, cstring_of_forall hnul]
    refine ⟨fun cur => ?_, fun started => ?_⟩
    · rw [logical, logical, wordsOf_append_newline, continues_append_newline, ihlogical, ihlogical,
        ihlogical, ihlogical, if_congr (head?_append_newline '#' (by decide)) rfl rfl]
    · rw [NoOrphan, NoOrphan, wordsOf_append_newline, continues_append_newline, ihorphan, ihorphan,
        ihorphan, if_congr (head?_append_newline '#' (by decide)) rfl rfl]

/-- When all lines fit into the buffer, a file is readable exactly if no line continues nothing and
no logical line has too many words. -/
theorem readable_of_fits {file : Text} (h : ∀ line ∈ file.splitOn '\n', Fits line) :
    Readable file ↔ NoOrphan (file.splitOn '\n') false ∧
      ∀ ws ∈ logicalLines file, ws.length ≤ MAXARGV + 5 := by
  have hchunks : chunks file [] = withEnds (file.splitOn '\n') := by
    rw [chunks_eq file [] (fun line hline => (h line (List.mem_of_mem_head? hline)).1)
      (fun line hline => (h line (List.mem_of_mem_tail hline)).1)]
    exact congrArg withEnds (congrFun List.modifyHead_id _)
  obtain ⟨hlogical, horphan⟩ := logical_withEnds (fun line hline => (h line hline).2)
  have hseen : logical (seenLines file) none = logicalLines file := by
    rw [seenLines, hchunks]
    exact hlogical none
  have hno : NoOrphan (seenLines file) false ↔ NoOrphan (file.splitOn '\n') false := by
    rw [seenLines, hchunks]
    exact horphan false
  constructor
  · intro hread
    exact ⟨hno.mp hread.noOrphan, hseen ▸ hread.short⟩
  · rintro ⟨hfree, hshort⟩
    refine ⟨hno.mpr hfree, hseen ▸ hshort, ?_⟩
    rw [hseen, List.map_congr_left (fun ws hws => List.take_of_length_le (hshort ws hws)),
      List.map_id']

end Netkit.Inetd

import Mathlib.Data.List.TakeWhile
import Netkit.Foundations.Lines

/-!
# The words of a command line

`makeargv` takes the line apart with `slurpstring`, which stores the words in `argbuf`. A word that
comes out empty ends the list, and nothing counts the words.

* `makeargv_iff`: the lines that come out right.
-/

namespace Netkit.Ftp

open Netkit.Foundations

/-! ## The functions -/

def isBlank (c : UInt8) : Bool := c = 32 || c = 9

/-- The states of `slurpstring` inside of a word. -/
inductive SlurpState where
  | S1
  | S2
  | S3
deriving DecidableEq

def slurp : SlurpState → Bytes → Bytes × Bytes
  | _, [] => ([], [])
  | .S1, c :: sb =>
    if isBlank c then ([], c :: sb)
    else if c = 92 then slurp .S2 sb
    else if c = 34 then slurp .S3 sb
    else (c :: (slurp .S1 sb).1, (slurp .S1 sb).2)
  | .S2, c :: sb => (c :: (slurp .S1 sb).1, (slurp .S1 sb).2)
  | .S3, c :: sb =>
    if c = 34 then slurp .S1 sb else (c :: (slurp .S3 sb).1, (slurp .S3 sb).2)

/-- `stringbase`, `slrflag`, `altarg`, and how much of `argbuf` is in use. -/
structure Scanner where
  stringbase : Bytes
  slrflag : ℕ
  altarg : Option Bytes
  argbase : ℕ
deriving DecidableEq

def Scanner.notice (st : Scanner) (altarg : Option Bytes) : Scanner :=
  if st.slrflag = 0 then { st with slrflag := 1 }
  else if st.slrflag = 1 then { st with slrflag := 2, altarg }
  else st

/-- From `S0` on. -/
def Scanner.word (st : Scanner) : Option Bytes × Scanner :=
  match st.stringbase.dropWhile isBlank with
  | [] => (none, { st with stringbase := [] }.notice none)
  | c :: sb =>
    let st := st.notice (some (c :: sb))
    let w := slurp .S1 (c :: sb)
    if w.1 = [] then (none, { st with stringbase := w.2 }.notice none)
    else (some w.1, { st with stringbase := w.2, argbase := st.argbase + w.1.length + 1 })

def slurpstring (st : Scanner) : Option Bytes × Scanner :=
  match st.stringbase with
  | c :: sb =>
    if c = 33 ∨ c = 36 then
      if st.slrflag = 0 then (some [c], { st with slrflag := 1, stringbase := sb })
      else if st.slrflag = 1 then
        { st with slrflag := 2, altarg := some st.stringbase }.word
      else st.word
    else st.word
  | [] => st.word

def slurpAll : ℕ → Scanner → List Bytes × Scanner
  | 0, st => ([], st)
  | fuel + 1, st =>
    match slurpstring st with
    | (none, st) => ([], st)
    | (some arg, st) => (arg :: (slurpAll fuel st).1, (slurpAll fuel st).2)

/-- `margv` and `altarg`; how many places of `rargv`, and how much of `argbuf`, are written. -/
structure Args where
  argv : List Bytes
  altarg : Option Bytes
  rargv : ℕ
  argbuf : ℕ
deriving DecidableEq

/-- `makeargv` of a line; `altarg` is left over from the line before. Every word but the last takes a
character. -/
def makeargv (altarg : Option Bytes) (line : Bytes) : Args :=
  let r := slurpAll (line.length + 1) ⟨line, 0, altarg, 0⟩
  ⟨r.1, r.2.altarg, r.1.length + 1, r.2.argbase⟩

/-! ## Words -/

/-- The rest of a word: its value, and what is behind it. A quotation need not be closed at the end of
the line, and a backslash there stands for nothing. -/
inductive WordRest : Bytes → Bytes → Bytes → Prop where
  | done {s : Bytes} (h : ∀ c ∈ s.head?, isBlank c = true) : WordRest s [] s
  | char {c : UInt8} {s value rest : Bytes} (hblank : isBlank c = false) (hc : c ≠ 92 ∧ c ≠ 34)
    (h : WordRest s value rest) : WordRest (c :: s) (c :: value) rest
  | escaped (c : UInt8) {s value rest : Bytes} (h : WordRest s value rest) :
    WordRest (92 :: c :: s) (c :: value) rest
  | lone : WordRest [92] [] []
  | quoted {text s value rest : Bytes} (htext : 34 ∉ text) (h : WordRest s value rest) :
    WordRest (34 :: (text ++ 34 :: s)) (text ++ value) rest
  | unclosed {text : Bytes} (htext : 34 ∉ text) : WordRest (34 :: text) text []

/-- The words of a text, with blanks around them. -/
inductive Words : Bytes → List Bytes → Prop where
  | nil : Words [] []
  | lone : Words [92] []
  | blank {c : UInt8} {s : Bytes} {ws : List Bytes} (hc : isBlank c = true) (h : Words s ws) :
    Words (c :: s) ws
  | word {c : UInt8} {s value rest : Bytes} {ws : List Bytes} (hc : isBlank c = false)
    (hlone : c :: s ≠ [92]) (hword : WordRest (c :: s) value rest) (h : Words rest ws) :
    Words (c :: s) (value :: ws)

/-- The words of a line: a `!` or a `$` in front of everything is one. -/
inductive LineWords : Bytes → List Bytes → Prop where
  | split {c : UInt8} {s : Bytes} {ws : List Bytes} (hc : c = 33 ∨ c = 36) (h : Words s ws) :
    LineWords (c :: s) ([c] :: ws)
  | plain {line : Bytes} {ws : List Bytes} (hline : ∀ c ∈ line.head?, c ≠ 33 ∧ c ≠ 36)
    (h : Words line ws) : LineWords line ws

/-- All the words are returned in order, and nothing is written past `rargv[20]` or `argbuf[200]`. -/
def Splits (altarg : Option Bytes) (line : Bytes) (ws : List Bytes) : Prop :=
  (makeargv altarg line).argv = ws ∧ (makeargv altarg line).rargv ≤ 20 ∧
    (makeargv altarg line).argbuf ≤ 200

variable {st : Scanner} {s value rest line text : Bytes} {ws : List Bytes} {c : UInt8}

/-! ## One word -/

theorem slurp_quoted (htext : 34 ∉ text) (s : Bytes) : slurp .S3 (text ++ 34 :: s) =
    (text ++ (slurp .S1 s).1, (slurp .S1 s).2) := by
  induction text with
  | nil => rw [List.nil_append, slurp, if_pos rfl]; rfl
  | cons c text ih =>
    rw [List.mem_cons, not_or] at htext
    rw [List.cons_append, slurp, if_neg (Ne.symm htext.1), ih htext.2]
    rfl

theorem slurp_unclosed (htext : 34 ∉ text) : slurp .S3 text = (text, []) := by
  induction text with
  | nil => rfl
  | cons c text ih =>
    rw [List.mem_cons, not_or] at htext
    rw [slurp, if_neg (Ne.symm htext.1), ih htext.2]

theorem WordRest.slurp_eq (h : WordRest s value rest) : slurp .S1 s = (value, rest) := by
  induction h with
  | @done s h =>
    cases s with
    | nil => rfl
    | cons c s => rw [slurp, if_pos (h c rfl)]
  | char hblank hc _ ih =>
    rw [slurp, if_neg (ne_true_of_eq_false hblank), if_neg hc.1, if_neg hc.2, ih]
  | escaped c _ ih =>
    rw [slurp, if_neg (by decide), if_pos rfl, slurp, ih]
  | lone => rfl
  | quoted htext _ ih =>
    rw [slurp, if_neg (by decide), if_neg (by decide), if_pos rfl, slurp_quoted htext, ih]
  | unclosed htext =>
    rw [slurp, if_neg (by decide), if_neg (by decide), if_pos rfl, slurp_unclosed htext]

/-- In a quotation the induction needs the text in front. -/
theorem slurp_wordRest (s : Bytes) : WordRest s (slurp .S1 s).1 (slurp .S1 s).2 ∧
    WordRest (92 :: s) (slurp .S2 s).1 (slurp .S2 s).2 ∧
    ∀ text, 34 ∉ text → WordRest (34 :: (text ++ s)) (text ++ (slurp .S3 s).1) (slurp .S3 s).2 := by
  induction s with
  | nil =>
    refine ⟨.done fun c hc => absurd hc (Option.not_mem_none c), .lone, fun text htext => ?_⟩
    rw [List.append_nil]
    exact (List.append_nil text).symm ▸ .unclosed htext
  | cons c s ih =>
    obtain ⟨hS1, hS2, hS3⟩ := ih
    refine ⟨?_, .escaped c hS1, fun text htext => ?_⟩
    · rw [slurp]
      split
      · next hblank => exact .done fun d hd => Option.some.inj hd ▸ hblank
      · next hblank =>
        split
        · next hc => exact hc ▸ hS2
        · next hc =>
          split
          · next hc' => exact hc' ▸ hS3 [] List.not_mem_nil
          · next hc' => exact .char (eq_false_of_ne_true hblank) ⟨hc, hc'⟩ hS1
    · rw [slurp]
      split
      · next hc => exact hc ▸ .quoted htext hS1
      · next hc =>
        have hmem : 34 ∉ text ++ [c] := fun h => (List.mem_append.mp h).elim htext
          fun hlast => hc (List.mem_singleton.mp hlast).symm
        have h := hS3 (text ++ [c]) hmem
        rw [List.append_assoc, List.append_assoc] at h
        exact h

theorem WordRest.length_le (h : WordRest s value rest) : value.length + rest.length ≤ s.length := by
  induction h with
  | done h => exact Nat.le_of_eq (Nat.zero_add _)
  | char _ _ _ ih =>
    rw [List.length_cons, List.length_cons]
    omega
  | escaped _ _ ih =>
    rw [List.length_cons, List.length_cons, List.length_cons]
    omega
  | lone => exact Nat.zero_le _
  | quoted _ _ ih =>
    rw [List.length_append, List.length_cons, List.length_append, List.length_cons]
    omega
  | unclosed _ =>
    rw [List.length_cons]
    exact Nat.le_succ _

theorem WordRest.ends (h : WordRest s value rest) : ∀ c ∈ rest.head?, isBlank c = true := by
  induction h with
  | done h => exact h
  | char _ _ _ ih => exact ih
  | escaped _ _ ih => exact ih
  | lone => exact fun c hc => absurd hc (Option.not_mem_none c)
  | quoted _ _ ih => exact ih
  | unclosed _ => exact fun c hc => absurd hc (Option.not_mem_none c)

theorem WordRest.rest_lt (hc : isBlank c = false) (h : WordRest (c :: s) value rest) :
    rest.length < (c :: s).length := by
  cases h with
  | done h => exact absurd ((h c rfl).symm.trans hc) (by decide)
  | char _ _ h =>
    have hle := h.length_le
    rw [List.length_cons]
    omega
  | escaped d h =>
    have hle := h.length_le
    rw [List.length_cons, List.length_cons]
    omega
  | lone => exact Nat.one_pos
  | quoted _ h =>
    have hle := h.length_le
    rw [List.length_cons, List.length_append, List.length_cons]
    omega
  | unclosed _ => exact Nat.succ_pos _

/-! ## The words of a text -/

theorem Words.first (h : Words s ws) :
    ws = [] ∧ (slurp .S1 (s.dropWhile isBlank)).1 = [] ∨
      ∃ value rest ws', ws = value :: ws' ∧ slurp .S1 (s.dropWhile isBlank) = (value, rest) ∧
        Words rest ws' ∧ rest.length < s.length := by
  induction h with
  | nil => exact Or.inl ⟨rfl, rfl⟩
  | lone => exact Or.inl ⟨rfl, rfl⟩
  | @blank c s ws hc _ ih =>
    rw [List.dropWhile_cons_of_pos hc]
    refine ih.imp_right ?_
    rintro ⟨value, rest, ws', hws, hslurp, hrest, hlength⟩
    exact ⟨value, rest, ws', hws, hslurp, hrest, Nat.lt_succ_of_lt hlength⟩
  | @word c s value rest ws hc _ hword hrest _ =>
    rw [List.dropWhile_cons_of_neg (ne_true_of_eq_false hc)]
    exact Or.inr ⟨value, rest, ws, rfl, hword.slurp_eq, hrest, hword.rest_lt hc⟩

theorem words_exist (s : Bytes) : ∃ ws, Words s ws := by
  induction hn : s.length using Nat.strongRecOn generalizing s with
  | _ n ih =>
    cases s with
    | nil => exact ⟨[], .nil⟩
    | cons c s =>
      cases hc : isBlank c with
      | true =>
        obtain ⟨ws, hws⟩ := ih s.length (hn ▸ Nat.lt_succ_self _) s rfl
        exact ⟨ws, .blank hc hws⟩
      | false =>
        by_cases hlone : c :: s = [92]
        · exact ⟨[], hlone ▸ .lone⟩
        · have hword := (slurp_wordRest (c :: s)).1
          obtain ⟨ws, hws⟩ := ih _ (hn ▸ hword.rest_lt hc) _ rfl
          exact ⟨_, .word hc hlone hword hws⟩

theorem lineWords_exist (line : Bytes) : ∃ ws, LineWords line ws := by
  cases line with
  | nil => exact ⟨[], .plain (fun c hc => absurd hc (Option.not_mem_none c)) .nil⟩
  | cons c s =>
    by_cases hc : c = 33 ∨ c = 36
    · obtain ⟨ws, hws⟩ := words_exist s
      exact ⟨[c] :: ws, .split hc hws⟩
    · obtain ⟨ws, hws⟩ := words_exist (c :: s)
      refine ⟨ws, .plain (fun d hd => ?_) hws⟩
      obtain rfl := Option.some.inj hd
      exact not_or.mp hc

/-! ## `slurpstring` -/

theorem notice_stringbase (st : Scanner) (altarg : Option Bytes) :
    (st.notice altarg).stringbase = st.stringbase ∧ (st.notice altarg).argbase = st.argbase ∧
      (st.notice altarg).slrflag ≠ 0 := by
  unfold Scanner.notice
  split
  · exact ⟨rfl, rfl, Nat.one_ne_zero⟩
  · next hflag =>
    split
    · exact ⟨rfl, rfl, Nat.succ_ne_zero 1⟩
    · exact ⟨rfl, rfl, hflag⟩

theorem word_spec (st : Scanner) {value rest : Bytes}
    (h : slurp .S1 (st.stringbase.dropWhile isBlank) = (value, rest)) :
    value = [] ∧ st.word.1 = none ∧ st.word.2.argbase = st.argbase ∨
      value ≠ [] ∧ st.word.1 = some value ∧ st.word.2.stringbase = rest ∧
        st.word.2.argbase = st.argbase + value.length + 1 ∧ st.word.2.slrflag ≠ 0 := by
  unfold Scanner.word
  split
  · next hend =>
    rw [hend] at h
    obtain ⟨rfl, -⟩ := Prod.mk.inj h
    exact Or.inl ⟨rfl, rfl, (notice_stringbase _ _).2.1⟩
  · next c sb hword =>
    rw [hword] at h
    obtain ⟨-, hargbase, hflag⟩ := notice_stringbase st (some (c :: sb))
    dsimp only
    rw [h]
    split
    · next hnil => exact Or.inl ⟨hnil, rfl, ((notice_stringbase _ _).2.1).trans hargbase⟩
    · next hne =>
      refine Or.inr ⟨hne, rfl, rfl, ?_, hflag⟩
      dsimp only
      rw [hargbase]

theorem slurpstring_word (hfirst : st.slrflag ≠ 0 ∨ ∀ c ∈ st.stringbase.head?, c ≠ 33 ∧ c ≠ 36) :
    ∃ st' : Scanner, slurpstring st = st'.word ∧ st'.stringbase = st.stringbase ∧
      st'.argbase = st.argbase := by
  unfold slurpstring
  split
  · next c sb hline =>
    split
    · next hc =>
      split
      · next hflag =>
        rcases hfirst with hne | hplain
        · exact absurd hflag hne
        · obtain ⟨h33, h36⟩ := hplain c (by rw [hline]; rfl)
          exact absurd hc (not_or.mpr ⟨h33, h36⟩)
      · split
        · exact ⟨_, rfl, rfl, rfl⟩
        · exact ⟨st, rfl, rfl, rfl⟩
    · exact ⟨st, rfl, rfl, rfl⟩
  · exact ⟨st, rfl, rfl, rfl⟩

/-! ## The loop -/

theorem slurpAll_words {fuel : ℕ} (h : Words st.stringbase ws) (hfuel : st.stringbase.length < fuel)
    (hfirst : st.slrflag ≠ 0 ∨ ∀ c ∈ st.stringbase.head?, c ≠ 33 ∧ c ≠ 36) :
    (slurpAll fuel st).1 = ws.takeWhile (fun w => w ≠ []) := by
  induction fuel generalizing st ws with
  | zero => exact absurd hfuel (Nat.not_lt_zero _)
  | succ fuel ih =>
    obtain ⟨st', hstep, hbase, -⟩ := slurpstring_word hfirst
    rw [slurpAll, hstep]
    rcases h.first with ⟨rfl, hnil⟩ | ⟨value, rest, ws', rfl, hslurp, hrest, hlength⟩
    · rw [← hbase] at hnil
      rcases word_spec st' rfl with ⟨-, hnone, -⟩ | ⟨hne, -⟩
      · rw [show st'.word = (none, st'.word.2) from Prod.ext hnone rfl]
        rfl
      · exact absurd hnil hne
    · rw [← hbase] at hslurp
      rcases word_spec st' hslurp with ⟨rfl, hnone, -⟩ | ⟨hne, hsome, hstring, -, hflag⟩
      · rw [show st'.word = (none, st'.word.2) from Prod.ext hnone rfl]
        rfl
      · rw [show st'.word = (some value, st'.word.2) from Prod.ext hsome rfl]
        rw [List.takeWhile_cons, if_pos (decide_eq_true hne)]
        refine congrArg (value :: ·) (ih ?_ ?_ (Or.inl hflag))
        · rwa [hstring]
        · rw [hstring]
          omega

def Within (bound : ℕ) (st : Scanner) : Prop :=
  st.argbase ≤ bound ∧ (st.stringbase.dropWhile isBlank = [] ∨
    st.argbase + (st.stringbase.dropWhile isBlank).length + 1 ≤ bound)

theorem word_room {bound : ℕ} (h : Within bound st) :
    st.word.2.argbase ≤ bound ∧ (st.word.1 ≠ none → Within bound st.word.2) := by
  have hword := (slurp_wordRest (st.stringbase.dropWhile isBlank)).1
  rcases word_spec st rfl with ⟨-, hnone, hargbase⟩ | ⟨hne, -, hstring, hargbase, -⟩
  · exact ⟨hargbase ▸ h.1, fun hsome => absurd hnone hsome⟩
  · rcases h.2 with hnil | hroom
    · rw [hnil] at hne
      exact absurd rfl hne
    · have hle := hword.length_le
      have hends := hword.ends
      generalize slurp .S1 (st.stringbase.dropWhile isBlank) = w at hle hends hstring hargbase
      refine ⟨by omega, fun _ => ⟨by omega, ?_⟩⟩
      rw [hstring, hargbase]
      cases hrest : w.2 with
      | nil => exact Or.inl rfl
      | cons c rest =>
        right
        rw [hrest, List.length_cons] at hle
        rw [List.dropWhile_cons_of_pos (hends c (by rw [hrest]; rfl))]
        have hsuffix := (List.dropWhile_suffix isBlank (l := rest)).length_le
        omega

theorem slurpAll_room {fuel bound : ℕ} (h : Within bound st)
    (hfirst : st.slrflag ≠ 0 ∨ ∀ c ∈ st.stringbase.head?, c ≠ 33 ∧ c ≠ 36) :
    (slurpAll fuel st).2.argbase ≤ bound := by
  induction fuel generalizing st with
  | zero => exact h.1
  | succ fuel ih =>
    obtain ⟨st', hstep, hbase, hargbase⟩ := slurpstring_word hfirst
    have hroom : Within bound st' := by rwa [Within, hbase, hargbase]
    obtain ⟨hbound, hnext⟩ := word_room hroom
    rw [slurpAll, hstep]
    rcases word_spec st' rfl with ⟨-, hnone, -⟩ | ⟨-, hsome, -, -, hflag⟩
    · rw [show st'.word = (none, st'.word.2) from Prod.ext hnone rfl]
      exact hbound
    · rw [show st'.word = (some _, st'.word.2) from Prod.ext hsome rfl]
      exact ih (hnext (hsome ▸ Option.some_ne_none _)) (Or.inl hflag)

theorem slurpAll_line (altarg : Option Bytes) (line : Bytes) :
    (slurpAll (line.length + 1) ⟨line, 0, altarg, 0⟩).2.argbase ≤ line.length + 1 ∧
      ∀ ws, LineWords line ws → (slurpAll (line.length + 1) ⟨line, 0, altarg, 0⟩).1 =
        ws.takeWhile (fun w => w ≠ []) := by
  have hfresh (s : Bytes) {flag bound : ℕ} (hbound : s.length + 1 ≤ bound) :
      Within bound ⟨s, flag, altarg, 0⟩ := by
    have hsuffix := (List.dropWhile_suffix isBlank (l := s)).length_le
    exact ⟨Nat.zero_le _, Or.inr (by dsimp only; omega)⟩
  by_cases hplain : ∀ c ∈ line.head?, c ≠ 33 ∧ c ≠ 36
  · refine ⟨slurpAll_room (hfresh line (Nat.le_refl _)) (Or.inr hplain), fun ws hws => ?_⟩
    cases hws with
    | split hc _ => exact absurd hc (not_or.mpr (hplain _ rfl))
    | plain _ h => exact slurpAll_words h (Nat.lt_succ_self _) (Or.inr hplain)
  · cases line with
    | nil => exact absurd (fun c hc => absurd hc (Option.not_mem_none c)) hplain
    | cons c s =>
      have hc : c = 33 ∨ c = 36 := by
        by_contra hc
        exact hplain fun d hd => Option.some.inj hd ▸ not_or.mp hc
      have hstep : slurpstring ⟨c :: s, 0, altarg, 0⟩ = (some [c], ⟨s, 1, altarg, 0⟩) := by
        rw [slurpstring]
        dsimp only
        rw [if_pos hc, if_pos rfl]
      rw [slurpAll, hstep]
      refine ⟨slurpAll_room (hfresh s (Nat.le_succ _)) (Or.inl Nat.one_ne_zero), fun ws hws => ?_⟩
      cases hws with
      | split _ h =>
        rw [List.takeWhile_cons, if_pos (decide_eq_true (List.cons_ne_nil c []))]
        exact congrArg ([c] :: ·)
          (slurpAll_words h (Nat.lt_succ_self _) (Or.inl Nat.one_ne_zero))
      | plain hline _ => exact absurd hc (not_or.mpr (hline c rfl))

theorem argbuf_le (altarg : Option Bytes) (line : Bytes) :
    (makeargv altarg line).argbuf ≤ line.length + 1 :=
  (slurpAll_line altarg line).1

/-- Every line has words; they are all returned, with nothing written past `rargv` or `argbuf`,
exactly if none of them is empty and there are no more than 19. -/
theorem makeargv_iff (altarg : Option Bytes) (line : Bytes) (hline : line.length < 200) :
    (∃ ws, LineWords line ws) ∧ ∀ ws, LineWords line ws →
      (Splits altarg line ws ↔ [] ∉ ws ∧ ws.length ≤ 19) := by
  refine ⟨lineWords_exist line, fun ws hws => ?_⟩
  have hargv : (makeargv altarg line).argv = ws.takeWhile (fun w => w ≠ []) :=
    (slurpAll_line altarg line).2 ws hws
  have hrargv : (makeargv altarg line).rargv = (makeargv altarg line).argv.length + 1 := rfl
  have hargbuf : (makeargv altarg line).argbuf ≤ 200 :=
    Nat.le_trans (argbuf_le altarg line) hline
  constructor
  · rintro ⟨hall, hplaces, -⟩
    refine ⟨fun hmem => ?_, ?_⟩
    · rw [← hall, hargv] at hmem
      exact absurd (List.mem_takeWhile_imp (p := fun w => w ≠ []) hmem) (by decide)
    · rw [hrargv, hall] at hplaces
      omega
  · rintro ⟨hempty, hcount⟩
    have hall : (makeargv altarg line).argv = ws := by
      rw [hargv]
      exact List.takeWhile_eq_self_iff.mpr fun w hw => decide_eq_true fun h => hempty (h ▸ hw)
    refine ⟨hall, ?_, hargbuf⟩
    rw [hrargv, hall]
    omega

theorem WordRest.blank {c : UInt8} {s : Bytes} (hc : isBlank c = true) :
    WordRest (c :: s) [] (c :: s) := .done (fun d hd => by
  obtain rfl := Option.some.inj hd
  exact hc)

theorem WordRest.nil : WordRest [] [] [] := .done (fun c hc => absurd hc (Option.not_mem_none c))

theorem LineWords.letter {c : UInt8} {s : Bytes} {ws : List Bytes} (hc : c ≠ 33 ∧ c ≠ 36)
    (h : Words (c :: s) ws) : LineWords (c :: s) ws := .plain (fun d hd => by
  obtain rfl := Option.some.inj hd
  exact hc) h

/-- `cd "a b"`. -/
theorem makeargv_quoted :
    Splits none [99, 100, 32, 34, 97, 32, 98, 34] [[99, 100], [97, 32, 98]] := by
  have hcd : WordRest [99, 100, 32, 34, 97, 32, 98, 34] [99, 100] [32, 34, 97, 32, 98, 34] :=
    .char (by decide) (by decide) (.char (by decide) (by decide) (.blank (by decide)))
  have hquoted : WordRest [34, 97, 32, 98, 34] [97, 32, 98] [] :=
    @WordRest.quoted [97, 32, 98] [] [] [] (by decide) .nil
  have hwords : Words [99, 100, 32, 34, 97, 32, 98, 34] [[99, 100], [97, 32, 98]] :=
    .word (by decide) (by decide) hcd
      (.blank (by decide) (.word (by decide) (by decide) hquoted .nil))
  exact ((makeargv_iff none [99, 100, 32, 34, 97, 32, 98, 34] (by decide)).2 _
    (.letter (by decide) hwords)).mpr ⟨by decide, by decide⟩

/-- The words of `a "" b` end in front of the empty one. -/
theorem not_makeargv : ¬ ∀ (altarg : Option Bytes) (line : Bytes), line.length < 200 →
    ∀ ws, LineWords line ws → Splits altarg line ws := by
  intro h
  have hempty : WordRest [34, 34, 32, 98] [] [32, 98] :=
    @WordRest.quoted [] [32, 98] [] [32, 98] List.not_mem_nil (.blank (by decide))
  have hwords : Words [97, 32, 34, 34, 32, 98] [[97], [], [98]] :=
    .word (by decide) (by decide) (.char (by decide) (by decide) (.blank (by decide)))
      (.blank (by decide) (.word (by decide) (by decide) hempty (.blank (by decide)
        (.word (by decide) (by decide) (.char (by decide) (by decide) .nil) .nil))))
  have hargv := (h none [97, 32, 34, 34, 32, 98] (by decide) _ (.letter (by decide) hwords)).1
  exact absurd hargv (by decide +kernel)

end Netkit.Ftp

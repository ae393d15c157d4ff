import Mathlib.Data.List.GetD
import Netkit.Foundations.Lines
import Netkit.Foundations.Loops

/-!
# The windows of talk

A window keeps the lines that have been completed, in `s_lines`, and the line that is being typed, in
`s_typebuf`, which has one byte more than the screen has columns. `display` shows text in a window,
character by character, and `refresh_window` prints the end of both.

* `Tame`, `display_safe`: the texts, and the memory, for which it is.
-/

namespace Netkit.Talk.Display

open Netkit.Foundations

/-! ## Windows -/

/-- The three characters of the terminal, of the type `char`. -/
structure Keys where
  cerase : UInt8
  werase : UInt8
  lerase : UInt8

structure Window where
  /-- The first `s_nlines` of `s_lines`. -/
  lines : List Bytes
  maxlines : ℕ
  /-- The lines for which there is memory. -/
  allocated : ℕ
  /-- The memory of `s_typebuf`. -/
  typebuf : Bytes
  typebufpos : ℕ
  typebufmax : ℕ
  scrollup : ℕ
  keys : Keys
  /-- Whether the next calls of `realloc` succeed; those behind them do. -/
  reallocs : List Bool
  /-- The same for `strdup`. -/
  strdups : List Bool

/-- `init_window`; `typebuf` is the memory as `malloc` gives it. -/
def initWindow (cols : ℕ) (keys : Keys) (typebuf : Bytes) (reallocs strdups : List Bool) :
    Window where
  lines := []
  maxlines := 32
  allocated := 32
  typebuf := typebuf
  typebufpos := 0
  typebufmax := cols + 1
  scrollup := 0
  keys := keys
  reallocs := reallocs
  strdups := strdups

def maxMaxlines : ℕ := 16384

/-- Why `display` does not go on. -/
inductive Stop where
  /-- `p_error`: the program ends. -/
  | exited
  | assertion
  /-- Memory that has not been allocated is used. -/
  | outside
  /-- A loop has not ended after so many rounds. -/
  | running
deriving DecidableEq

/-! ## The program -/

def store (w : Window) (i : ℕ) (c : UInt8) : Except Stop Window :=
  if i < w.typebuf.length then .ok { w with typebuf := w.typebuf.set i c } else .error .outside

def string (typebuf : Bytes) : Except Stop Bytes :=
  if 0 ∈ typebuf then .ok (cstring typebuf) else .error .outside

def displayLerase (w : Window) : Except Stop Window := do
  let w ← store w 0 0
  return { w with typebufpos := 0 }

def discardTopLine (w : Window) : Except Stop Window :=
  if w.lines = [] then .error .assertion else .ok { w with lines := w.lines.tail }

/-- The beginning of `display_eol`: there is to be room for one more line. -/
def grow (w : Window) : Except Stop Window :=
  if w.lines.length = w.maxlines then
    if w.maxlines < maxMaxlines then
      let grown := { w with maxlines := w.maxlines * 2, reallocs := w.reallocs.tail }
      if w.reallocs.headD true then .ok { grown with allocated := grown.maxlines }
      else discardTopLine grown
    else discardTopLine w
  else .ok w

/-- The loop around `strdup`. -/
def duplicate : List Bool → Window → Except Stop Window
  | [], w => .ok { w with strdups := [] }
  | true :: strdups, w => .ok { w with strdups := strdups }
  | false :: strdups, w =>
    if w.lines = [] then .error .exited
    else do
      let w ← discardTopLine w
      duplicate strdups w

def displayEol (w : Window) : Except Stop Window := do
  let w ← grow w
  if w.maxlines ≤ w.lines.length then .error .assertion
  else
    let text ← string w.typebuf
    let w ← duplicate w.strdups w
    if w.allocated ≤ w.lines.length then .error .outside
    else displayLerase { w with lines := w.lines ++ [text] }

def displayAddch (w : Window) (ch : UInt8) : Except Stop Window := do
  let w ← if w.typebufpos + 2 = w.typebufmax then displayEol w else .ok w
  let w ← store w w.typebufpos ch
  let w ← store w (w.typebufpos + 1) 0
  return { w with typebufpos := w.typebufpos + 1 }

def displayTab : ℕ → Window → Except Stop Window
  | 0, _ => .error .running
  | fuel + 1, w =>
    if w.typebufpos % 8 ≠ 0 then do
      let w ← displayAddch w 32
      displayTab fuel w
    else .ok w

def displayCerase (w : Window) : Except Stop Window :=
  if 0 < w.typebufpos then
    store { w with typebufpos := w.typebufpos - 1 } (w.typebufpos - 1) 0
  else .ok w

/-- The loop of `display_werase`, from `pos` on downwards. -/
def weraseFrom (typebuf : Bytes) (lastpos : ℕ) : ℕ → ℕ
  | 0 => 0
  | pos + 1 =>
    let onword := pos + 1 < lastpos ∧ typebuf.getD (pos + 1) 0 ≠ 32
    let prevspace := typebuf.getD pos 0 = 32
    if onword ∧ prevspace then pos + 1 else weraseFrom typebuf lastpos pos

def displayWerase (w : Window) : Except Stop Window := do
  let pos := weraseFrom w.typebuf w.typebufpos w.typebufpos
  let w ← store w pos 0
  return { w with typebufpos := pos }

/-- What `display` tells apart. -/
inductive Action where
  | eol
  | cerase
  | werase
  | lerase
  | nothing
  | tab
  | control
  | addch
deriving DecidableEq

/-- `text[j] == key`, where `key` has the type `char`. -/
def isKey (key c : UInt8) : Bool := key < 128 && c == key

def Keys.action (keys : Keys) (c : UInt8) : Action :=
  if c = 10 ∨ c = 13 then .eol
  else if c = 8 ∨ c = 127 ∨ isKey keys.cerase c then .cerase
  else if isKey keys.werase c then .werase
  else if isKey keys.lerase c then .lerase
  else if c = 7 then .nothing
  else if c = 12 then .nothing
  else if c = 9 then .tab
  else if c &&& 0x7f < 32 then .control
  else .addch

def displayChar (fuel : ℕ) (w : Window) (c : UInt8) : Except Stop Window :=
  match w.keys.action c with
  | .eol => displayEol w
  | .cerase => displayCerase w
  | .werase => displayWerase w
  | .lerase => displayLerase w
  | .nothing => .ok w
  | .tab => displayTab fuel w
  | .control => do
    let w ← displayAddch w 94
    displayAddch w ((c &&& 63) + 64)
  | .addch => displayAddch w c

def display (fuel : ℕ) (w : Window) (text : Bytes) : Except Stop Window :=
  text.foldlM (displayChar fuel) w

/-- What `refresh_window` prints in the row for `line`. -/
def row (w : Window) (line : Int) : Except Stop Bytes :=
  if 0 ≤ line ∧ line < w.lines.length then .ok (w.lines.getD line.toNat [])
  else if line = w.lines.length then string w.typebuf
  else .ok []

def refreshWindow (w : Window) (nlines : ℕ) : List (Except Stop Bytes) :=
  (List.range nlines).map fun i => row w (w.lines.length - (nlines - 1) + i - w.scrollup)

/-! ## What is to be seen -/

structure View where
  lines : List Bytes
  line : Bytes

def View.eol (v : View) : View := ⟨v.lines ++ [v.line], []⟩

def View.addch (cols : ℕ) (v : View) (c : UInt8) : View :=
  if v.line.length + 1 < cols then ⟨v.lines, v.line ++ [c]⟩ else ⟨v.lines ++ [v.line], [c]⟩

def View.tab (cols : ℕ) (v : View) : View :=
  let next := (v.line.length / 8 + 1) * 8
  if next < cols then ⟨v.lines, v.line ++ List.replicate (next - v.line.length) 32⟩
  else
    ⟨v.lines ++ [v.line ++ List.replicate (cols - 1 - v.line.length) 32], List.replicate 8 32⟩

def eraseBlanks (line : Bytes) : Bytes := (line.reverse.dropWhile (· == 32)).reverse

def eraseLetters (line : Bytes) : Bytes := (line.reverse.dropWhile (· != 32)).reverse

def View.display (cols : ℕ) (keys : Keys) (v : View) (c : UInt8) : View :=
  match keys.action c with
  | .eol => v.eol
  | .cerase => ⟨v.lines, v.line.dropLast⟩
  | .werase => ⟨v.lines, eraseLetters (eraseBlanks v.line)⟩
  | .lerase => ⟨v.lines, []⟩
  | .nothing => v
  | .tab => v.tab cols
  | .control => (v.addch cols 94).addch cols ((c &&& 63) + 64)
  | .addch => v.addch cols c

/-- The window is in order, and what it shows has been displayed; lines may have been discarded at
the top. -/
structure Safe (w : Window) (v : View) : Prop where
  pos : w.typebufpos < w.typebufmax
  nul : w.typebuf[w.typebufpos]? = some 0
  lines : w.lines.length ≤ w.allocated
  stored : w.lines <:+ v.lines
  line : string w.typebuf = .ok v.line
  printed : ∀ scrollup nlines, ∀ text ∈ refreshWindow { w with scrollup := scrollup } nlines,
    ∃ t, text = .ok t ∧ (t = [] ∨ t = v.line ∨ t ∈ v.lines)

/-- Tabs are not at a multiple of eight, and the screen has room for one. -/
def Tame (cols : ℕ) (keys : Keys) : View → Bytes → Prop
  | _, [] => True
  | v, c :: text =>
    (keys.action c = .tab → v.line.length % 8 ≠ 0 ∧ 9 ≤ cols) ∧
      Tame cols keys (v.display cols keys c) text

instance (cols : ℕ) (keys : Keys) : ∀ v text, Decidable (Tame cols keys v text)
  | _, [] => isTrue trivial
  | v, c :: text =>
    have : Decidable (keys.action c = .tab) := inferInstance
    have := instDecidableTame cols keys (v.display cols keys c) text
    inferInstanceAs (Decidable (_ ∧ _))

/-! ## The buffer -/

variable {cols : ℕ} {keys : Keys} {w : Window} {v : View} {c : UInt8}

/-- The line, its NUL and what is behind it. -/
structure Shows (cols : ℕ) (keys : Keys) (w : Window) (v : View) : Prop where
  keys : w.keys = keys
  max : w.typebufmax = cols + 1
  length : w.typebuf.length = cols + 1
  text : ∃ rest, w.typebuf = v.line ++ 0 :: rest
  noNul : 0 ∉ v.line
  pos : w.typebufpos = v.line.length
  width : v.line.length < cols
  lines : w.lines <:+ v.lines
  room : w.lines.length ≤ w.maxlines ∧ 0 < w.maxlines
  allocated : w.maxlines = w.allocated
  reallocs : ∀ b ∈ w.reallocs, b = true

/-- Only `p_error` ends the program. -/
abbrev Ends (P : Window → Prop) (x : Except Stop Window) : Prop := Post (· = .exited) P x

theorem string_line {line rest : Bytes} (h : 0 ∉ line) : string (line ++ 0 :: rest) = .ok line := by
  rw [string, if_pos (by simp), cstring_append_zero, cstring_eq_self h]

theorem store_eq {i : ℕ} (hi : i < w.typebuf.length) :
    store w i c = .ok { w with typebuf := w.typebuf.set i c } := if_pos hi

theorem Shows.cut (h : Shows cols keys w v) {n : ℕ} (hn : n ≤ v.line.length) :
    Shows cols keys { w with typebuf := w.typebuf.set n 0, typebufpos := n }
      ⟨v.lines, v.line.take n⟩ := by
  obtain ⟨rest, htext⟩ := h.text
  refine { h with
    length := (List.length_set ..).trans h.length
    text := ?_
    noNul := fun hmem => h.noNul (List.mem_of_mem_take hmem)
    pos := (List.length_take_of_le hn).symm
    width := Nat.lt_of_le_of_lt (List.length_take_le' n v.line) h.width }
  refine ⟨(v.line ++ 0 :: rest).drop (n + 1), ?_⟩
  have hlt : n < (v.line ++ 0 :: rest).length := by
    rw [List.length_append, List.length_cons]
    omega
  rw [htext, List.set_eq_take_append_cons_drop, if_pos hlt, List.take_append_of_le_length hn]

theorem displayLerase_shows (h : Shows cols keys w v) :
    Ends (Shows cols keys · ⟨v.lines, []⟩) (displayLerase w) := by
  have hcut := h.cut (Nat.zero_le v.line.length)
  rw [List.take_zero] at hcut
  rw [displayLerase, store_eq (by rw [h.length]; omega)]
  exact hcut

theorem displayCerase_shows (h : Shows cols keys w v) :
    Ends (Shows cols keys · ⟨v.lines, v.line.dropLast⟩) (displayCerase w) := by
  rw [List.dropLast_eq_take, displayCerase, h.pos]
  split
  · rw [store_eq (by show v.line.length - 1 < w.typebuf.length; rw [h.length]; have := h.width; omega)]
    exact h.cut (Nat.sub_le _ 1)
  · next hempty =>
    have hzero : v.line = [] := List.eq_nil_of_length_eq_zero (by omega)
    have hview : (⟨v.lines, v.line.take (v.line.length - 1)⟩ : View) = v := by
      cases v
      cases hzero
      rfl
    rw [hview]
    exact h

/-! ## Words -/

theorem eraseBlanks_append (line : Bytes) (c : UInt8) :
    eraseBlanks (line ++ [c]) = if c = 32 then eraseBlanks line else line ++ [c] := by
  rw [eraseBlanks, List.reverse_append, List.reverse_singleton, List.singleton_append,
    List.dropWhile_cons]
  by_cases hc : c = 32
  · rw [if_pos (beq_iff_eq.mpr hc), if_pos hc]
    rfl
  · rw [if_neg (mt beq_iff_eq.mp hc), if_neg hc, List.reverse_cons, List.reverse_reverse]

theorem eraseLetters_append (line : Bytes) (c : UInt8) :
    eraseLetters (line ++ [c]) = if c = 32 then line ++ [c] else eraseLetters line := by
  rw [eraseLetters, List.reverse_append, List.reverse_singleton, List.singleton_append,
    List.dropWhile_cons]
  by_cases hc : c = 32
  · rw [if_neg (by simp [hc]), if_pos hc, List.reverse_cons, List.reverse_reverse]
  · rw [if_pos (bne_iff_ne.mpr hc), if_neg hc]
    rfl

theorem eraseWord_prefix (line : Bytes) : eraseLetters (eraseBlanks line) <+: line := by
  have hblanks : eraseBlanks line <+: line := by
    have h := List.reverse_prefix.mpr (List.dropWhile_suffix (l := line.reverse) (· == 32))
    rwa [List.reverse_reverse] at h
  have hletters : eraseLetters (eraseBlanks line) <+: eraseBlanks line := by
    have h := List.reverse_prefix.mpr
      (List.dropWhile_suffix (l := (eraseBlanks line).reverse) (· != 32))
    rwa [List.reverse_reverse] at h
  exact hletters.trans hblanks

/-- The induction is on `pos`: what the loop finds from there is what is left of the line up to
there. -/
theorem weraseFrom_eq {l rest : Bytes} {pos : ℕ} (hpos : pos < l.length) :
    weraseFrom (l ++ rest) l.length pos =
      (eraseLetters (eraseBlanks (l.take (pos + 1)))).length := by
  have hgetD {i : ℕ} (hi : i < l.length) : (l ++ rest).getD i 0 = l[i] := by
    rw [List.getD_append _ _ _ _ hi, List.getD_eq_getElem _ _ hi]
  induction pos with
  | zero =>
    rw [List.take_succ_eq_append_getElem hpos, List.take_zero, eraseBlanks_append]
    split
    · rfl
    · next hc => rw [eraseLetters_append, if_neg hc]; rfl
  | succ pos ih =>
    have hprev : pos < l.length := by omega
    have hbefore := ih hprev
    rw [weraseFrom, hgetD hpos, hgetD hprev, hbefore, List.take_succ_eq_append_getElem hpos,
      eraseBlanks_append]
    by_cases hc : l[pos + 1] = 32
    · rw [if_neg (fun h => h.1.2 hc), if_pos hc]
    · rw [if_neg hc, eraseLetters_append, if_neg hc, List.take_succ_eq_append_getElem hprev,
        eraseLetters_append, eraseBlanks_append]
      by_cases hblank : l[pos] = 32
      · rw [if_pos ⟨⟨hpos, hc⟩, hblank⟩, if_pos hblank, ← List.take_succ_eq_append_getElem hprev,
          List.length_take_of_le (by omega)]
      · rw [if_neg (fun h => hblank h.2), if_neg hblank, if_neg hblank, eraseLetters_append,
          if_neg hblank]

theorem weraseFrom_line (line rest : Bytes) :
    weraseFrom (line ++ rest) line.length line.length =
      (eraseLetters (eraseBlanks line)).length := by
  cases hlength : line.length with
  | zero =>
    rw [List.eq_nil_of_length_eq_zero hlength]
    rfl
  | succ n =>
    have h : weraseFrom (line ++ rest) line.length n =
        (eraseLetters (eraseBlanks (line.take (n + 1)))).length := weraseFrom_eq (by omega)
    rw [← hlength, List.take_length] at h
    rw [weraseFrom, if_neg (fun h => Nat.lt_irrefl _ h.1.1), ← hlength, h]

theorem displayWerase_shows (h : Shows cols keys w v) :
    Ends (Shows cols keys · ⟨v.lines, eraseLetters (eraseBlanks v.line)⟩) (displayWerase w) := by
  obtain ⟨rest, htext⟩ := h.text
  have hpos : weraseFrom w.typebuf w.typebufpos w.typebufpos =
      (eraseLetters (eraseBlanks v.line)).length := by
    rw [htext, h.pos, weraseFrom_line]
  have hprefix := eraseWord_prefix v.line
  have hcut := h.cut hprefix.length_le
  rw [← List.prefix_iff_eq_take.mp hprefix] at hcut
  rw [displayWerase, hpos, store_eq (by
    have := h.width
    have := hprefix.length_le
    rw [h.length]
    omega)]
  exact hcut

/-! ## Lines -/

def Roomy (cols : ℕ) (keys : Keys) (v : View) (w : Window) : Prop :=
  Shows cols keys w v ∧ w.lines.length < w.maxlines

theorem tail_suffix {α : Type} {a b : List α} (h : a <:+ b) : a.tail <:+ b :=
  (List.tail_suffix a).trans h

theorem grow_shows (h : Shows cols keys w v) : Ends (Roomy cols keys v) (grow w) := by
  have hdiscard (hfull : w.lines.length = w.maxlines) : Ends (Roomy cols keys v) (discardTopLine w) := by
    have hpos := h.room.2
    have hne : w.lines ≠ [] := List.ne_nil_of_length_pos (by omega)
    have hlength := List.length_tail (l := w.lines)
    rw [discardTopLine, if_neg hne]
    refine ⟨{ h with lines := tail_suffix h.lines, room := ⟨?_, hpos⟩ }, ?_⟩
    · show w.lines.tail.length ≤ w.maxlines
      omega
    · show w.lines.tail.length < w.maxlines
      omega
  rw [grow]
  split
  · next hfull =>
    split
    · have hrealloc : w.reallocs.headD true = true := by
        cases hlist : w.reallocs with
        | nil => rfl
        | cons b rest => exact h.reallocs b (hlist ▸ List.mem_cons_self)
      rw [if_pos hrealloc]
      have hpos := h.room.2
      refine ⟨{ h with room := ⟨?_, ?_⟩, allocated := rfl, reallocs := ?_ }, ?_⟩
      · show w.lines.length ≤ w.maxlines * 2
        omega
      · show 0 < w.maxlines * 2
        omega
      · exact fun b hb => h.reallocs b (List.mem_of_mem_tail hb)
      · show w.lines.length < w.maxlines * 2
        omega
    · exact hdiscard hfull
  · next hroom => exact ⟨h, Nat.lt_of_le_of_ne h.room.1 hroom⟩

/-- The induction is on the calls of `strdup`; one that fails costs a line. -/
theorem duplicate_shows {strdups : List Bool} (h : Roomy cols keys v w) :
    Ends (Roomy cols keys v) (duplicate strdups w) := by
  induction strdups generalizing w with
  | nil => exact ⟨{ h.1 with }, h.2⟩
  | cons b strdups ih =>
    cases b with
    | true => exact ⟨{ h.1 with }, h.2⟩
    | false =>
      rw [duplicate]
      split
      · exact rfl
      · next hne =>
        rw [discardTopLine, if_neg hne]
        have hlength := List.length_tail (l := w.lines)
        have hroom := h.2
        refine ih ⟨{ h.1 with lines := tail_suffix h.1.lines, room := ⟨?_, h.1.room.2⟩ }, ?_⟩
        · show w.lines.tail.length ≤ w.maxlines
          omega
        · show w.lines.tail.length < w.maxlines
          omega

theorem displayEol_shows (h : Shows cols keys w v) :
    Ends (Shows cols keys · v.eol) (displayEol w) := by
  rw [displayEol]
  refine post_bind (grow_shows h) fun w hw => ?_
  obtain ⟨rest, htext⟩ := hw.1.text
  rw [if_neg (Nat.not_le.mpr hw.2), htext, string_line hw.1.noNul]
  refine post_bind (x := duplicate w.strdups w) (duplicate_shows hw) fun w hw => ?_
  have hallocated := hw.1.allocated
  rw [if_neg (by have := hw.2; omega)]
  refine displayLerase_shows (v := ⟨v.lines ++ [v.line], v.line⟩) { hw.1 with lines := ?_, room := ⟨?_, hw.1.room.2⟩ }
  · obtain ⟨top, htop⟩ := hw.1.lines
    exact ⟨top, by rw [← htop, List.append_assoc]⟩
  · show (w.lines ++ [v.line]).length ≤ w.maxlines
    rw [List.length_append, List.length_singleton]
    exact hw.2

/-! ## Characters -/

theorem append_shows (h : Shows cols keys w v) (hc : c ≠ 0) (hroom : v.line.length + 1 < cols) :
    Ends (Shows cols keys · ⟨v.lines, v.line ++ [c]⟩) (do
      let w ← store w w.typebufpos c
      let w ← store w (w.typebufpos + 1) 0
      return { w with typebufpos := w.typebufpos + 1 }) := by
  obtain ⟨rest, htext⟩ := h.text
  have hlength := h.length
  rw [htext, List.length_append, List.length_cons] at hlength
  obtain ⟨d, rest, rfl⟩ := List.exists_cons_of_length_pos (l := rest) (by omega)
  have hset : (w.typebuf.set w.typebufpos c).set (w.typebufpos + 1) 0 =
      (v.line ++ [c]) ++ 0 :: rest := by
    rw [htext, h.pos]
    simp
  rw [store_eq (by rw [h.length, h.pos]; omega)]
  refine post_bind (x := store { w with typebuf := w.typebuf.set w.typebufpos c }
    (w.typebufpos + 1) 0) (P := (· = { w with
      typebuf := (w.typebuf.set w.typebufpos c).set (w.typebufpos + 1) 0 })) ?_ ?_
  · rw [store_eq (by
      rw [List.length_set, h.length, h.pos]
      omega)]
    exact rfl
  · rintro _ rfl
    refine { h with
      length := ?_, text := ⟨rest, hset⟩, noNul := ?_, pos := ?_, width := ?_ }
    · show ((w.typebuf.set w.typebufpos c).set (w.typebufpos + 1) 0).length = cols + 1
      rw [List.length_set, List.length_set, h.length]
    · simpa [h.noNul] using Ne.symm hc
    · show w.typebufpos + 1 = (v.line ++ [c]).length
      rw [List.length_append, h.pos, List.length_singleton]
    · show (v.line ++ [c]).length < cols
      rw [List.length_append, List.length_singleton]
      exact hroom

theorem displayAddch_shows (hcols : 2 ≤ cols) (h : Shows cols keys w v) (hc : c ≠ 0) :
    Ends (Shows cols keys · (v.addch cols c)) (displayAddch w c) := by
  rw [displayAddch, View.addch, h.pos, h.max]
  by_cases hroom : v.line.length + 1 < cols
  · rw [if_pos hroom, if_neg (by omega)]
    exact append_shows h hc hroom
  · have hwidth := h.width
    rw [if_neg hroom, if_pos (by omega)]
    exact post_bind (displayEol_shows h) fun w hw => append_shows hw hc hcols

/-! ## Tabs -/

theorem tab_addch (hcols : 9 ≤ cols) (hwidth : v.line.length < cols) :
    v.tab cols =
      if (v.addch cols 32).line.length % 8 = 0 then v.addch cols 32
      else (v.addch cols 32).tab cols := by
  by_cases hroom : v.line.length + 1 < cols
  · have haddch : v.addch cols 32 = ⟨v.lines, v.line ++ [32]⟩ := if_pos hroom
    rw [haddch]
    simp only [List.length_append, List.length_singleton]
    by_cases hstop : (v.line.length + 1) % 8 = 0
    · have hnext : (v.line.length / 8 + 1) * 8 = v.line.length + 1 := by omega
      rw [if_pos hstop, View.tab, hnext, if_pos hroom, Nat.add_sub_cancel_left]
      rfl
    · have hnext : ((v.line.length + 1) / 8 + 1) * 8 = (v.line.length / 8 + 1) * 8 := by omega
      have hblanks (n : ℕ) (hn : v.line.length < n) :
          v.line ++ List.replicate (n - v.line.length) 32 =
            v.line ++ [32] ++ List.replicate (n - (v.line.length + 1)) 32 := by
        have hsucc : n - v.line.length = n - (v.line.length + 1) + 1 := by omega
        rw [hsucc, List.replicate_succ, List.append_assoc]
        rfl
      rw [if_neg hstop, View.tab, View.tab]
      simp only [List.length_append, List.length_singleton, hnext]
      rw [hblanks _ (by omega), hblanks _ (by omega)]
  · have haddch : v.addch cols 32 = ⟨v.lines ++ [v.line], [32]⟩ := if_neg hroom
    have hlast : cols - 1 - v.line.length = 0 := by omega
    have hstop : ¬(v.addch cols 32).line.length % 8 = 0 := by
      rw [haddch]
      exact Nat.one_ne_zero
    have hnext : 8 < cols := by omega
    have htab : (⟨v.lines ++ [v.line], [32]⟩ : View).tab cols =
        ⟨v.lines ++ [v.line], List.replicate 8 32⟩ := by
      simp [View.tab, hnext]
    rw [if_neg hstop, haddch, htab, View.tab, if_neg (by omega), hlast, List.replicate_zero,
      List.append_nil]

def blanks (cols : ℕ) (v : View) : ℕ :=
  let next := (v.line.length / 8 + 1) * 8
  if next < cols then next - v.line.length else cols - v.line.length + 8

theorem blanks_pos (cols : ℕ) (v : View) : 0 < blanks cols v := by
  rw [blanks]
  split
  · omega
  · omega

theorem blanks_addch (hcols : 9 ≤ cols)
    (hstop : ¬(v.addch cols 32).line.length % 8 = 0) :
    blanks cols (v.addch cols 32) < blanks cols v := by
  by_cases hroom : v.line.length + 1 < cols
  · have haddch : v.addch cols 32 = ⟨v.lines, v.line ++ [32]⟩ := if_pos hroom
    rw [haddch] at hstop ⊢
    simp only [List.length_append, List.length_singleton] at hstop
    simp only [blanks, List.length_append, List.length_singleton]
    have hnext : ((v.line.length + 1) / 8 + 1) * 8 = (v.line.length / 8 + 1) * 8 := by omega
    rw [hnext]
    split
    · omega
    · omega
  · have haddch : v.addch cols 32 = ⟨v.lines ++ [v.line], [32]⟩ := if_neg hroom
    have hnext : 8 < cols := by omega
    have hblanks : blanks cols ⟨v.lines ++ [v.line], [32]⟩ = 7 := by simp [blanks, hnext]
    rw [haddch, hblanks, blanks, if_neg (by omega)]
    omega

/-- The induction is on the blanks that are missing. -/
theorem displayTab_shows (hcols : 9 ≤ cols) {fuel : ℕ} (h : Shows cols keys w v)
    (hfuel : blanks cols v < fuel) (hpos : v.line.length % 8 ≠ 0) :
    Ends (Shows cols keys · (v.tab cols)) (displayTab fuel w) := by
  induction fuel generalizing w v with
  | zero => exact absurd hfuel (Nat.not_lt_zero _)
  | succ fuel ih =>
    have hwidth := h.width
    rw [displayTab, if_pos (by rwa [h.pos])]
    refine post_bind (displayAddch_shows (by omega) h (by decide)) fun w hw => ?_
    rw [tab_addch hcols hwidth]
    split
    · next hstop =>
      have hpositive := blanks_pos cols v
      obtain ⟨n, rfl⟩ := Nat.exists_eq_succ_of_ne_zero (n := fuel) (by omega)
      rw [displayTab, if_neg (by rw [hw.pos]; exact not_not.mpr hstop)]
      exact hw
    · next hstop =>
      have hless := blanks_addch hcols hstop
      exact ih hw (by omega) hstop

/-! ## Texts -/

theorem blanks_le (hwidth : v.line.length < cols) : blanks cols v ≤ cols + 8 := by
  rw [blanks]
  split
  · omega
  · omega

theorem control_ne_zero (c : UInt8) : (c &&& 63) + 64 ≠ 0 := by
  intro h
  have hle : c.toNat &&& 63 ≤ 63 := Nat.and_le_right
  have hzero : ((c.toNat &&& 63) + 64) % 256 = 0 := by
    rw [← UInt8.toNat_inj, UInt8.toNat_add, UInt8.toNat_and] at h
    exact h
  omega

theorem addch_ne_zero (h : keys.action c = .addch) : c ≠ 0 := by
  rintro rfl
  have hcontrol : (0 : UInt8) &&& 0x7f < 32 := by decide
  rw [Keys.action, if_pos hcontrol] at h
  (repeat' split at h) <;> cases h

theorem displayChar_shows (hcols : 2 ≤ cols) (h : Shows cols keys w v)
    (htab : keys.action c = .tab → v.line.length % 8 ≠ 0 ∧ 9 ≤ cols) :
    Ends (Shows cols keys · (v.display cols keys c)) (displayChar (cols + 9) w c) := by
  rw [displayChar, h.keys, View.display]
  cases haction : keys.action c with
  | eol => exact displayEol_shows h
  | cerase => exact displayCerase_shows h
  | werase => exact displayWerase_shows h
  | lerase => exact displayLerase_shows h
  | nothing => exact h
  | tab =>
    obtain ⟨hpos, hwide⟩ := htab haction
    have hblanks := blanks_le h.width
    exact displayTab_shows hwide h (by omega) hpos
  | control =>
    exact post_bind (displayAddch_shows hcols h (by decide)) fun w hw =>
      displayAddch_shows hcols hw (control_ne_zero c)
  | addch => exact displayAddch_shows hcols h (addch_ne_zero haction)

theorem display_shows (hcols : 2 ≤ cols) {text : Bytes} (h : Shows cols keys w v)
    (htame : Tame cols keys v text) :
    Ends (Shows cols keys · (text.foldl (View.display cols keys) v))
      (display (cols + 9) w text) := by
  induction text generalizing w v with
  | nil => exact h
  | cons c text ih =>
    rw [display, List.foldlM_cons]
    exact post_bind (displayChar_shows hcols h htame.1) fun w hw => ih hw htame.2

theorem row_shows (h : Shows cols keys w v) (line : Int) :
    ∃ t, row w line = .ok t ∧ (t = [] ∨ t = v.line ∨ t ∈ v.lines) := by
  rw [row]
  split
  · next hline =>
    refine ⟨_, rfl, .inr (.inr ?_)⟩
    have hlt : line.toNat < w.lines.length := by omega
    rw [List.getD_eq_getElem _ _ hlt]
    exact h.lines.subset (List.getElem_mem hlt)
  · split
    · obtain ⟨rest, htext⟩ := h.text
      exact ⟨v.line, by rw [htext, string_line h.noNul], .inr (.inl rfl)⟩
    · exact ⟨[], rfl, .inl rfl⟩

theorem Shows.safe (h : Shows cols keys w v) : Safe w v where
  pos := by
    have hwidth := h.width
    rw [h.pos, h.max]
    omega
  nul := by
    obtain ⟨rest, htext⟩ := h.text
    rw [htext, h.pos, List.getElem?_append_right (Nat.le_refl _), Nat.sub_self]
    rfl
  lines := h.allocated ▸ h.room.1
  stored := h.lines
  line := by
    obtain ⟨rest, htext⟩ := h.text
    rw [htext, string_line h.noNul]
  printed := fun scrollup nlines text htext => by
    obtain ⟨i, -, rfl⟩ := List.mem_map.mp htext
    exact row_shows (w := { w with scrollup := scrollup }) { h with } _

theorem initWindow_shows (hcols : 2 ≤ cols) {typebuf : Bytes} (hlength : typebuf.length = cols + 1)
    (hnul : typebuf.head? = some 0) {reallocs : List Bool} (hreallocs : ∀ b ∈ reallocs, b = true)
    (strdups : List Bool) :
    Shows cols keys (initWindow cols keys typebuf reallocs strdups) ⟨[], []⟩ where
  keys := rfl
  max := rfl
  length := hlength
  text := by
    cases typebuf with
    | nil => cases hnul
    | cons c rest => exact ⟨rest, by rw [Option.some.inj hnul]; rfl⟩
  noNul := List.not_mem_nil
  pos := rfl
  width := by
    show 0 < cols
    omega
  lines := List.suffix_rfl
  room := ⟨Nat.zero_le _, Nat.succ_pos 31⟩
  allocated := rfl
  reallocs := hreallocs

/-- On a screen of at least two columns, with memory for the typed line that begins with a NUL, and
if no `realloc` fails: every call of `display` ends, and leaves the window in order. -/
theorem display_safe (hcols : 2 ≤ cols) {typebuf : Bytes} (hlength : typebuf.length = cols + 1)
    (hnul : typebuf.head? = some 0) {reallocs : List Bool} (hreallocs : ∀ b ∈ reallocs, b = true)
    (strdups : List Bool) {text : Bytes} (htame : Tame cols keys ⟨[], []⟩ text) :
    ∃ fuel, Ends (Safe · (text.foldl (View.display cols keys) ⟨[], []⟩))
      (display fuel (initWindow cols keys typebuf reallocs strdups) text) :=
  ⟨cols + 9, post_mono (display_shows hcols
    (initWindow_shows hcols hlength hnul hreallocs strdups) htame) fun _ h => h.safe⟩

/-- A tab, a control character and a word that is erased, on a screen on which the line is full, while
`strdup` fails once. -/
theorem display_safe_narrow :
    ∃ fuel, Ends (Safe · ([97, 9, 98, 1, 99, 32, 23, 10].foldl
        (View.display 10 ⟨2, 23, 21⟩) ⟨[], []⟩))
      (display fuel (initWindow 10 ⟨2, 23, 21⟩ (List.replicate 11 0) [true] [true, false])
        [97, 9, 98, 1, 99, 32, 23, 10]) :=
  display_safe (by decide) rfl rfl (by decide) [true, false] (by decide)

/-- `init_window` stores nothing in the memory for the typed line, which is printed at once. -/
theorem not_display_safe :
    ¬ ∀ (cols : ℕ) (keys : Keys) (typebuf : Bytes) (reallocs strdups : List Bool) (text : Bytes),
      0 < cols → typebuf.length = cols + 1 →
        ∃ fuel, Ends (Safe · (text.foldl (View.display cols keys) ⟨[], []⟩))
          (display fuel (initWindow cols keys typebuf reallocs strdups) text) := by
  intro h
  obtain ⟨fuel, hends⟩ := h 80 ⟨2, 23, 21⟩ (List.replicate 81 65) [] [] [] (by decide) rfl
  have hnul := hends.nul
  revert hnul
  decide

end Netkit.Talk.Display

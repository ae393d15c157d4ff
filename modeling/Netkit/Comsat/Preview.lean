import Mathlib.Algebra.BigOperators.Group.List.Basic
import Mathlib.Algebra.Order.Ring.Nat
import Netkit.Foundations.Lines

/-!
# The mail preview of comsat

`jkfprintf` writes the beginning of the new mail to the terminal of the user, from the offset of the
biff packet on. It reads with `fgets`: a line of 8192 bytes or more comes in several pieces, and it
treats each of them as a line.

* `Tame`, `harmless_iff`: the texts of which nothing else is written.
-/

namespace Netkit.Comsat

open Netkit.Foundations

variable {τ : Type*}

abbrev Text (τ : Type*) := List (UInt8 × τ)

/-! ## The program -/

/-- What calls of `fgets` read, one after the other, at most `size` bytes each; `cur` is what has
been read so far. -/
def chunks (size : ℕ) : Text τ → Text τ → List (Text τ)
  | [], cur => if cur.isEmpty then [] else [cur]
  | c :: text, cur =>
    if c.1 = 10 ∨ cur.length + 1 = size then (cur ++ [c]) :: chunks size text []
    else chunks size text (cur ++ [c])

def isPrint (c : UInt8) : Bool := 32 ≤ c && c ≤ 126

def isSpace (c : UInt8) : Bool := c == 32 || (9 ≤ c && c ≤ 13)

/-- `toascii`, and the `strip weird stuff`. -/
def clean (c : UInt8) : UInt8 :=
  let ch := c &&& 0x7f
  if !isPrint ch && !isSpace ch then ch ||| 0x40 else ch

def toLower (c : UInt8) : UInt8 := if 65 ≤ c ∧ c ≤ 90 then c + 32 else c

/-- `strncasecmp` with a string of lower-case letters and its length finds no difference. -/
def startsWith (name : Bytes) (line : Bytes) : Bool := (line.take name.length).map toLower == name

/-- `From:` or `Subject:`. -/
def isNamed (line : Bytes) : Bool :=
  startsWith (ascii "from:") line || startsWith (ascii "subject:") line

inductive Output (τ : Type*) where
  /-- A character of the message. -/
  | char (c : UInt8 × τ)
  | text (t : Bytes)

def visible (line : Text τ) : Text τ := line.takeWhile fun c => c.1 != 0 && c.1 != 10

def strip (line : Text τ) : Text τ := (visible line).map fun c => (clean c.1, c.2)

def skipped (line : Text τ) : Bool :=
  let text := line.map Prod.fst
  text.head? == some 32 || text.head? == some 9 || !isNamed text

def startsBody (line : Text τ) : Bool := (line.map Prod.fst).head? == some 10

def preview (cr : Bytes) : List (Text τ) → Int → Int → Bool → List (Output τ)
  | [], _, _, _ => [.text (ascii "----" ++ cr)]
  | line :: lines, linecnt, charcnt, inheader =>
    if inheader && startsBody line then preview cr lines linecnt charcnt false
    else if inheader && skipped line then preview cr lines linecnt charcnt inheader
    else if linecnt ≤ 0 ∨ charcnt ≤ 0 then [.text (ascii "...more..." ++ cr)]
    else
      (strip line).map .char ++ .text cr ::
        preview cr lines (linecnt - 1) (charcnt - (visible line).length) inheader

def bufsiz : ℕ := 8192

/-- `fseek` from the beginning; where it fails, the file is read from the beginning. -/
def seek (mailbox : Bytes) (offset : Int) : Bytes :=
  if offset < 0 then mailbox else mailbox.drop offset.toNat

def jkfprintf (text : Text τ) (cr : Bytes) : List (Output τ) :=
  preview cr (chunks (bufsiz - 1) text []) 7 560 true

/-! ## The message -/

/-- The line a byte is in, counted from 0, whether the line is behind the header, and whether it is
a `From:` or `Subject:` line. -/
structure Place where
  line : ℕ
  body : Bool
  named : Bool
deriving DecidableEq

/-- The text from a byte on; `start`: it is the first one of its line. -/
def places (start : Bool) (place : Place) : Bytes → Text Place
  | [] => []
  | c :: text =>
    let place := if start then { place with named := isNamed (c :: text) } else place
    (c, place) ::
      if c = 10 then places true ⟨place.line + 1, place.body || start, false⟩ text
      else places false place text

def marked (text : Bytes) : Text Place := places true ⟨0, false, false⟩ text

def shown (output : List (Output τ)) : Text τ :=
  output.filterMap fun
    | .char c => some c
    | .text _ => none

/-- The characters can be printed or are white space, are from at most seven lines, not more than 560,
and in no other line of the header. -/
structure Harmless (shown : Text Place) : Prop where
  printable : ∀ c ∈ shown, (isPrint c.1 || isSpace c.1) = true
  lines : ∃ lines : List ℕ, lines.length ≤ 7 ∧ ∀ c ∈ shown, c.2.line ∈ lines
  chars : shown.length ≤ 560
  header : ∀ c ∈ shown, c.2.body = true ∨ c.2.named = true

/-! ## The condition -/

/-- The pieces that may be written: those that begin with `From:` or `Subject:`, and all behind the
first that begins with a newline. -/
def candidates : List (Text τ) → List (Text τ)
  | [] => []
  | line :: lines =>
    if startsBody line then lines
    else if skipped line then candidates lines
    else line :: candidates lines

def total (lines : List (Text τ)) : ℕ := (lines.map fun line => (visible line).length).sum

/-- A piece is written that has so many characters before it. -/
structure TamePiece (before : ℕ) (line : Text Place) : Prop where
  noDel : ∀ c ∈ visible line, c.1 &&& 0x7f ≠ 0x7f
  room : before + (visible line).length ≤ 560
  header : ∀ c ∈ visible line, c.2.body = true ∨ c.2.named = true

def Tame (lines : List (Text Place)) : Prop :=
  ∀ before line after, lines = before ++ line :: after → before.length < 7 → total before < 560 →
    TamePiece (total before) line

/-! ## What is written -/

variable {line : Text τ} {lines : List (Text τ)}

/-- Of the candidates the first ones are written, as long as both counts allow it. -/
def written : List (Text τ) → Int → Int → Text τ
  | [], _, _ => []
  | line :: lines, linecnt, charcnt =>
    if linecnt ≤ 0 ∨ charcnt ≤ 0 then []
    else strip line ++ written lines (linecnt - 1) (charcnt - (visible line).length)

theorem shown_strip (cr : Bytes) (output : List (Output τ)) :
    shown ((strip line).map .char ++ .text cr :: output) = strip line ++ shown output := by
  rw [shown, List.filterMap_append, List.filterMap_map]
  congr 1
  exact List.filterMap_some

theorem shown_preview_body (cr : Bytes) (linecnt charcnt : Int) :
    shown (preview cr lines linecnt charcnt false) = written lines linecnt charcnt := by
  induction lines generalizing linecnt charcnt with
  | nil => rfl
  | cons line lines ih =>
    rw [preview, written, Bool.false_and, Bool.false_and, if_neg Bool.false_ne_true,
      if_neg Bool.false_ne_true]
    split
    · rfl
    · rw [shown_strip, ih]

theorem shown_preview (cr : Bytes) (linecnt charcnt : Int) :
    shown (preview cr lines linecnt charcnt true) =
      written (candidates lines) linecnt charcnt := by
  induction lines generalizing linecnt charcnt with
  | nil => rfl
  | cons line lines ih =>
    rw [preview, candidates, Bool.true_and, Bool.true_and]
    split
    · exact shown_preview_body cr linecnt charcnt
    · split
      · exact ih linecnt charcnt
      · rw [written]
        split
        · rfl
        · rw [shown_strip, ih]

/-! ## Printable characters -/

theorem clean_printable (c : UInt8) :
    (isPrint (clean c) || isSpace (clean c)) = true ↔ c &&& 0x7f ≠ 0x7f := by
  have hall : (List.range 256).all (fun n =>
      (isPrint (clean (UInt8.ofNat n)) || isSpace (clean (UInt8.ofNat n))) ==
        (UInt8.ofNat n &&& 0x7f != 0x7f)) = true := by decide +kernel
  have hc := List.all_eq_true.mp hall c.toNat (List.mem_range.mpr c.toNat_lt)
  rw [beq_iff_eq, UInt8.ofNat_toNat] at hc
  rw [hc, bne_iff_ne]

/-! ## The counts -/

/-- The conditions on what is written behind so many characters, but for the number of lines. -/
structure Fits (before : ℕ) (shown : Text Place) : Prop where
  printable : ∀ c ∈ shown, (isPrint c.1 || isSpace c.1) = true
  chars : before + shown.length ≤ 560
  header : ∀ c ∈ shown, c.2.body = true ∨ c.2.named = true

def TameFrom (linecnt before : ℕ) (lines : List (Text Place)) : Prop :=
  ∀ pre line post, lines = pre ++ line :: post → pre.length < linecnt →
    before + total pre < 560 → TamePiece (before + total pre) line

theorem total_cons (line : Text τ) (lines : List (Text τ)) :
    total (line :: lines) = (visible line).length + total lines := by
  rw [total, List.map_cons, List.sum_cons]
  rfl

theorem fits_append {before : ℕ} {line rest : Text Place} :
    Fits before (strip line ++ rest) ↔
      TamePiece before line ∧ Fits (before + (visible line).length) rest := by
  have hlength : (strip line).length = (visible line).length := List.length_map _
  constructor
  · rintro ⟨hprintable, hchars, hheader⟩
    rw [List.length_append, hlength] at hchars
    refine ⟨⟨fun c hc => ?_, by omega, fun c hc => ?_⟩,
      fun c hc => hprintable c (List.mem_append_right _ hc), by omega,
      fun c hc => hheader c (List.mem_append_right _ hc)⟩
    · have hstrip : (clean c.1, c.2) ∈ strip line := List.mem_map_of_mem hc
      exact (clean_printable c.1).mp (hprintable _ (List.mem_append_left _ hstrip))
    · have hstrip : (clean c.1, c.2) ∈ strip line := List.mem_map_of_mem hc
      exact hheader (clean c.1, c.2) (List.mem_append_left _ hstrip)
  · rintro ⟨⟨hdel, hroom, hheader⟩, hprintable, hchars, hrest⟩
    refine ⟨fun c hc => ?_, by rw [List.length_append, hlength]; omega, fun c hc => ?_⟩
    · rcases List.mem_append.mp hc with hc | hc
      · obtain ⟨d, hd, rfl⟩ := List.mem_map.mp hc
        exact (clean_printable d.1).mpr (hdel d hd)
      · exact hprintable c hc
    · rcases List.mem_append.mp hc with hc | hc
      · obtain ⟨d, hd, rfl⟩ := List.mem_map.mp hc
        exact hheader d hd
      · exact hrest c hc

theorem tameFrom_cons {linecnt before : ℕ} {line : Text Place} {lines : List (Text Place)}
    (hbefore : before < 560) :
    TameFrom (linecnt + 1) before (line :: lines) ↔
      TamePiece before line ∧ TameFrom linecnt (before + (visible line).length) lines := by
  constructor
  · intro h
    refine ⟨h [] line lines rfl (Nat.succ_pos _) hbefore, fun pre piece post hlines hpre htotal => ?_⟩
    have hpiece := h (line :: pre) piece post (congrArg (line :: ·) hlines)
      (Nat.succ_lt_succ hpre) (by rw [total_cons]; omega)
    rwa [total_cons, ← Nat.add_assoc] at hpiece
  · rintro ⟨hline, hrest⟩ pre piece post hlines hpre htotal
    cases pre with
    | nil =>
      obtain ⟨rfl, rfl⟩ := List.cons.inj hlines
      exact hline
    | cons first pre =>
      obtain ⟨rfl, htail⟩ := List.cons.inj hlines
      rw [total_cons] at htotal
      rw [total_cons, ← Nat.add_assoc]
      exact hrest pre piece post htail (Nat.lt_of_succ_lt_succ hpre) (by omega)

/-- The induction is on the candidates; one that is written uses up a line and its characters. -/
theorem fits_written {linecnt before : ℕ} (hbefore : before ≤ 560) (lines : List (Text Place)) :
    Fits before (written lines linecnt (560 - before)) ↔ TameFrom linecnt before lines := by
  have hempty (before : ℕ) (h : before ≤ 560) : Fits before [] :=
    ⟨fun c hc => absurd hc List.not_mem_nil, h, fun c hc => absurd hc List.not_mem_nil⟩
  induction lines generalizing linecnt before with
  | nil =>
    refine iff_of_true (hempty before hbefore) fun pre line post hlines => ?_
    exact absurd hlines (List.append_ne_nil_of_right_ne_nil _ (List.cons_ne_nil _ _)).symm
  | cons line lines ih =>
    by_cases hstop : linecnt = 0 ∨ before = 560
    · rw [written, if_pos (by omega)]
      refine iff_of_true (hempty before hbefore) fun pre piece post _ hpre htotal => ?_
      omega
    · obtain ⟨n, rfl⟩ := Nat.exists_eq_succ_of_ne_zero fun h => hstop (.inl h)
      rw [written, if_neg (by omega), fits_append, tameFrom_cons (by omega)]
      refine and_congr_right fun hline => ?_
      have hlinecnt : ((n.succ : ℕ) : Int) - 1 = n := by omega
      have hcharcnt : (560 : Int) - before - (visible line).length =
          560 - ((before + (visible line).length : ℕ) : Int) := by omega
      rw [hlinecnt, hcharcnt]
      exact ih hline.room

/-! ## Lines -/

def OneLine (line : Text Place) : Prop := ∃ k, ∀ c ∈ line, c.2.line = k

theorem written_lines {lines : List (Text Place)} (hlines : ∀ line ∈ lines, OneLine line)
    (linecnt : ℕ) (charcnt : Int) :
    ∃ ks : List ℕ, ks.length ≤ linecnt ∧ ∀ c ∈ written lines linecnt charcnt, c.2.line ∈ ks := by
  induction lines generalizing linecnt charcnt with
  | nil => exact ⟨[], Nat.zero_le _, fun c hc => absurd hc List.not_mem_nil⟩
  | cons line lines ih =>
    rw [written]
    split
    · exact ⟨[], Nat.zero_le _, fun c hc => absurd hc List.not_mem_nil⟩
    · next hgoes =>
      obtain ⟨n, rfl⟩ := Nat.exists_eq_succ_of_ne_zero (n := linecnt) (by omega)
      obtain ⟨k, hk⟩ := hlines line List.mem_cons_self
      obtain ⟨ks, hlength, hks⟩ := ih (fun l hl => hlines l (List.mem_cons_of_mem _ hl)) n
        (charcnt - (visible line).length)
      have hlinecnt : ((n.succ : ℕ) : Int) - 1 = n := by omega
      rw [hlinecnt]
      refine ⟨k :: ks, Nat.succ_le_succ hlength, fun c hc => ?_⟩
      rcases List.mem_append.mp hc with hc | hc
      · obtain ⟨d, hd, rfl⟩ := List.mem_map.mp hc
        have hline : d ∈ line := (List.takeWhile_prefix _).subset hd
        exact (hk d hline) ▸ List.mem_cons_self
      · exact List.mem_cons_of_mem k (hks c hc)

theorem mem_candidates {lines : List (Text τ)} (h : line ∈ candidates lines) : line ∈ lines := by
  induction lines with
  | nil => exact h
  | cons first lines ih =>
    rw [candidates] at h
    split at h
    · exact List.mem_cons_of_mem first h
    · split at h
      · exact List.mem_cons_of_mem first (ih h)
      · rcases List.mem_cons.mp h with rfl | h
        · exact List.mem_cons_self
        · exact List.mem_cons_of_mem first (ih h)

/-- The induction is on the text; what has been read of a piece is of the line of the next byte. -/
theorem chunks_oneLine (size : ℕ) (text : Bytes) {start : Bool} {place : Place} {cur : Text Place}
    (hcur : ∀ c ∈ cur, c.2.line = place.line) :
    ∀ line ∈ chunks size (places start place text) cur, OneLine line := by
  induction text generalizing start place cur with
  | nil =>
    intro line hline
    rw [places, chunks] at hline
    split at hline
    · cases hline
    · rw [List.mem_singleton.mp hline]
      exact ⟨place.line, hcur⟩
  | cons c text ih =>
    intro line hline
    rw [places] at hline
    generalize hplace : (if start then { place with named := isNamed (c :: text) } else place) =
      here at hline
    have hhere : here.line = place.line := by
      rw [← hplace]
      split <;> rfl
    have hread : ∀ d ∈ cur ++ [(c, here)], d.2.line = here.line := by
      intro d hd
      rcases List.mem_append.mp hd with hd | hd
      · rw [hcur d hd, hhere]
      · rw [List.mem_singleton.mp hd]
    rw [chunks] at hline
    split at hline
    · rcases List.mem_cons.mp hline with rfl | hline
      · exact ⟨here.line, hread⟩
      · split at hline
        · exact ih (fun d hd => absurd hd List.not_mem_nil) line hline
        · exact ih (fun d hd => absurd hd List.not_mem_nil) line hline
    · next hmore =>
      rw [if_neg fun hc => hmore (.inl hc)] at hline
      exact ih hread line hline

theorem marked_oneLine (size : ℕ) (text : Bytes) :
    ∀ line ∈ chunks size (marked text) [], OneLine line :=
  chunks_oneLine size text fun _ hc => absurd hc List.not_mem_nil

/-- The preview is harmless if and only if the pieces that are written are tame. -/
theorem harmless_iff (mailbox : Bytes) (offset : Int) (cr : Bytes) :
    Harmless (shown (jkfprintf (marked (seek mailbox offset)) cr)) ↔
      Tame (candidates (chunks (bufsiz - 1) (marked (seek mailbox offset)) [])) := by
  rw [jkfprintf, shown_preview]
  have hfits := @fits_written 7 0 (Nat.zero_le 560)
    (candidates (chunks (bufsiz - 1) (marked (seek mailbox offset)) []))
  have htame : TameFrom 7 0 (candidates (chunks (bufsiz - 1) (marked (seek mailbox offset)) [])) ↔
      Tame (candidates (chunks (bufsiz - 1) (marked (seek mailbox offset)) [])) := by
    simp only [TameFrom, Tame, Nat.zero_add]
  rw [← htame, ← hfits]
  constructor
  · rintro ⟨hprintable, -, hchars, hheader⟩
    exact ⟨hprintable, by rwa [Nat.zero_add], hheader⟩
  · rintro ⟨hprintable, hchars, hheader⟩
    refine ⟨hprintable, ?_, by rwa [Nat.zero_add] at hchars, hheader⟩
    exact written_lines (fun line hline => marked_oneLine _ _ line (mem_candidates hline)) 7 _

/-- A DEL in the body is written as it is. -/
theorem not_harmless :
    ¬ ∀ (mailbox : Bytes) (offset : Int) (cr : Bytes),
      Harmless (shown (jkfprintf (marked (seek mailbox offset)) cr)) := by
  intro h
  have hprintable := (h [10, 0x7f, 10] 0 [10]).printable
  revert hprintable
  decide +kernel

end Netkit.Comsat

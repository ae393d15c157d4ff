import Mathlib.Data.List.Basic
import Netkit.Foundations.ByteOrder

/-!
# What rlogin sends of what is typed

`writer` of `rlogin.c` sends one byte after the other. At the beginning of a line it holds the
escape character back, and the byte behind it decides what it means. The bytes are of the type
`char`, the escape character of the type `u_char`; a special character that is disabled is 0 in
`c_cc`, and a suspend character that the system does not have is taken for 255.

* `Conforms`, `conforms_iff`: the keyboards on which the two are the same.
-/

namespace Netkit.Rlogin.Writer

open Netkit.Foundations

/-! ## The options and the terminal -/

/-- The value of a `char`. -/
def char (c : UInt8) : Int := if c.toNat < 128 then c.toNat else c.toNat - 256

def isSpace (c : UInt8) : Bool := c == 32 || (9 ≤ c && c ≤ 13)

def octalDigits (val : Int) : Bytes → Int
  | c :: w => if 48 ≤ c ∧ c ≤ 55 then octalDigits (val * 8 + (c.toNat - 48)) w else val
  | [] => val

/-- `strtol(p, NULL, 8)`, for a number that is not out of range. -/
def strtol8 (p : Bytes) : Int :=
  match p.dropWhile isSpace with
  | 45 :: w => -octalDigits 0 w
  | 43 :: w => octalDigits 0 w
  | w => octalDigits 0 w

/-- `getescape` of a string; `none` is the message and the end of the program. Of the characters
behind the backslash the first is not looked at, and 8 is let through. -/
def getescape : Bytes → Option UInt8
  | [c] => some c
  | 92 :: c :: w =>
    if w.length ≤ 2 ∧ w.all (fun d => 48 ≤ d && d ≤ 56) then
      some (UInt8.ofNat (strtol8 (c :: w) % 256).toNat)
    else none
  | _ => none

/-- The escape character and whether there is one, and the special characters of the terminal; there
may be no `VDSUSP`. -/
structure Keys where
  noescape : Bool
  escapechar : UInt8
  kill : UInt8
  eof : UInt8
  intr : UInt8
  susp : UInt8
  dsusp : Option UInt8

def Keys.defdsusp (k : Keys) : UInt8 := k.dsusp.getD 0xff

/-! ## The program -/

inductive Action where
  /-- To the server. -/
  | send (c : UInt8)
  /-- To the terminal. -/
  | echo (text : Bytes)
  /-- The whole process group is stopped, or the program alone. -/
  | stop (group : Bool)
  /-- The loop is left, and the session ends. -/
  | close
deriving DecidableEq

/-- The flags of the loop; `isLocal` is `local`. -/
structure State where
  bol : Bool
  isLocal : Bool
deriving DecidableEq

/-- The text that `echo` writes. -/
def echo (k : Keys) (c : UInt8) : Bytes :=
  let c := c &&& 0x7f
  [k.escapechar] ++ (if c < 32 then [94, c + 64] else if c = 0x7f then [94, 63] else [c]) ++ [13, 10]

/-- `c == escapechar`. -/
def Keys.sameEscape (k : Keys) (c : UInt8) : Bool := char c == (k.escapechar.toNat : Int)

/-- The value of `bol` when `c` has been sent. -/
def Keys.lineEnd (k : Keys) (c : UInt8) : Bool :=
  c == k.kill || c == k.eof || c == k.intr || c == k.susp || c == 13 || c == 10

/-- One byte: what is done, and the flags afterwards if the loop goes on. -/
def writeChar (k : Keys) (s : State) (c : UInt8) : List Action × Option State :=
  if s.bol then
    if !k.noescape && k.sameEscape c then ([], some ⟨false, true⟩)
    else ([.send c], some ⟨k.lineEnd c, s.isLocal⟩)
  else if s.isLocal then
    if c = 46 ∨ c = k.eof then ([.echo (echo k c), .close], none)
    else if c = k.susp ∨ c = k.defdsusp then
      ([.echo (echo k c), .stop (c == k.susp)], some ⟨true, false⟩)
    else
      ((if k.sameEscape c then [] else [.send k.escapechar]) ++ [.send c],
        some ⟨k.lineEnd c, false⟩)
  else ([.send c], some ⟨k.lineEnd c, false⟩)

def writer (k : Keys) : State → Bytes → List Action
  | _, [] => []
  | s, c :: typed =>
    match writeChar k s c with
    | (actions, some t) => actions ++ writer k t typed
    | (actions, none) => actions

def effects (actions : List Action) : List Action :=
  actions.filter fun
    | .echo _ => false
    | _ => true

/-! ## What is expected -/

def Keys.isKey (key c : UInt8) : Bool := key != 0 && c == key

def Keys.isSuspend (k : Keys) (c : UInt8) : Bool :=
  isKey k.susp c || k.dsusp.any fun dsusp => isKey dsusp c

def Keys.endsLine (k : Keys) (c : UInt8) : Bool :=
  isKey k.kill c || isKey k.eof c || isKey k.intr c || isKey k.susp c || c == 13 || c == 10

/-- The escape character at the beginning of a line and the byte behind it are read together; all
other bytes are sent. -/
def expected (k : Keys) : Bool → Bytes → List Action
  | _, [] => []
  | bol, [c] => if bol && !k.noescape && c == k.escapechar then [] else [.send c]
  | bol, c :: d :: typed =>
    if bol && !k.noescape && c == k.escapechar then
      if d = 46 ∨ Keys.isKey k.eof d = true then [.close]
      else if k.isSuspend d then .stop (Keys.isKey k.susp d) :: expected k true typed
      else if d = k.escapechar then .send d :: expected k (k.endsLine d) typed
      else .send c :: .send d :: expected k (k.endsLine d) typed
    else .send c :: expected k (k.endsLine c) (d :: typed)

/-- All that can be typed with the bytes of `S` is sent as expected. -/
def Conforms (k : Keys) (S : Set UInt8) : Prop :=
  ∀ typed : Bytes, (∀ c ∈ typed, c ∈ S) → effects (writer k ⟨true, false⟩ typed) = expected k true typed

/-- The escape character is a seven-bit one; if 255 can be typed, it is not taken for a suspend
character that there is not; and if NUL can be typed, no special character is disabled that is
looked for. -/
structure Plain (k : Keys) (S : Set UInt8) : Prop where
  sevenBit : k.escapechar.toNat < 128
  delayed : 255 ∈ S → k.dsusp = none → k.eof = 255 ∨ k.susp = 255
  enabled : 0 ∈ S → k.kill ≠ 0 ∧ k.eof ≠ 0 ∧ k.intr ≠ 0 ∧ k.susp ≠ 0 ∧ k.dsusp ≠ some 0

/-! ## The escape character -/

variable {k : Keys} {S : Set UInt8} {typed : Bytes} {c d : UInt8}

theorem sameEscape_eq (h : k.escapechar.toNat < 128) (c : UInt8) :
    k.sameEscape c = (c == k.escapechar) := by
  rw [Bool.eq_iff_iff, beq_iff_eq, Keys.sameEscape, beq_iff_eq, ← UInt8.toNat_inj, char]
  have hc := c.toNat_lt
  split <;> omega

theorem eq_of_sameEscape (h : k.sameEscape c = true) : c = k.escapechar := by
  rw [Keys.sameEscape, beq_iff_eq, char] at h
  rw [← UInt8.toNat_inj]
  have hc := c.toNat_lt
  split at h <;> omega

theorem sameEscape_eight (h : 128 ≤ k.escapechar.toNat) (c : UInt8) : k.sameEscape c = false := by
  rw [Keys.sameEscape, beq_eq_false_iff_ne, char]
  have hc := c.toNat_lt
  split <;> omega

/-! ## Plain keyboards -/

theorem isKey_eq {key : UInt8} (h : c = 0 → key ≠ 0) : Keys.isKey key c = (c == key) := by
  rw [Bool.eq_iff_iff, Keys.isKey, Bool.and_eq_true, bne_iff_ne, beq_iff_eq]
  constructor
  · exact fun h => h.2
  · rintro rfl
    exact ⟨fun hzero => h hzero hzero, rfl⟩

theorem endsLine_eq (h : Plain k S) (hc : c ∈ S) : k.endsLine c = k.lineEnd c := by
  have henabled : c = 0 → _ := fun hzero => h.enabled (hzero ▸ hc)
  rw [Keys.endsLine, Keys.lineEnd, isKey_eq fun hzero => (henabled hzero).1,
    isKey_eq fun hzero => (henabled hzero).2.1, isKey_eq fun hzero => (henabled hzero).2.2.1,
    isKey_eq fun hzero => (henabled hzero).2.2.2.1]

theorem isSuspend_iff (h : Plain k S) (hc : c ∈ S) (heof : c ≠ k.eof) :
    k.isSuspend c = true ↔ c = k.susp ∨ c = k.defdsusp := by
  have henabled : c = 0 → _ := fun hzero => h.enabled (hzero ▸ hc)
  rw [Keys.isSuspend, Bool.or_eq_true, isKey_eq fun hzero => (henabled hzero).2.2.2.1, beq_iff_eq,
    Keys.defdsusp]
  cases hdsusp : k.dsusp with
  | none =>
    rw [Option.any_none, Option.getD_none]
    refine or_congr_right' fun hsusp => iff_of_false Bool.false_ne_true ?_
    rintro rfl
    rcases h.delayed hc hdsusp with heof' | hsusp'
    · exact heof heof'.symm
    · exact hsusp hsusp'.symm
  | some dsusp =>
    have hkey : Keys.isKey dsusp c = (c == dsusp) :=
      isKey_eq fun hzero => fun hz => (henabled hzero).2.2.2.2 (hz ▸ hdsusp)
    rw [Option.any_some, hkey, beq_iff_eq]
    exact Iff.rfl

theorem effects_append (a b : List Action) : effects (a ++ b) = effects a ++ effects b :=
  List.filter_append a b

theorem writer_cons_some {s t : State} {actions : List Action}
    (h : writeChar k s c = (actions, some t)) :
    writer k s (c :: typed) = actions ++ writer k t typed := by
  rw [writer, h]

theorem writer_cons_none {s : State} {actions : List Action}
    (h : writeChar k s c = (actions, none)) : writer k s (c :: typed) = actions := by
  rw [writer, h]

theorem writeChar_escape (h : (!k.noescape && k.sameEscape c) = true) :
    writeChar k ⟨true, false⟩ c = ([], some ⟨false, true⟩) := by
  rw [writeChar, if_pos rfl, if_pos h]

theorem writeChar_send {bol : Bool} (h : (bol && !k.noescape && k.sameEscape c) = false) :
    writeChar k ⟨bol, false⟩ c = ([.send c], some ⟨k.lineEnd c, false⟩) := by
  unfold writeChar
  cases bol with
  | true =>
    rw [Bool.true_and] at h
    rw [if_pos rfl, if_neg (ne_true_of_eq_false h)]
  | false => rw [if_neg Bool.false_ne_true, if_neg Bool.false_ne_true]

theorem writeChar_close (h : d = 46 ∨ d = k.eof) :
    writeChar k ⟨false, true⟩ d = ([.echo (echo k d), .close], none) := by
  rw [writeChar, if_neg Bool.false_ne_true, if_pos rfl, if_pos h]

theorem writeChar_stop (hclose : ¬(d = 46 ∨ d = k.eof)) (h : d = k.susp ∨ d = k.defdsusp) :
    writeChar k ⟨false, true⟩ d =
      ([.echo (echo k d), .stop (d == k.susp)], some ⟨true, false⟩) := by
  rw [writeChar, if_neg Bool.false_ne_true, if_pos rfl, if_neg hclose, if_pos h]

theorem writeChar_other (hclose : ¬(d = 46 ∨ d = k.eof)) (h : ¬(d = k.susp ∨ d = k.defdsusp)) :
    writeChar k ⟨false, true⟩ d =
      ((if k.sameEscape d then [] else [.send k.escapechar]) ++ [.send d],
        some ⟨k.lineEnd d, false⟩) := by
  rw [writeChar, if_neg Bool.false_ne_true, if_pos rfl, if_neg hclose, if_neg h]

theorem isEof_iff (h : Plain k S) (hd : d ∈ S) :
    d = 46 ∨ Keys.isKey k.eof d = true ↔ d = 46 ∨ d = k.eof := by
  rw [isKey_eq fun hzero => (h.enabled (hzero ▸ hd)).2.1, beq_iff_eq]

/-- The induction is that of `expected`, which reads the escape character and what is behind it at
once. -/
theorem writer_expected (h : Plain k S) (bol : Bool) (htyped : ∀ c ∈ typed, c ∈ S) :
    effects (writer k ⟨bol, false⟩ typed) = expected k bol typed := by
  have hescape (c : UInt8) : k.sameEscape c = (c == k.escapechar) := sameEscape_eq h.sevenBit c
  have hheld_cons {bol : Bool} {c : UInt8} (typed : Bytes)
      (hheld : (bol && !k.noescape && c == k.escapechar) = true) :
      writer k ⟨bol, false⟩ (c :: typed) = writer k ⟨false, true⟩ typed := by
    simp only [Bool.and_eq_true] at hheld
    obtain ⟨⟨rfl, hno⟩, hc⟩ := hheld
    rw [writer_cons_some (writeChar_escape (by rw [hescape, hno, hc]; rfl)), List.nil_append]
  have hsent_cons {bol : Bool} {c : UInt8} (typed : Bytes)
      (hsent : ¬(bol && !k.noescape && c == k.escapechar) = true) :
      writer k ⟨bol, false⟩ (c :: typed) = .send c :: writer k ⟨k.lineEnd c, false⟩ typed := by
    rw [writer_cons_some (writeChar_send (by rw [hescape]; exact Bool.eq_false_iff.mpr hsent))]
    rfl
  induction bol, typed using expected.induct k with
  | case1 bol => rfl
  | case2 bol c hheld =>
    rw [hheld_cons _ hheld, expected, if_pos hheld]
    rfl
  | case3 bol c hsent =>
    rw [hsent_cons _ hsent, expected, if_neg hsent]
    rfl
  | case4 bol c d typed hheld hclose =>
    have hd : d ∈ S := htyped d (by simp)
    rw [hheld_cons _ hheld, writer_cons_none (writeChar_close ((isEof_iff h hd).mp hclose)),
      expected, if_pos hheld, if_pos hclose]
    rfl
  | case5 bol c d typed hheld hclose hsusp ih =>
    have hd : d ∈ S := htyped d (by simp)
    have hclose' := mt (isEof_iff h hd).mpr hclose
    have hsusp' := (isSuspend_iff h hd fun heof => hclose' (.inr heof)).mp hsusp
    rw [hheld_cons _ hheld, writer_cons_some (writeChar_stop hclose' hsusp'), effects_append,
      ih fun b hb => htyped b (by simp [hb]), expected, if_pos hheld, if_neg hclose, if_pos hsusp,
      isKey_eq fun hzero => (h.enabled (hzero ▸ hd)).2.2.2.1]
    rfl
  | case6 bol c typed hheld hclose hsusp ih =>
    have hd : k.escapechar ∈ S := htyped _ (by simp)
    have hclose' := mt (isEof_iff h hd).mpr hclose
    have hsusp' := mt (isSuspend_iff h hd fun heof => hclose' (.inr heof)).mpr hsusp
    rw [hheld_cons _ hheld, writer_cons_some (writeChar_other hclose' hsusp'), effects_append,
      ← endsLine_eq h hd, ih fun b hb => htyped b (by simp [hb]), expected, if_pos hheld,
      if_neg hclose, if_neg hsusp, if_pos rfl, hescape, if_pos (beq_self_eq_true _)]
    rfl
  | case7 bol c d typed hheld hclose hsusp hother ih =>
    have hd : d ∈ S := htyped d (by simp)
    have hclose' := mt (isEof_iff h hd).mpr hclose
    have hsusp' := mt (isSuspend_iff h hd fun heof => hclose' (.inr heof)).mpr hsusp
    have hc : c = k.escapechar := by
      rw [Bool.and_eq_true, beq_iff_eq] at hheld
      exact hheld.2
    rw [hheld_cons _ hheld, writer_cons_some (writeChar_other hclose' hsusp'), effects_append,
      ← endsLine_eq h hd, ih fun b hb => htyped b (by simp [hb]), expected, if_pos hheld,
      if_neg hclose, if_neg hsusp, if_neg hother, hescape, if_neg (mt beq_iff_eq.mp hother), hc]
    rfl
  | case8 bol c d typed hsent ih =>
    have hc : c ∈ S := htyped c (by simp)
    rw [hsent_cons _ hsent, expected, if_neg hsent,
      ← ih fun b hb => htyped b (List.mem_cons_of_mem c hb), endsLine_eq h hc]
    rfl

/-! ## Keyboards without the escape character -/

theorem writer_plain (h : ∀ c ∈ typed, (!k.noescape && k.sameEscape c) = false) (bol : Bool) :
    effects (writer k ⟨bol, false⟩ typed) = typed.map .send := by
  induction typed generalizing bol with
  | nil => rfl
  | cons c typed ih =>
    have hc : (bol && !k.noescape && k.sameEscape c) = false := by
      rw [Bool.and_assoc, h c List.mem_cons_self, Bool.and_false]
    rw [writer_cons_some (writeChar_send hc), effects_append,
      ih (fun b hb => h b (List.mem_cons_of_mem c hb)) _]
    rfl

theorem expected_plain (h : ∀ c ∈ typed, (!k.noescape && c == k.escapechar) = false) (bol : Bool) :
    expected k bol typed = typed.map .send := by
  induction typed generalizing bol with
  | nil => rfl
  | cons c typed ih =>
    have hc : ¬(bol && !k.noescape && c == k.escapechar) = true := by
      rw [Bool.and_assoc, h c List.mem_cons_self, Bool.and_false]
      exact Bool.false_ne_true
    cases typed with
    | nil => rw [expected, if_neg hc]; rfl
    | cons d typed =>
      rw [expected, if_neg hc, ih fun b hb => h b (List.mem_cons_of_mem c hb)]
      rfl

theorem conforms_of_plain (h : k.noescape = true ∨ k.escapechar ∉ S) : Conforms k S := by
  intro typed htyped
  have hexpected (c : UInt8) (hc : c ∈ typed) : (!k.noescape && c == k.escapechar) = false := by
    rcases h with h | h
    · rw [h]; rfl
    · have hne : c ≠ k.escapechar := fun he => h (he ▸ htyped c hc)
      rw [beq_eq_false_iff_ne.mpr hne, Bool.and_false]
  have hwriter (c : UInt8) (hc : c ∈ typed) : (!k.noescape && k.sameEscape c) = false := by
    rcases h with h | h
    · rw [h]; rfl
    · have hne : k.sameEscape c = false :=
        Bool.eq_false_iff.mpr fun he => h (eq_of_sameEscape he ▸ htyped c hc)
      rw [hne, Bool.and_false]
  rw [writer_plain hwriter, expected_plain hexpected]

/-! ## Other keyboards -/

theorem isKey_zero (key : UInt8) : Keys.isKey key 0 = false := by
  by_cases h : key = 0
  · rw [Keys.isKey, h]
    rfl
  · rw [Keys.isKey, beq_eq_false_iff_ne.mpr (Ne.symm h), Bool.and_false]

theorem isSuspend_zero : k.isSuspend 0 = false := by
  rw [Keys.isSuspend, isKey_zero]
  cases k.dsusp with
  | none => rfl
  | some dsusp => exact isKey_zero dsusp

section Necessary

variable (hconforms : Conforms k S) (hno : k.noescape = false) (hescape : k.escapechar ∈ S)

include hconforms hno hescape

theorem sevenBit_of_conforms : k.escapechar.toNat < 128 := by
  by_contra height
  have hsame := sameEscape_eight (not_lt.mp height) k.escapechar
  have h := hconforms [k.escapechar] (by simpa using hescape)
  simp [writer, writeChar, hsame, expected, hno, effects] at h

theorem pair_of_conforms (hd : d ∈ S) :
    effects (writer k ⟨false, true⟩ [d]) = expected k true [k.escapechar, d] := by
  have hsame : k.sameEscape k.escapechar = true := by
    rw [sameEscape_eq (sevenBit_of_conforms hconforms hno hescape), beq_self_eq_true]
  rw [← hconforms [k.escapechar, d] (by simp [hescape, hd]),
    writer_cons_some (writeChar_escape (by rw [hno, hsame]; rfl))]
  rfl

theorem ne_keys_of_conforms (hd : d ∈ S) (hdot : d ≠ 46) (heof : Keys.isKey k.eof d = false)
    (hsusp : k.isSuspend d = false) : d ≠ k.eof ∧ d ≠ k.susp ∧ d ≠ k.defdsusp := by
  have hpair := pair_of_conforms hconforms hno hescape hd
  have hexpected : Action.send d ∈ expected k true [k.escapechar, d] := by
    rw [expected, if_pos (by simp [hno]), if_neg (by simp [hdot, heof]), if_neg (by simp [hsusp])]
    split <;> simp
  rw [← hpair] at hexpected
  have hclose : ¬(d = 46 ∨ d = k.eof) := by
    intro h
    rw [writer_cons_none (writeChar_close h)] at hexpected
    simp [effects] at hexpected
  have hstop : ¬(d = k.susp ∨ d = k.defdsusp) := by
    intro h
    rw [writer_cons_some (writeChar_stop hclose h)] at hexpected
    simp [effects, writer] at hexpected
  exact ⟨fun h => hclose (.inr h), fun h => hstop (.inl h), fun h => hstop (.inr h)⟩

theorem delayed_of_conforms (hd : 255 ∈ S) (hdsusp : k.dsusp = none) :
    k.eof = 255 ∨ k.susp = 255 := by
  by_contra! hne
  have hkeys := ne_keys_of_conforms hconforms hno hescape hd (by decide)
    (by simp [Keys.isKey, hne.1.symm]) (by simp [Keys.isSuspend, Keys.isKey, hne.2.symm, hdsusp])
  exact hkeys.2.2 (by rw [Keys.defdsusp, hdsusp]; rfl)

theorem nul_of_conforms (hnul : 0 ∈ S) : k.eof ≠ 0 ∧ k.susp ≠ 0 ∧ k.dsusp ≠ some 0 := by
  have hsusp : k.isSuspend 0 = false := isSuspend_zero
  have hkeys := ne_keys_of_conforms hconforms hno hescape hnul (by decide) (isKey_zero _) hsusp
  exact ⟨hkeys.1.symm, hkeys.2.1.symm, fun h => hkeys.2.2 (by rw [Keys.defdsusp, h]; rfl)⟩

theorem lineEnd_of_conforms (hnul : 0 ∈ S) : k.lineEnd 0 = false := by
  have hsuspend : k.isSuspend 0 = false := isSuspend_zero
  have hends : k.endsLine 0 = false := by simp [Keys.endsLine, isKey_zero]
  obtain ⟨heof, hsusp, hdsusp⟩ := nul_of_conforms hconforms hno hescape hnul
  have hsame := sameEscape_eq (sevenBit_of_conforms hconforms hno hescape)
  by_contra hline
  rw [Bool.not_eq_false] at hline
  by_cases hzero : k.escapechar = 0
  · have hstart := writeChar_escape (k := k) (c := 0) (by rw [hno, hsame, hzero]; rfl)
    have hother := writeChar_other (k := k) (d := 0) (by simp [heof.symm]) (by
      simpa [hsusp.symm] using
        (ne_keys_of_conforms hconforms hno hescape hnul (by decide) (isKey_zero _) hsuspend).2.2)
    have h := hconforms [0, 0, 0] (by simp [hnul])
    rw [writer_cons_some hstart, writer_cons_some hother, hline, writer_cons_some hstart] at h
    simp [writer, expected, effects, hsame, hzero, hno, isKey_zero, hsuspend, hends] at h
  · have h := hconforms [0, k.escapechar] (by simp [hnul, hescape])
    rw [expected, if_neg (by simp [Ne.symm hzero]), hends] at h
    simp [writer, writeChar, hsame, hno, hline, expected, effects, Ne.symm hzero] at h

end Necessary

/-- `writer` sends what it should if and only if no byte is taken for the escape character, or the
keyboard is a plain one. -/
theorem conforms_iff (k : Keys) (S : Set UInt8) :
    Conforms k S ↔ k.noescape = true ∨ k.escapechar ∉ S ∨ Plain k S := by
  constructor
  · intro h
    by_cases hno : k.noescape = true
    · exact .inl hno
    · by_cases hescape : k.escapechar ∈ S
      · have hno : k.noescape = false := Bool.eq_false_iff.mpr hno
        refine .inr (.inr ⟨sevenBit_of_conforms h hno hescape, delayed_of_conforms h hno hescape, ?_⟩)
        intro hnul
        obtain ⟨heof, hsusp, hdsusp⟩ := nul_of_conforms h hno hescape hnul
        have hline := lineEnd_of_conforms h hno hescape hnul
        refine ⟨fun hkill => ?_, heof, fun hintr => ?_, hsusp, hdsusp⟩
        · simp [Keys.lineEnd, hkill] at hline
        · simp [Keys.lineEnd, hintr] at hline
      · exact .inr (.inl hescape)
  · rintro (h | h | h)
    · exact conforms_of_plain (.inl h)
    · exact conforms_of_plain (.inr h)
    · exact fun typed htyped => writer_expected h true htyped

/-- On a system without `VDSUSP`, with the keys of a terminal as they are by default: behind `~` the
byte 255 stops the program and is not sent. -/
theorem not_conforms :
    ¬ Conforms ⟨false, 126, 21, 4, 3, 26, none⟩ Set.univ := by
  intro h
  have htyped := h [126, 255] fun _ _ => trivial
  revert htyped
  decide

end Netkit.Rlogin.Writer

import Netkit.Foundations.Cuts
import Netkit.Ftpd.Scanner

/-!
# Lines of the control connection

`ftpd_getline` takes a line from `tmpline` and from the stream, and takes the telnet commands out of
it. The loop over `tmpline` leaves room for the NUL, the loop over the stream does not.

* `getline_line_iff`: when a call does what it should.
-/

namespace Netkit.Ftpd

open Netkit.Foundations

/-! ## The function -/

/-- The loop over `tmpline`: what is copied, the value of `n` behind it, and whether it has come to a
newline. -/
def savedLoop : Bytes → ℕ → Bytes × ℕ × Bool
  | [], n => ([], n, false)
  | c :: tmpline, n =>
    if n ≤ 1 then ([], n - 1, false)
    else if c = 10 then ([c], n - 1, true)
    else (c :: (savedLoop tmpline (n - 1)).1, (savedLoop tmpline (n - 1)).2)

/-- The bytes that are stored in front of the NUL, whether NULL is returned, and what is left of
`tmpline` and of the stream. -/
structure Got where
  chars : Bytes
  null : Bool
  tmpline : Bytes
  stdin : Bytes
  answers : Bytes
deriving DecidableEq

/-- `ftpd_getline(s, n, stdin)`. The first byte that is copied clears `tmpline`, with what is not
copied. -/
def ftpdGetline (n : ℕ) (tmpline stdin : Bytes) : Got :=
  let saved := savedLoop tmpline n
  let left := if n ≤ 1 then tmpline else []
  if saved.2.2 then ⟨saved.1, false, left, stdin, []⟩
  else
    let g := readline stdin saved.2.1
    ⟨saved.1 ++ g.chars, g.eof && (saved.1 ++ g.chars).isEmpty, left, g.stdin, g.answers⟩

/-- How many bytes are written to `s`. -/
def Got.stores (g : Got) : ℕ := if g.null then g.chars.length else g.chars.length + 1

/-! ## Streams -/

/-- The bytes of a stream up to somewhere: the data, the answers to the options, and what is behind
them. At the end of the stream a single IAC is a byte like any other, and an option of which the
second byte is missing is dropped. -/
inductive Reads : Bytes → Bytes → Bytes → Bytes → Prop where
  | stop (s : Bytes) : Reads s [] [] s
  | char {c : UInt8} {s data answers rest : Bytes} (hc : c ≠ Telnet.IAC)
    (h : Reads s data answers rest) : Reads (c :: s) (c :: data) answers rest
  | iac {s data answers rest : Bytes} (h : Reads s data answers rest) :
    Reads (Telnet.IAC :: Telnet.IAC :: s) (Telnet.IAC :: data) answers rest
  | command {verb : UInt8} {s data answers rest : Bytes} (hrefusal : refusal verb = none)
    (hverb : verb ≠ Telnet.IAC) (h : Reads s data answers rest) :
    Reads (Telnet.IAC :: verb :: s) data answers rest
  | option {verb no : UInt8} {s data answers rest : Bytes} (hrefusal : refusal verb = some no)
    (option : UInt8) (h : Reads s data answers rest) :
    Reads (Telnet.IAC :: verb :: option :: s) data ([Telnet.IAC, no, option] ++ answers) rest
  | lone : Reads [Telnet.IAC] [Telnet.IAC] [] []
  | cut {verb no : UInt8} (hrefusal : refusal verb = some no) : Reads [Telnet.IAC, verb] [] [] []

def decode : Bytes → Bytes
  | [] => []
  | c :: s =>
    if c = Telnet.IAC then
      match s with
      | [] => [Telnet.IAC]
      | verb :: s =>
        match refusal verb with
        | some _ =>
          match s with
          | [] => []
          | _ :: s => decode s
        | none => if verb = Telnet.IAC then Telnet.IAC :: decode s else decode s
    else c :: decode s

def EndsCut : Bytes → Prop
  | [] => False
  | c :: s =>
    if c = Telnet.IAC then
      match s with
      | [] => False
      | verb :: s =>
        match refusal verb with
        | some _ =>
          match s with
          | [] => True
          | _ :: s => EndsCut s
        | none => EndsCut s
    else EndsCut s

variable {n : ℕ} {tmpline stdin s data answers rest : Bytes} {c verb no option : UInt8}

/-! ## The loop over the stream -/

theorem readline_last (hiac : c ≠ Telnet.IAC) (h : n ≤ 1 ∨ c = 10) :
    readline (c :: s) n = ⟨[c], s, [], false⟩ := by
  rw [readline.eq_def]
  dsimp only
  rw [if_neg hiac, if_pos h]

theorem readline_iac_last (h : n ≤ 1) :
    readline (Telnet.IAC :: Telnet.IAC :: s) n = ⟨[Telnet.IAC], s, [], false⟩ := by
  rw [readline.eq_def]
  dsimp only
  rw [if_pos rfl, show refusal Telnet.IAC = none from rfl]
  dsimp only
  rw [if_pos rfl, if_pos h]

theorem takeBuffer_last (h : n ≤ 1 ∨ c = 10) : takeBuffer 10 (max n 1) (c :: s) = ([c], s) := by
  obtain ⟨m, hm⟩ :=
    Nat.exists_eq_add_one.mpr (Nat.lt_of_lt_of_le Nat.one_pos (Nat.le_max_right n 1))
  rw [hm, takeBuffer]
  split
  · rfl
  · next hc =>
    obtain rfl : m = 0 := by
      have hn := h.resolve_right hc
      omega
    cases s <;> rfl

theorem takeBuffer_more (hn : 1 < n) (hc : c ≠ 10) : takeBuffer 10 (max n 1) (c :: s) =
    (c :: (takeBuffer 10 (max (n - 1) 1) s).1, (takeBuffer 10 (max (n - 1) 1) s).2) := by
  obtain ⟨m, rfl⟩ := Nat.exists_eq_add_of_lt hn
  rw [show max (1 + m + 1) 1 = m + 1 + 1 by omega, show max (1 + m + 1 - 1) 1 = m + 1 by omega,
    takeBuffer, if_neg hc]

@[simp] theorem decode_char (hiac : c ≠ Telnet.IAC) : decode (c :: s) = c :: decode s := by
  rw [decode.eq_def]
  exact if_neg hiac

@[simp] theorem decode_iac :
    decode (Telnet.IAC :: Telnet.IAC :: s) = Telnet.IAC :: decode s := rfl

theorem decode_command (hrefusal : refusal verb = none) (hverb : verb ≠ Telnet.IAC) :
    decode (Telnet.IAC :: verb :: s) = decode s := by
  rw [decode.eq_def]
  dsimp only
  rw [if_pos rfl, hrefusal]
  exact if_neg hverb

theorem decode_option (hrefusal : refusal verb = some no) :
    decode (Telnet.IAC :: verb :: option :: s) = decode s := by
  rw [decode.eq_def]
  dsimp only
  rw [if_pos rfl, hrefusal]

theorem decode_cut (hrefusal : refusal verb = some no) : decode [Telnet.IAC, verb] = [] := by
  rw [decode.eq_def]
  dsimp only
  rw [if_pos rfl, hrefusal]

theorem endsCut_char (hiac : c ≠ Telnet.IAC) : EndsCut (c :: s) ↔ EndsCut s := by
  rw [EndsCut.eq_def]
  dsimp only
  rw [if_neg hiac]

theorem endsCut_plain (hrefusal : refusal verb = none) :
    EndsCut (Telnet.IAC :: verb :: s) ↔ EndsCut s := by
  rw [EndsCut.eq_def]
  dsimp only
  rw [if_pos rfl, hrefusal]

theorem endsCut_option (hrefusal : refusal verb = some no) :
    EndsCut (Telnet.IAC :: verb :: option :: s) ↔ EndsCut s := by
  rw [EndsCut.eq_def]
  dsimp only
  rw [if_pos rfl, hrefusal]

theorem endsCut_cut (hrefusal : refusal verb = some no) : EndsCut [Telnet.IAC, verb] := by
  rw [EndsCut.eq_def]
  dsimp only
  rw [if_pos rfl, hrefusal]
  trivial

/-- What the loop comes to; it stores at least a byte where there is one. -/
structure Fetched (stdin : Bytes) (n : ℕ) (g : GotLine) : Prop where
  chars : g.chars = (takeBuffer 10 (max n 1) (decode stdin)).1
  rest : decode g.stdin = (takeBuffer 10 (max n 1) (decode stdin)).2
  reads : ¬ EndsCut stdin ∨ g.eof = false → Reads stdin g.chars g.answers g.stdin
  ended : g.eof = true → g.stdin = [] ∧ g.chars = decode stdin ∧ 10 ∉ g.chars
  cut : g.eof = true → EndsCut stdin → ¬ Reads stdin g.chars g.answers []
  full : g.eof = false → g.chars.getLast? = some 10 ∨ g.chars.length = max n 1

theorem Fetched.null_iff {g : GotLine} (h : Fetched stdin n g) :
    (g.eof && (tmpline ++ g.chars).isEmpty) = true ↔ tmpline ++ g.chars = [] := by
  rw [Bool.and_eq_true, List.isEmpty_iff]
  refine ⟨And.right, fun hnil => ⟨?_, hnil⟩⟩
  have hchars : g.chars = [] := (List.append_eq_nil_iff.mp hnil).2
  cases heof : g.eof with
  | true => rfl
  | false =>
    have hfull := h.full heof
    rw [hchars] at hfull
    rcases hfull with hlast | hlength
    · exact absurd hlast.symm (Option.some_ne_none _)
    · rw [List.length_nil] at hlength
      omega

theorem fetched_last (h : n ≤ 1 ∨ c = 10) (hdecode : decode stdin = c :: decode s)
    (hreads : Reads stdin [c] [] s) : Fetched stdin n ⟨[c], s, [], false⟩ where
  chars := by rw [hdecode, takeBuffer_last h]
  rest := by rw [hdecode, takeBuffer_last h]
  reads := fun _ => hreads
  ended := fun heof => absurd heof Bool.false_ne_true
  cut := fun heof => absurd heof Bool.false_ne_true
  full := fun _ => h.symm.imp (fun hc => congrArg some hc) fun hn => (Nat.max_eq_right hn).symm

theorem Fetched.push {g : GotLine} (h : Fetched s (n - 1) g) (hn : 1 < n) (hc : c ≠ 10)
    (hdecode : decode stdin = c :: decode s) (hcut : EndsCut stdin ↔ EndsCut s)
    (hreads : ∀ {data answers rest}, Reads s data answers rest →
      Reads stdin (c :: data) answers rest)
    (hread : ∀ {data answers}, Reads stdin (c :: data) answers [] → Reads s data answers []) :
    Fetched stdin n (g.push c) where
  chars := by
    rw [hdecode, takeBuffer_more hn hc]
    exact congrArg (c :: ·) h.chars
  rest := by
    rw [hdecode, takeBuffer_more hn hc]
    exact h.rest
  reads := fun hwhole => hreads (h.reads (hwhole.imp_left (mt hcut.mpr)))
  ended := fun heof => by
    obtain ⟨hstdin, hchars, hline⟩ := h.ended heof
    refine ⟨hstdin, ?_, fun hmem => (List.mem_cons.mp hmem).elim (Ne.symm hc) hline⟩
    rw [hdecode]
    exact congrArg (c :: ·) hchars
  cut := fun heof hends hall => h.cut heof (hcut.mp hends) (hread hall)
  full := fun heof => by
    have hmax : max n 1 = max (n - 1) 1 + 1 := by omega
    rcases h.full heof with hlast | hlength
    · left
      show (c :: g.chars).getLast? = some 10
      rw [List.getLast?_cons, hlast]
      rfl
    · right
      rw [hmax, ← hlength]
      rfl

theorem Reads.of_char (hiac : c ≠ Telnet.IAC) (h : Reads (c :: s) (c :: data) answers []) :
    Reads s data answers [] := by
  cases h with
  | char _ h => exact h
  | iac => exact absurd rfl hiac
  | command => exact absurd rfl hiac
  | option => exact absurd rfl hiac
  | lone => exact absurd rfl hiac

theorem Reads.of_iac (h : Reads (Telnet.IAC :: Telnet.IAC :: s) (Telnet.IAC :: data) answers []) :
    Reads s data answers [] := by
  cases h with
  | char hiac => exact absurd rfl hiac
  | iac h => exact h
  | command _ hverb => exact absurd rfl hverb
  | option hno =>
    exact absurd (hno.symm.trans (rfl : refusal Telnet.IAC = none)) (Option.some_ne_none _)

theorem Reads.of_command (hrefusal : refusal verb = none) (hverb : verb ≠ Telnet.IAC)
    (h : Reads (Telnet.IAC :: verb :: s) data answers []) : Reads s data answers [] := by
  cases h with
  | char hiac => exact absurd rfl hiac
  | iac => exact absurd rfl hverb
  | command _ _ h => exact h
  | option hno => exact absurd (hno.symm.trans hrefusal) (Option.some_ne_none _)
  | cut hno => exact absurd (hno.symm.trans hrefusal) (Option.some_ne_none _)

theorem Reads.of_option (hrefusal : refusal verb = some no)
    (h : Reads (Telnet.IAC :: verb :: option :: s) data ([Telnet.IAC, no, option] ++ answers) []) :
    Reads s data answers [] := by
  cases h with
  | char hiac => exact absurd rfl hiac
  | iac =>
    exact absurd (hrefusal.symm.trans (rfl : refusal Telnet.IAC = none)) (Option.some_ne_none _)
  | command hnone => exact absurd (hrefusal.symm.trans hnone) (Option.some_ne_none _)
  | option _ _ h => exact h

/-- The induction is on the pieces of the stream. -/
theorem readline_fetched (stdin : Bytes) (n : ℕ) : Fetched stdin n (readline stdin n) := by
  induction stdin using decode.induct generalizing n with
  | case1 =>
    rw [readline]
    exact {
      chars := by rw [decode, takeBuffer_nil]
      rest := by rw [decode, takeBuffer_nil]
      reads := fun _ => .stop []
      ended := fun _ => ⟨rfl, rfl, List.not_mem_nil⟩
      cut := fun _ hends => hends.elim
      full := fun h => absurd h.symm Bool.false_ne_true }
  | case2 =>
    have hread : readline [Telnet.IAC] n = ⟨[255], [], [], true⟩ := by
      rw [readline.eq_def]
      exact if_pos rfl
    rw [hread]
    have hbuffer : takeBuffer 10 (max n 1) (decode [Telnet.IAC]) = ([255], []) := by
      obtain ⟨m, hm⟩ := Nat.exists_eq_add_one.mpr
        (Nat.lt_of_lt_of_le Nat.one_pos (Nat.le_max_right n 1))
      rw [hm]
      cases m <;> rfl
    exact {
      chars := by rw [hbuffer]
      rest := by rw [hbuffer, decode]
      reads := fun _ => .lone
      ended := fun _ => ⟨rfl, rfl, by decide⟩
      cut := fun _ hends => hends.elim
      full := fun h => absurd h.symm Bool.false_ne_true }
  | case3 verb no hrefusal =>
    rw [readline.eq_def]
    dsimp only
    rw [if_pos rfl, hrefusal]
    have hchars := decode_cut hrefusal
    exact {
      chars := by rw [hchars, takeBuffer_nil]
      rest := by rw [hchars, takeBuffer_nil, decode]
      reads := by
        rintro (hwhole | heof)
        · exact absurd (endsCut_cut hrefusal) hwhole
        · exact absurd heof.symm Bool.false_ne_true
      ended := fun _ => ⟨rfl, hchars.symm, List.not_mem_nil⟩
      cut := fun _ _ hall => by
        cases hall with
        | command hnone => exact absurd (hrefusal.symm.trans hnone) (Option.some_ne_none _)
      full := fun h => absurd h.symm Bool.false_ne_true }
  | case4 verb no hrefusal option s ih =>
    rw [readline_option hrefusal]
    have h := ih n
    have hchars : decode (Telnet.IAC :: verb :: option :: s) = decode s := decode_option hrefusal
    exact {
      chars := hchars ▸ h.chars
      rest := hchars ▸ h.rest
      reads := fun hwhole => .option hrefusal option
        (h.reads (hwhole.imp_left (mt (endsCut_option hrefusal).mpr)))
      ended := hchars ▸ h.ended
      cut := fun heof hends hall =>
        h.cut heof ((endsCut_option hrefusal).mp hends) (.of_option hrefusal hall)
      full := h.full }
  | case5 s hrefusal ih =>
    rcases Nat.lt_or_ge 1 n with hn | hn
    · rw [readline_iac s hn]
      exact (ih (n - 1)).push hn (by decide) decode_iac (endsCut_plain hrefusal) .iac .of_iac
    · rw [readline_iac_last hn]
      exact fetched_last (Or.inl hn) decode_iac (.iac (.stop s))
  | case6 verb s hrefusal hverb ih =>
    rw [readline_command hrefusal hverb]
    have h := ih n
    have hchars : decode (Telnet.IAC :: verb :: s) = decode s := decode_command hrefusal hverb
    exact {
      chars := hchars ▸ h.chars
      rest := hchars ▸ h.rest
      reads := fun hwhole => .command hrefusal hverb
        (h.reads (hwhole.imp_left (mt (endsCut_plain hrefusal).mpr)))
      ended := hchars ▸ h.ended
      cut := fun heof hends hall =>
        h.cut heof ((endsCut_plain hrefusal).mp hends) (.of_command hrefusal hverb hall)
      full := h.full }
  | case7 c s hiac ih =>
    by_cases hlast : n ≤ 1 ∨ c = 10
    · rw [readline_last hiac hlast]
      exact fetched_last hlast (decode_char hiac) (.char hiac (.stop s))
    · obtain ⟨hn, hc⟩ := not_or.mp hlast
      rw [readline_char hiac hc s (Nat.lt_of_not_le hn)]
      exact (ih (n - 1)).push (Nat.lt_of_not_le hn) hc (decode_char hiac) (endsCut_char hiac)
        (.char hiac) (.of_char hiac)

/-! ## The loop over `tmpline` -/

theorem savedLoop_open (hline : 10 ∉ tmpline) (hn : tmpline.length < n) :
    savedLoop tmpline n = (tmpline, n - tmpline.length, false) := by
  induction tmpline generalizing n with
  | nil => rfl
  | cons c tmpline ih =>
    rw [List.mem_cons, not_or] at hline
    rw [List.length_cons] at hn
    rw [savedLoop, if_neg (by omega), if_neg (Ne.symm hline.1), ih hline.2 (by omega)]
    rw [List.length_cons, Nat.sub_sub, Nat.add_comm 1]

theorem savedLoop_newline (hline : 10 ∉ tmpline) (hn : tmpline.length + 1 < n) :
    savedLoop (tmpline ++ [10]) n = (tmpline ++ [10], n - (tmpline.length + 1), true) := by
  induction tmpline generalizing n with
  | nil =>
    rw [List.nil_append, savedLoop, if_neg (Nat.not_le_of_lt hn : ¬ n ≤ 1), if_pos rfl]
    rfl
  | cons c tmpline ih =>
    rw [List.mem_cons, not_or] at hline
    rw [List.length_cons] at hn
    rw [List.cons_append, savedLoop, if_neg (by omega), if_neg (Ne.symm hline.1),
      ih hline.2 (by omega)]
    rw [List.length_cons, Nat.sub_sub, Nat.add_comm 1]

/-! ## The line -/

/-- A line as it stands in `tmpline`: nothing is behind its newline. -/
def IsSaved (tmpline : Bytes) : Prop := 10 ∉ tmpline.dropLast

theorem IsSaved.cases (h : IsSaved tmpline) :
    10 ∉ tmpline ∨ ∃ front, tmpline = front ++ [10] ∧ 10 ∉ front := by
  rcases tmpline.eq_nil_or_concat with rfl | ⟨front, c, rfl⟩
  · exact Or.inl List.not_mem_nil
  · rw [List.concat_eq_append]
    rw [IsSaved, List.concat_eq_append, List.dropLast_concat] at h
    rcases eq_or_ne c 10 with rfl | hc
    · exact Or.inr ⟨front, rfl, h⟩
    · exact Or.inl fun hmem => (List.mem_append.mp hmem).elim h
        fun hlast => hc (List.mem_singleton.mp hlast).symm

/-- The line, or all there is, is shorter than the buffer by more than the NUL. -/
def Fits (n : ℕ) (tmpline stdin : Bytes) : Prop :=
  10 ∈ (tmpline ++ decode stdin).take (n - 1) ∨
    (tmpline ++ decode stdin).length ≤ n - 1 ∧ ¬ EndsCut stdin

theorem ftpdGetline_newline (hline : 10 ∉ tmpline) (hn : tmpline.length + 1 < n) :
    ftpdGetline n (tmpline ++ [10]) stdin = ⟨tmpline ++ [10], false, [], stdin, []⟩ := by
  rw [ftpdGetline]
  dsimp only
  rw [savedLoop_newline hline hn, if_neg (by omega : ¬ n ≤ 1)]
  rfl

theorem ftpdGetline_open (hline : 10 ∉ tmpline) (hn : tmpline.length < n) (htwo : 2 ≤ n) :
    ftpdGetline n tmpline stdin =
      let g := readline stdin (n - tmpline.length)
      ⟨tmpline ++ g.chars, g.eof && (tmpline ++ g.chars).isEmpty, [], g.stdin, g.answers⟩ := by
  rw [ftpdGetline]
  dsimp only
  rw [savedLoop_open hline hn, if_neg (by omega : ¬ n ≤ 1)]
  rfl

theorem ftpdGetline_tmpline (tmpline stdin : Bytes) (htwo : 2 ≤ n) :
    (ftpdGetline n tmpline stdin).tmpline = [] := by
  rw [ftpdGetline]
  dsimp only
  rw [if_neg (by omega : ¬ n ≤ 1)]
  split
  · rfl
  · rfl

theorem ftpdGetline_buffer (hsaved : IsSaved tmpline) (hn : tmpline.length < n) (htwo : 2 ≤ n)
    (stdin : Bytes) :
    (ftpdGetline n tmpline stdin).chars = (takeBuffer 10 n (tmpline ++ decode stdin)).1 ∧
      decode (ftpdGetline n tmpline stdin).stdin = (takeBuffer 10 n (tmpline ++ decode stdin)).2 ∧
      ((ftpdGetline n tmpline stdin).null = true ↔ tmpline ++ decode stdin = []) := by
  rcases hsaved.cases with hline | ⟨front, rfl, hfront⟩
  · have hg := readline_fetched stdin (n - tmpline.length)
    rw [ftpdGetline_open hline hn htwo, takeBuffer_open hline hn]
    generalize readline stdin (n - tmpline.length) = g at hg
    have hmax : max (n - tmpline.length) 1 = n - tmpline.length := by omega
    refine ⟨congrArg (tmpline ++ ·) (hmax ▸ hg.chars), hmax ▸ hg.rest, ?_⟩
    rw [hg.null_iff]
    constructor
    · intro h
      obtain ⟨htmpline, hchars⟩ := List.append_eq_nil_iff.mp h
      rw [hg.chars, hmax] at hchars
      by_contra hne
      rw [htmpline, List.nil_append] at hne
      exact takeBuffer_ne_nil (by omega) hne hchars
    · intro h
      obtain ⟨htmpline, hdecode⟩ := List.append_eq_nil_iff.mp h
      rw [htmpline, hg.chars, hdecode, takeBuffer_nil]
      rfl
  · rw [List.length_append, List.length_singleton] at hn
    have hfirst : IsLine 10 (front ++ [10]) (decode stdin) :=
      ⟨List.append_ne_nil_of_right_ne_nil _ (List.cons_ne_nil _ _), by rwa [List.dropLast_concat],
        Or.inl (by rw [List.getLast?_concat])⟩
    have hlength : (front ++ [10]).length ≤ n := by
      rw [List.length_append, List.length_singleton]
      omega
    rw [ftpdGetline_newline hfront hn, takeBuffer_line hfirst, List.take_of_length_le hlength,
      List.drop_eq_nil_of_le hlength]
    refine ⟨rfl, rfl, fun h => absurd h Bool.false_ne_true, fun h => ?_⟩
    rw [List.append_assoc] at h
    exact absurd (List.append_eq_nil_iff.mp h).2 (List.cons_ne_nil _ _)

end Netkit.Ftpd

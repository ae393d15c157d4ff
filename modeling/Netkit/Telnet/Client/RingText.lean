import Netkit.Foundations.Decimal
import Netkit.Telnet.Client.Ring

/-!
# Text out of a ring and into it

`ringbuf::gets` reads text out of a ring and `ringbuf::printf` writes formatted text into it.
`gets` gets a character before it looks whether there is room for it. `printf` formats into a
buffer of 256 bytes and then writes as many bytes as the text has, which `vsnprintf` tells, not
as many as are in the buffer.

* `Ringbuf.gets_spec`, `gets_lossless_iff`: what `gets` takes out of the ring, and when nothing of
  it is lost.
* `printf_appends_iff`: when that is the text.
-/

namespace Netkit.Telnet.Client

open Netkit.Foundations

namespace Ringbuf

/-! ## gets -/

/-- The calls of `gets(rbuf, max)` one after the other: all that they return. -/
def getsRepeated (max : Nat) : Nat → Ringbuf → List UInt8
  | 0, _ => []
  | calls + 1, r => (r.gets (max - 1)).1 ++ getsRepeated max calls (r.gets (max - 1)).2

/-- `gets(rbuf, max)` returns what there is room for and leaves the rest in the ring, so that
some number of calls returns everything. -/
structure GetsLossless (max : Nat) (r : Ringbuf) : Prop where
  text : (r.gets (max - 1)).1 = r.contents.take (max - 1)
  rest : (r.gets (max - 1)).2.contents = r.contents.drop (max - 1)
  repeated : ∃ calls, r.getsRepeated max calls = r.contents

variable {r : Ringbuf}

theorem gets_spec (h : r.Inv) (n : Nat) :
    (r.gets n).2.Inv ∧ (r.gets n).1 = r.contents.take n ∧
      (r.gets n).2.contents = r.contents.drop (n + 1) := by
  induction n generalizing r with
  | zero =>
    rw [gets]
    cases hg : r.getch with
    | none =>
      rw [(getch_none h).mp hg]
      exact ⟨h, rfl, rfl⟩
    | some result =>
      obtain ⟨rv, c, r'⟩ := result
      obtain ⟨hI, hc⟩ := getch_spec h hg
      rw [hc]
      exact ⟨hI, rfl, rfl⟩
  | succ n ih =>
    rw [gets]
    cases hg : r.getch with
    | none =>
      rw [(getch_none h).mp hg]
      exact ⟨h, rfl, rfl⟩
    | some result =>
      obtain ⟨rv, c, r'⟩ := result
      obtain ⟨hI, hc⟩ := getch_spec h hg
      obtain ⟨hI', htext, hrest⟩ := ih hI
      rw [hc]
      exact ⟨hI', congrArg (c :: ·) htext, hrest⟩

/-- Nothing is lost exactly when all that is in the ring fits. -/
theorem gets_lossless_iff (h : r.Inv) {max : Nat} (hmax : 0 < max) :
    GetsLossless max r ↔ r.fullCount ≤ max - 1 := by
  obtain ⟨-, htext, hrest⟩ := gets_spec h (max - 1)
  have hlen := contents_length h
  rw [fullCount]
  constructor
  · intro hlossless
    have hdrop := hrest.symm.trans hlossless.rest
    have hlength := congrArg List.length hdrop
    rw [List.length_drop, List.length_drop] at hlength
    omega
  · intro hfits
    have hall : r.contents.take (max - 1) = r.contents :=
      List.take_of_length_le (by omega)
    have hnone : r.contents.drop (max - 1) = [] := List.drop_eq_nil_of_le (by omega)
    refine ⟨htext, ?_, 1, ?_⟩
    · rw [hrest, hnone]
      exact List.drop_eq_nil_of_le (by omega)
    · rw [getsRepeated, getsRepeated, List.append_nil, htext, hall]

/-- `gets(rbuf, 3)` of a ring with the bytes 1, 2, 3 and 4: the 3 is lost. -/
theorem gets_loses :
    ¬ GetsLossless 3 ((init [0, 0, 0, 0]).write [1, 2, 3, 4]) := by
  intro h
  exact absurd h.rest (by decide)

theorem gets_two :
    GetsLossless 3 ((init [0, 0, 0, 0]).write [1, 2]) :=
  (gets_lossless_iff (write_spec (init_inv (by decide)) [1, 2]).1 (by decide)).mpr (by decide)

/-! ## printf -/

end Ringbuf

/-- `sizeof(xbuf)`. -/
def xbufSize : Nat := 256

/-- An argument with its conversion: `%c`, `%s` or `%ld`. Other text of a format is written as
characters. -/
inductive Conversion where
  | char (c : UInt8)
  | string (s : List UInt8)
  | long (n : Int)

def Conversion.text : Conversion → List UInt8
  | .char c => [c]
  | .string s => s.takeWhile (· ≠ 0)
  | .long n => if n < 0 then 45 :: decimal n.natAbs else decimal n.natAbs

def expansion (format : List Conversion) : List UInt8 := format.flatMap Conversion.text

/-- `vsnprintf`: the buffer, with as much of the text as there is room for and a NUL behind it, and
the length of the whole text. -/
def vsnprintf (xbuf : List UInt8) (format : List Conversion) : List UInt8 × Nat :=
  (store xbuf 0 ((expansion format).take (xbuf.length - 1) ++ [0]), (expansion format).length)

namespace Ringbuf

/-- `write` of `ct` bytes from `buffer` on. `none` is a read behind the buffer. -/
def writeFrom (buffer : List UInt8) (ct : Nat) (r : Ringbuf) : Option Ringbuf :=
  let ct := min ct (r.size - r.count).toNat
  if ct ≤ buffer.length then some (r.write (buffer.take ct)) else none

/-- `printf`, with what happens to be in `xbuf`. -/
def printf (xbuf : List UInt8) (format : List Conversion) (r : Ringbuf) : Option Ringbuf :=
  r.writeFrom (vsnprintf xbuf format).1 (vsnprintf xbuf format).2

/-- `printf` reads nothing behind its buffer and appends the text. -/
def PrintfAppends (xbuf : List UInt8) (format : List Conversion) (r : Ringbuf) : Prop :=
  ∃ r', r.printf xbuf format = some r' ∧ r'.contents = r.contents ++ expansion format

theorem vsnprintf_take {xbuf : List UInt8} (hpos : 0 < xbuf.length) {format : List Conversion} :
    ((expansion format).length < xbuf.length →
      (vsnprintf xbuf format).1.take (vsnprintf xbuf format).2 = expansion format) ∧
    ((expansion format).length = xbuf.length →
      (vsnprintf xbuf format).1.take (vsnprintf xbuf format).2 =
        (expansion format).dropLast ++ [0]) := by
  generalize htext : expansion format = text
  rw [vsnprintf, htext]
  constructor
  · intro hshort
    have htake : text.take (xbuf.length - 1) = text := List.take_of_length_le (by omega)
    have hfit : 0 + (text ++ [0]).length ≤ xbuf.length := by
      rw [List.length_append, List.length_singleton]
      omega
    rw [htake, store_eq hfit, List.take_zero, List.nil_append, List.append_assoc,
      List.take_left' rfl]
  · intro hfull
    have hlen : (text.take (xbuf.length - 1) ++ [0]).length = text.length := by
      rw [List.length_append, List.length_take, List.length_singleton]
      omega
    rw [store_eq (by omega), List.take_zero, List.nil_append, List.take_left' hlen, ← hfull,
      List.dropLast_eq_take]

theorem length_vsnprintf {xbuf : List UInt8} (format : List Conversion) :
    (vsnprintf xbuf format).1.length = xbuf.length := store_length _ (Nat.zero_le _)

/-- Exactly when the text leaves room for the NUL in the buffer, or the NUL is its last
character. -/
theorem printf_appends_iff {r : Ringbuf} (h : r.Inv) {xbuf : List UInt8}
    (hxbuf : xbuf.length = xbufSize) {format : List Conversion}
    (hroom : (expansion format).length ≤ r.emptyCount) :
    PrintfAppends xbuf format r ↔ (expansion format).length < xbufSize ∨
      (expansion format).length = xbufSize ∧ (expansion format).getLast? = some 0 := by
  have hpos : 0 < xbuf.length := by
    rw [hxbuf]
    decide
  obtain ⟨hshort, hfull⟩ := @vsnprintf_take xbuf hpos format
  have hct : min (vsnprintf xbuf format).2 (r.size - r.count).toNat =
      (expansion format).length := by
    rw [emptyCount] at hroom
    show min (expansion format).length (r.size - r.count).toNat = _
    omega
  have hwrite : ∀ text : List UInt8, text.length = (expansion format).length →
      (r.write text).contents = r.contents ++ text := by
    intro text hlen
    rw [emptyCount] at hroom
    rw [(write_spec h text).2.1, List.take_of_length_le (by omega)]
  rw [PrintfAppends, printf, writeFrom, hct, length_vsnprintf, hxbuf]
  rw [hxbuf] at hshort hfull
  have hread : (vsnprintf xbuf format).2 = (expansion format).length := rfl
  rw [hread] at hshort hfull
  rcases Nat.lt_trichotomy (expansion format).length xbufSize with hlt | heq | hgt
  · rw [if_pos (Nat.le_of_lt hlt), hshort hlt]
    exact ⟨fun _ => Or.inl hlt, fun _ => ⟨_, rfl, hwrite _ rfl⟩⟩
  · have hne : expansion format ≠ [] := by
      intro hnil
      rw [hnil] at heq
      cases heq
    have hlast := List.dropLast_append_getLast hne
    rw [if_pos (Nat.le_of_eq heq), hfull heq, List.getLast?_eq_some_getLast hne]
    constructor
    · rintro ⟨r', hr', hcontents⟩
      cases hr'
      have hlen : ((expansion format).dropLast ++ [0]).length = (expansion format).length := by
        rw [List.length_append, List.length_dropLast, List.length_singleton, heq]
        rfl
      rw [hwrite _ hlen, List.append_cancel_left_eq] at hcontents
      have hzero := List.append_inj_right (hcontents.trans hlast.symm) rfl
      exact Or.inr ⟨heq, congrArg some (List.cons.inj hzero).1.symm⟩
    · rintro (hlt | ⟨-, hzero⟩)
      · omega
      · rw [Option.some.inj hzero] at hlast
        exact ⟨_, rfl, by rw [hlast]; exact hwrite _ rfl⟩
  · rw [if_neg (by omega)]
    constructor
    · rintro ⟨r', hr', -⟩
      cases hr'
    · rintro (hlt | ⟨heq, -⟩)
      · omega
      · omega

end Ringbuf

/-! ## The replies with a text of the user -/

def terminalTypeReply (name : List UInt8) : List Conversion :=
  [.char IAC, .char SB, .char TELOPT_TTYPE, .char TELQUAL_IS, .string name, .char IAC, .char SE]

def displayReply (dp : List UInt8) : List Conversion :=
  [.char IAC, .char SB, .char TELOPT_XDISPLOC, .char TELQUAL_IS, .string dp, .char IAC, .char SE]

def speedReply (ospeed ispeed : Int) : List Conversion :=
  [.char IAC, .char SB, .char TELOPT_TSPEED, .char TELQUAL_IS, .long ospeed, .char 44,
    .long ispeed, .char IAC, .char SE]

open Ringbuf

/-- An empty ring of 300 bytes, and a terminal type of 251 letters. -/
theorem printf_beyond_xbuf :
    ¬ PrintfAppends (List.replicate xbufSize 0)
      (terminalTypeReply (List.replicate 251 97)) (init (List.replicate 300 0)) := by
  have hnone : printf (List.replicate xbufSize 0)
      (terminalTypeReply (List.replicate 251 97)) (init (List.replicate 300 0)) = none := by
    decide +kernel
  rintro ⟨r', hr', -⟩
  rw [hnone] at hr'
  cases hr'

theorem printf_terminal_type :
    PrintfAppends (List.replicate xbufSize 0) (terminalTypeReply [118, 116, 49, 48, 48])
      (init (List.replicate 300 0)) := by
  have hring : (init (List.replicate 300 0)).Inv := by
    refine init_inv ?_
    rw [List.length_replicate]
    decide
  have hroom : (expansion (terminalTypeReply [118, 116, 49, 48, 48])).length ≤
      (init (List.replicate 300 0)).emptyCount := by
    decide +kernel
  have hshort : (expansion (terminalTypeReply [118, 116, 49, 48, 48])).length < xbufSize := by
    decide
  exact (printf_appends_iff hring List.length_replicate hroom).mpr (Or.inl hshort)

end Netkit.Telnet.Client

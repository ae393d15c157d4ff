import Netkit.Foundations.Decimal
import Netkit.Ftp.Ascii
import Netkit.Ftpd.Dataconn
import Netkit.Ftpd.Lexer

/-!
# What is in a file

The bytes that `RETR` sends of a file, from the restart point on, and the number that `SIZE` answers.

* `restart_agrees_iff`: the commands agree, if the offset is an `int` and not inside a newline.
-/

namespace Netkit.Ftpd.Contents

open Netkit.Foundations Netkit.Ftpd.Data

/-! ## The commands -/

/-- The loop of `sizecmd`. -/
def countAscii : Bytes → ℕ → ℕ
  | [], count => count
  | c :: fin, count => countAscii fin ((if c = Ftp.LF then count + 1 else count) + 1)

def sizecmd (type : TypeCode) (file : Bytes) : Option ℕ :=
  match type with
  | .L | .I => some file.length
  | .A => some (countAscii file 0)
  | .E => none

/-- `while (i++ < n)`, and what is left of the file behind it. -/
def skipAscii (n : Int) : Int → Bytes → Option Bytes
  | i, [] => if i < n then none else some []
  | i, c :: fin =>
    if i < n then skipAscii n (if c = Ftp.LF then i + 1 + 1 else i + 1) fin else some (c :: fin)

def position (type : TypeCode) (restartPoint : Int) (file : Bytes) : Option Bytes :=
  if restartPoint = 0 then some file
  else if type = .A then skipAscii restartPoint 0 file
  else if restartPoint < 0 then none
  else some (file.drop restartPoint.toNat)

/-- The loop that reads into a buffer and writes from it, with a bound on its passes. -/
def writeLoop (size : ℕ) : ℕ → Bytes → Bytes
  | 0, _ => []
  | passes + 1, filefd =>
    if (filefd.take size).isEmpty then []
    else filefd.take size ++ writeLoop size passes (filefd.drop size)

/-- `send_data`, where nothing fails. A file that is mapped is written from the map. -/
def sendData (type : TypeCode) (blksize : ℕ) (isreg : Bool) (instr : Bytes) : Bytes :=
  match type with
  | .A => (Ftp.sendData instr ⟨[], 0⟩).outstr
  | .I | .L =>
    if isreg && decide (instr.length < 16 * 1024 * 1024) then instr
    else writeLoop (blksize * 16) (instr.length + 1) instr
  | .E => []

/-- The data bytes of `RETR`; it answers 550 when the file cannot be positioned. -/
def retrieve (type : TypeCode) (blksize : ℕ) (restartPoint : Int) (file : Bytes) : Option Bytes :=
  (position type restartPoint file).map (sendData type blksize (decide (restartPoint = 0)))

/-- `restart_point` after `REST` with a number. -/
def rest (n : ℕ) : Int := atoi (decimal n)

/-- `SIZE` answers the number of bytes that `RETR` sends, and behind `REST` it sends those from the
offset on. -/
def Agrees (type : TypeCode) (blksize : ℕ) (file : Bytes) (n : ℕ) : Prop :=
  ∃ full, retrieve type blksize 0 file = some full ∧ sizecmd type file = some full.length ∧
    retrieve type blksize (rest n) file = some (full.drop n)

/-- The offset is that of the LF which stands for a newline with the CR in front of it. -/
def Inside (file : Bytes) (n : ℕ) : Prop :=
  ∃ front back, file = front ++ Ftp.LF :: back ∧ n = (Ftp.expand front).length + 1

variable {type : TypeCode} {blksize n m : ℕ} {file fin : Bytes} {c : UInt8} {i : Int}

/-! ## What is counted and sent -/

theorem expand_cons : Ftp.expand (c :: fin) =
    (if c = Ftp.LF then [Ftp.CR, Ftp.LF] else [c]) ++ Ftp.expand fin :=
  List.flatMap_cons

theorem countAscii_eq (count : ℕ) : countAscii file count = count + (Ftp.expand file).length := by
  induction file generalizing count with
  | nil => rfl
  | cons c fin ih =>
    rw [countAscii, ih, expand_cons, List.length_append]
    split
    · rw [List.length_cons, List.length_singleton]
      omega
    · rw [List.length_singleton]
      omega

theorem writeLoop_eq {size passes : ℕ} (hsize : 0 < size) (hpasses : file.length < passes) :
    writeLoop size passes file = file := by
  induction passes generalizing file with
  | zero => exact absurd hpasses (Nat.not_lt_zero _)
  | succ passes ih =>
    rw [writeLoop]
    split
    · next hempty =>
      rcases List.take_eq_nil_iff.mp (List.isEmpty_iff.mp hempty) with hzero | hnil
      · exact absurd hzero hsize.ne'
      · exact hnil.symm
    · next hnot =>
      have hfile : file ≠ [] := by
        rintro rfl
        exact hnot (by rw [List.take_nil]; rfl)
      have hlength := List.length_pos_iff.mpr hfile
      rw [ih (by rw [List.length_drop]; omega), List.take_append_drop]

/-- What `RETR` makes of the rest of a file. -/
def sent (type : TypeCode) (file : Bytes) : Bytes := if type = .A then Ftp.expand file else file

theorem sendData_eq (htype : type ≠ .E) (hblksize : 0 < blksize) (isreg : Bool) :
    sendData type blksize isreg file = sent type file := by
  have hbinary : (if isreg && decide (file.length < 16 * 1024 * 1024) then file
      else writeLoop (blksize * 16) (file.length + 1) file) = file := by
    split
    · rfl
    · exact writeLoop_eq (by omega) (Nat.lt_succ_self _)
  cases type with
  | A => exact Ftp.sendData_outstr file ⟨[], 0⟩
  | E => exact absurd rfl htype
  | I => exact hbinary
  | L => exact hbinary

theorem sizecmd_eq (htype : type ≠ .E) : sizecmd type file = some (sent type file).length := by
  cases type with
  | A => exact congrArg some ((countAscii_eq 0).trans (Nat.zero_add _))
  | E => exact absurd rfl htype
  | I => rfl
  | L => rfl

/-! ## Where the loop comes out -/

theorem skipAscii_of_le {stop : Int} (h : ¬ i < stop) : skipAscii stop i file = some file := by
  cases file with
  | nil => rw [skipAscii, if_neg h]
  | cons c fin => rw [skipAscii, if_neg h]

theorem Inside.pos (h : Inside file n) : 0 < n := by
  obtain ⟨front, back, -, rfl⟩ := h
  exact Nat.succ_pos _

theorem Inside.lt_length (h : Inside file n) : n < (Ftp.expand file).length := by
  obtain ⟨front, back, rfl, rfl⟩ := h
  have hsplit : Ftp.expand (front ++ Ftp.LF :: back) =
      Ftp.expand front ++ Ftp.expand (Ftp.LF :: back) := List.flatMap_append
  rw [hsplit, expand_cons, if_pos rfl, List.length_append, List.length_append, List.length_cons,
    List.length_singleton]
  omega

theorem inside_newline : Inside (Ftp.LF :: fin) n ↔ n = 1 ∨ ∃ k, n = k + 2 ∧ Inside fin k := by
  constructor
  · rintro ⟨front, back, hfile, hn⟩
    cases front with
    | nil => exact Or.inl hn
    | cons d front =>
      rw [List.cons_append] at hfile
      obtain ⟨rfl, rfl⟩ := List.cons.inj hfile
      rw [expand_cons, if_pos rfl, List.length_append] at hn
      refine Or.inr ⟨_, ?_, front, back, rfl, rfl⟩
      rw [hn, List.length_cons, List.length_singleton]
      omega
  · rintro (rfl | ⟨k, rfl, front, back, rfl, rfl⟩)
    · exact ⟨[], fin, rfl, rfl⟩
    · refine ⟨Ftp.LF :: front, back, rfl, ?_⟩
      rw [expand_cons, if_pos rfl, List.length_append, List.length_cons, List.length_singleton]
      omega

theorem inside_cons (hc : c ≠ Ftp.LF) : Inside (c :: fin) n ↔ ∃ k, n = k + 1 ∧ Inside fin k := by
  constructor
  · rintro ⟨front, back, hfile, hn⟩
    cases front with
    | nil => exact absurd (List.cons.inj hfile).1 hc
    | cons d front =>
      rw [List.cons_append] at hfile
      obtain ⟨rfl, rfl⟩ := List.cons.inj hfile
      rw [expand_cons, if_neg hc, List.length_append] at hn
      refine ⟨_, ?_, front, back, rfl, rfl⟩
      rw [hn, List.length_singleton]
      omega
  · rintro ⟨k, rfl, front, back, rfl, rfl⟩
    refine ⟨c :: front, back, rfl, ?_⟩
    rw [expand_cons, if_neg hc, List.length_append, List.length_singleton]
    omega

/-- The loop stops at the offset, or, when that is inside a newline, behind the newline. The
induction is on the file. -/
theorem skipAscii_spec (hm : m ≤ (Ftp.expand file).length) :
    ∃ back, skipAscii (i + m) i file = some back ∧
      (¬ Inside file m ∧ Ftp.expand back = (Ftp.expand file).drop m ∨
        Inside file m ∧ Ftp.expand back = (Ftp.expand file).drop (m + 1)) := by
  induction file generalizing i m with
  | nil =>
    have hm0 : m = 0 := Nat.le_zero.mp hm
    subst hm0
    refine ⟨[], skipAscii_of_le (by omega), Or.inl ⟨?_, rfl⟩⟩
    exact fun h => absurd h.pos (Nat.lt_irrefl 0)
  | cons c fin ih =>
    rcases Nat.eq_zero_or_pos m with rfl | hpos
    · refine ⟨c :: fin, skipAscii_of_le (by omega), Or.inl ⟨?_, rfl⟩⟩
      exact fun h => absurd h.pos (Nat.lt_irrefl 0)
    · rw [skipAscii, if_pos (by omega)]
      by_cases hc : c = Ftp.LF
      · subst hc
        rw [expand_cons, if_pos rfl, List.length_append, List.length_cons, List.length_singleton]
          at hm
        rw [expand_cons, if_pos rfl, if_pos rfl, inside_newline]
        rcases Nat.lt_or_ge m 2 with hone | htwo
        · -- between the CR and the LF
          obtain rfl : m = 1 := by omega
          exact ⟨fin, skipAscii_of_le (by omega), Or.inr ⟨Or.inl rfl, rfl⟩⟩
        · obtain ⟨k, rfl⟩ := Nat.exists_eq_add_of_le' htwo
          obtain ⟨back, hback, hcases⟩ := ih (i := i + 1 + 1) (m := k) (by omega)
          have hinside : (k + 2 = 1 ∨ ∃ j, k + 2 = j + 2 ∧ Inside fin j) ↔ Inside fin k := by
            constructor
            · rintro (h | ⟨j, hj, h⟩)
              · omega
              · obtain rfl : k = j := by omega
                exact h
            · exact fun h => Or.inr ⟨k, rfl, h⟩
          rw [hinside]
          refine ⟨back, ?_, hcases⟩
          rw [← hback]
          congr 1
          omega
      · rw [expand_cons, if_neg hc, List.length_append, List.length_singleton] at hm
        rw [expand_cons, if_neg hc, if_neg hc, inside_cons hc]
        obtain ⟨k, rfl⟩ := Nat.exists_eq_add_of_le' hpos
        obtain ⟨back, hback, hcases⟩ := ih (i := i + 1) (m := k) (by omega)
        have hinside : (∃ j, k + 1 = j + 1 ∧ Inside fin j) ↔ Inside fin k := by
          constructor
          · rintro ⟨j, hj, h⟩
            obtain rfl : k = j := by omega
            exact h
          · exact fun h => ⟨k, rfl, h⟩
        rw [hinside]
        refine ⟨back, ?_, hcases⟩
        rw [← hback]
        congr 1
        omega

/-! ## The restart point -/

theorem rest_cases (n : ℕ) : (n < 2147483648 ∧ rest n = n) ∨
    (2147483648 ≤ n ∧ rest n + 1 < n) := by
  rw [rest, atoi, foldl_value, value_decimal]
  split <;> omega

theorem position_spec (htype : type ≠ .E) (hm : m ≤ (sent type file).length) :
    ∃ back, position type m file = some back ∧
      (¬ (type = .A ∧ Inside file m) ∧ sent type back = (sent type file).drop m ∨
        (type = .A ∧ Inside file m) ∧ sent type back = (sent type file).drop (m + 1)) := by
  rw [position]
  split
  · next hzero =>
    obtain rfl : m = 0 := by exact_mod_cast hzero
    exact ⟨file, rfl, Or.inl ⟨fun h => absurd h.2.pos (Nat.lt_irrefl 0), rfl⟩⟩
  · by_cases hA : type = .A
    · subst hA
      obtain ⟨back, hback, hcases⟩ := skipAscii_spec (i := 0) (m := m) hm
      rw [Int.zero_add] at hback
      simp only [true_and]
      exact ⟨back, hback, hcases⟩
    · have hsent (xs : Bytes) : sent type xs = xs := if_neg hA
      rw [if_neg hA, if_neg (by omega), Int.toNat_natCast]
      refine ⟨_, rfl, Or.inl ⟨fun h => hA h.1, ?_⟩⟩
      rw [hsent, hsent]

/-- A restart point that is no `int` cannot be used, or is in front of the offset. -/
theorem retrieve_ne (htype : type ≠ .E) (hblksize : 0 < blksize) (hpos : 0 < n)
    (hn : n ≤ (sent type file).length) {point : Int} (hpoint : point + 1 < n) :
    retrieve type blksize point file ≠ some ((sent type file).drop n) := by
  intro h
  obtain ⟨back, hback, hsent⟩ := Option.map_eq_some_iff.mp h
  rw [sendData_eq htype hblksize] at hsent
  have hlength := congrArg List.length hsent
  rw [List.length_drop] at hlength
  rcases lt_or_ge point 0 with hneg | hnonneg
  · rw [position, if_neg hneg.ne] at hback
    split at hback
    · rw [skipAscii_of_le (by omega)] at hback
      cases hback
      omega
    · cases hback
  · obtain ⟨m, rfl⟩ := Int.eq_ofNat_of_zero_le hnonneg
    obtain ⟨rest, hrest, hcases⟩ :=
      position_spec (m := m) htype (by omega : m ≤ (sent type file).length)
    obtain rfl := Option.some.inj (hback.symm.trans hrest)
    rcases hcases with ⟨-, hdrop⟩ | ⟨-, hdrop⟩
    · rw [hdrop, List.length_drop] at hlength
      omega
    · rw [hdrop, List.length_drop] at hlength
      omega

theorem retrieve_iff (htype : type ≠ .E) (hblksize : 0 < blksize)
    (hm : m ≤ (sent type file).length) :
    retrieve type blksize m file = some ((sent type file).drop m) ↔
      ¬ (type = .A ∧ Inside file m) := by
  obtain ⟨back, hback, hcases⟩ := position_spec htype hm
  rw [retrieve, hback, Option.map_some, sendData_eq htype hblksize]
  rcases hcases with ⟨hnot, hdrop⟩ | ⟨hinside, hdrop⟩
  · rw [hdrop]
    exact iff_of_true rfl hnot
  · refine iff_of_false (fun h => ?_) (not_not_intro hinside)
    have hlt : m < (sent type file).length := by
      rw [sent, if_pos hinside.1]
      exact hinside.2.lt_length
    have hlength := congrArg List.length (Option.some.inj h)
    rw [hdrop, List.length_drop, List.length_drop] at hlength
    omega

/-- `SIZE`, `REST` and `RETR` agree about an offset in the file, exactly if the offset is an `int`
and, in TYPE A, is not that of the LF of a newline. -/
theorem restart_agrees_iff (htype : type ≠ .E) (hblksize : 0 < blksize) {size : ℕ}
    (hsize : sizecmd type file = some size) (hn : n ≤ size) :
    Agrees type blksize file n ↔ n < 2147483648 ∧ (type = .A → ¬ Inside file n) := by
  rw [sizecmd_eq htype] at hsize
  obtain rfl := Option.some.inj hsize
  have hfull : retrieve type blksize 0 file = some (sent type file) :=
    congrArg some (sendData_eq htype hblksize _)
  have hagrees : Agrees type blksize file n ↔
      retrieve type blksize (rest n) file = some ((sent type file).drop n) := by
    constructor
    · rintro ⟨full, h, -, hrest⟩
      obtain rfl := Option.some.inj (hfull.symm.trans h)
      exact hrest
    · exact fun h => ⟨_, hfull, sizecmd_eq htype, h⟩
  rw [hagrees]
  rcases rest_cases n with ⟨hlt, heq⟩ | ⟨hge, hlt⟩
  · rw [heq, retrieve_iff htype hblksize hn, not_and]
    exact (and_iff_right hlt).symm
  · exact iff_of_false (retrieve_ne htype hblksize (by omega) hn hlt) fun h => absurd h.1 (by omega)

/-- Behind a newline. -/
theorem agrees_behind_newline : Agrees .A 4096 [97, Ftp.LF, 98] 3 := by
  have hbehind : ¬ Inside [97, Ftp.LF, 98] 3 := by
    intro h
    obtain ⟨k, hk, h⟩ := (inside_cons (by decide)).mp h
    obtain rfl : k = 2 := by omega
    rcases inside_newline.mp h with hone | ⟨j, hj, h⟩
    · cases hone
    · have hpos := h.pos
      omega
  exact (restart_agrees_iff (by decide) (by decide) rfl (by decide)).mpr ⟨by decide, fun _ => hbehind⟩

/-- Between the CR and the LF, the LF is not sent. -/
theorem not_agrees_newline : ¬ ∀ type blksize file n size, type = .A ∨ type = .I → 0 < blksize →
    sizecmd type file = some size → n ≤ size → Agrees type blksize file n := by
  intro h
  obtain ⟨full, hfull, -, hrest⟩ :=
    h .A 4096 [97, Ftp.LF, 98] 2 4 (Or.inl rfl) (by decide) rfl (by decide)
  have hfull' : retrieve .A 4096 0 [97, Ftp.LF, 98] = some [97, Ftp.CR, Ftp.LF, 98] := by decide
  have hrest' : retrieve .A 4096 (rest 2) [97, Ftp.LF, 98] = some [98] := by decide +kernel
  obtain rfl := Option.some.inj (hfull.symm.trans hfull')
  rw [hrest'] at hrest
  exact absurd hrest (by decide)

end Netkit.Ftpd.Contents

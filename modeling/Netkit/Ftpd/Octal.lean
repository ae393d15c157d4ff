import Mathlib.Data.Nat.Digits.Defs
import Netkit.Foundations.Decimal
import Netkit.Ftpd.Server

/-!
# Octal arguments

The scanner reads a number as a decimal one, and `octal_number` reads its digits again. Digits that
are not octal give -1, which `SITE UMASK` tests for and `SITE CHMOD` does not; a number that is no
`int` has become another one by then.

* `octal_arguments_iff`: the arguments that are taken at face value or refused.
-/

namespace Netkit.Ftpd

open Netkit.Foundations

/-! ## Digits -/

/-- The decimal digits of `n` are octal ones. -/
def Octal (n : ℕ) : Prop := ∀ d ∈ Nat.digits 10 n, d ≤ 7

instance (n : ℕ) : Decidable (Octal n) :=
  inferInstanceAs (Decidable (∀ d ∈ Nat.digits 10 n, d ≤ 7))

def reread (n : ℕ) : ℕ := Nat.ofDigits 8 (Nat.digits 10 n)

theorem octal_iff (n : ℕ) : Octal n ↔ n % 10 ≤ 7 ∧ Octal (n / 10) := by
  rcases Nat.eq_zero_or_pos n with rfl | hn
  · refine ⟨fun h => ⟨by decide, h⟩, fun h => h.2⟩
  · rw [Octal, Nat.digits_def' (by decide) hn, List.forall_mem_cons]
    exact Iff.rfl

theorem reread_eq (n : ℕ) : reread n = n % 10 + 8 * reread (n / 10) := by
  rcases Nat.eq_zero_or_pos n with rfl | hn
  · rfl
  · rw [reread, Nat.digits_def' (by decide) hn, Nat.ofDigits_cons]
    rfl

theorem reread_pos {n : ℕ} (hn : 0 < n) : 0 < reread n := by
  induction n using Nat.strong_induction_on with
  | _ n ih =>
    rw [reread_eq]
    rcases Nat.eq_zero_or_pos (n / 10) with hzero | hpos
    · have hmod : n % 10 = n := Nat.mod_eq_of_lt (by omega)
      omega
    · have h := ih (n / 10) (Nat.div_lt_self hn (by decide)) hpos
      omega

theorem reread_eq_one {n : ℕ} (h : reread n = 1) : n = 1 := by
  rw [reread_eq] at h
  have hzero : n / 10 = 0 := by
    by_contra hne
    have hpos := reread_pos (Nat.pos_of_ne_zero hne)
    omega
  rw [hzero, show reread 0 = 0 from rfl] at h
  omega

theorem reread_le_iff {n : ℕ} (h : Octal n) : reread n ≤ 511 ↔ n ≤ 777 := by
  obtain ⟨hones, h⟩ := (octal_iff n).mp h
  obtain ⟨heights, h⟩ := (octal_iff (n / 10)).mp h
  obtain ⟨hsquares, -⟩ := (octal_iff (n / 10 / 10)).mp h
  have hreread : reread n =
      n % 10 + 8 * (n / 10 % 10 + 8 * (n / 10 / 10 % 10 + 8 * reread (n / 10 / 10 / 10))) := by
    rw [reread_eq n, reread_eq (n / 10), reread_eq (n / 10 / 10)]
  rcases Nat.eq_zero_or_pos (n / 10 / 10 / 10) with hzero | hpos
  · rw [hzero, show reread 0 = 0 from rfl] at hreread
    omega
  · have h := reread_pos hpos
    omega

/-! ## `octal_number` -/

theorem octalDigits_natCast (fuel : ℕ) {n : ℕ} (hn : n < 10 ^ fuel) {multby : ℤ} (hpos : 0 < multby) :
    octalDigits fuel n multby = if Octal n then multby * reread n else -1 := by
  induction fuel generalizing n multby with
  | zero =>
    obtain rfl : n = 0 := by omega
    rw [octalDigits, if_pos (by decide)]
    rw [show reread 0 = 0 from rfl, Nat.cast_zero, mul_zero]
  | succ fuel ih =>
    rw [octalDigits]
    rcases Nat.eq_zero_or_pos n with rfl | hn0
    · rw [if_pos Nat.cast_zero, if_pos (by decide), show reread 0 = 0 from rfl, Nat.cast_zero,
        mul_zero]
    · have hdiv : (n : ℤ).tdiv 10 = (n / 10 : ℕ) := (Int.ofNat_tdiv n 10).symm
      have hmod : (n : ℤ).tmod 10 = (n % 10 : ℕ) := (Int.ofNat_tmod n 10).symm
      have hlt : n / 10 < 10 ^ fuel := by
        rw [Nat.div_lt_iff_lt_mul (by decide)]
        rwa [pow_succ] at hn
      rw [if_neg (by omega), hdiv, hmod, ih hlt (by omega)]
      dsimp only
      have hreread := reread_eq n
      by_cases hrest : Octal (n / 10)
      · have hnat : 0 ≤ multby * 8 * (reread (n / 10) : ℤ) := by positivity
        rw [if_pos hrest]
        by_cases hones : n % 10 ≤ 7
        · rw [if_neg (by omega), if_pos ((octal_iff n).mpr ⟨hones, hrest⟩), hreread]
          push_cast
          ring
        · rw [if_pos (Or.inl (by omega)), if_neg fun h => hones ((octal_iff n).mp h).1]
      · rw [if_neg hrest, if_pos (Or.inr rfl), if_neg fun h => hrest ((octal_iff n).mp h).2]

theorem octalDigits_neg (fuel : ℕ) {n : ℕ} (hn : n < 10 ^ fuel) (multby : ℤ) :
    octalDigits fuel (-(n : ℤ)) multby = -(multby * reread n) := by
  induction fuel generalizing n multby with
  | zero =>
    obtain rfl : n = 0 := by omega
    rw [octalDigits, show reread 0 = 0 from rfl, Nat.cast_zero, mul_zero, neg_zero]
  | succ fuel ih =>
    rw [octalDigits]
    rcases Nat.eq_zero_or_pos n with rfl | hn0
    · rw [if_pos (by rw [Nat.cast_zero, neg_zero]), show reread 0 = 0 from rfl, Nat.cast_zero,
        mul_zero, neg_zero]
    · have hdiv : (-(n : ℤ)).tdiv 10 = -((n / 10 : ℕ) : ℤ) := by
        rw [Int.neg_tdiv, Int.ofNat_tdiv]
        rfl
      have hmod : (-(n : ℤ)).tmod 10 = -((n % 10 : ℕ) : ℤ) := by
        rw [Int.neg_tmod, Int.ofNat_tmod]
        rfl
      have hlt : n / 10 < 10 ^ fuel := by
        rw [Nat.div_lt_iff_lt_mul (by decide)]
        rwa [pow_succ] at hn
      have height : -(multby * 8 * (reread (n / 10) : ℤ)) ≠ -1 := by
        rw [mul_assoc, mul_left_comm]
        omega
      rw [if_neg (by omega), hdiv, hmod, ih hlt]
      dsimp only
      rw [if_neg (not_or.mpr ⟨by omega, height⟩), reread_eq n]
      push_cast
      ring

theorem octalNumber_natCast {n : ℕ} (hn : n < 2147483648) :
    octalNumber n = if Octal n then (reread n : ℤ) else -1 := by
  rw [octalNumber, octalDigits_natCast 11 (hn.trans (by decide)) Int.one_pos, one_mul]

theorem octalNumber_neg {n : ℕ} (hn : n ≤ 2147483648) :
    octalNumber (-(n : ℤ)) = -(reread n : ℤ) := by
  rw [octalNumber, octalDigits_neg 11 (hn.trans_lt (by decide)), one_mul]

/-! ## Arguments -/

theorem value_append (digits : Bytes) (c : UInt8) :
    value (digits ++ [c]) = 10 * value digits + (c.toNat - 48) := by
  rw [value, List.foldl_append]
  rfl

theorem octalValue_eq {digits : Bytes} (hdigits : ∀ c ∈ digits, isDigit c = true) :
    octalValue digits = if Octal (value digits) then some (reread (value digits)) else none := by
  induction digits using List.reverseRecOn with
  | nil => rfl
  | append_singleton digits c ih =>
    have hc : isDigit c = true := hdigits c (List.mem_append_right _ List.mem_cons_self)
    rw [isDigit, Bool.and_eq_true, decide_eq_true_iff, decide_eq_true_iff] at hc
    have hih := ih fun d hd => hdigits d (List.mem_append_left _ hd)
    rw [octalValue] at hih
    rw [octalValue, List.foldl_append, hih, value_append]
    have hmod : (10 * value digits + (c.toNat - 48)) % 10 = c.toNat - 48 := by omega
    have hdiv : (10 * value digits + (c.toNat - 48)) / 10 = value digits := by omega
    have hoctal := octal_iff (10 * value digits + (c.toNat - 48))
    have hreread := reread_eq (10 * value digits + (c.toNat - 48))
    rw [hmod, hdiv] at hoctal hreread
    by_cases hfront : Octal (value digits)
    · rw [if_pos hfront, List.foldl_cons, List.foldl_nil, Option.bind_some]
      by_cases hlast : c.toNat ≤ 55
      · rw [if_pos ⟨hc.1, hlast⟩, if_pos (hoctal.mpr ⟨by omega, hfront⟩), hreread, Nat.add_comm]
      · rw [if_neg fun h => hlast h.2, if_neg fun h => hlast (by have := (hoctal.mp h).1; omega)]
    · rw [if_neg hfront, if_neg fun h => hfront (hoctal.mp h).2]
      rfl

theorem atoi_cases (digits : Bytes) :
    value digits < 2147483648 ∧ atoi digits = value digits ∨
      2147483648 ≤ value digits ∧ -2147483648 ≤ atoi digits ∧ atoi digits < 2147483648 := by
  rw [atoi, foldl_value]
  split <;> omega

/-! ## The commands -/

deriving instance Inhabited for Data.Ending, Data.Course, Data.ConnectEnv, Data.FileEnv, Data.Glob,
  Data.ListEnv, Data.PassiveEnv, Data.Unique, Database, LoginEnv, LineEnv

def Refused (s s' : Server) : Prop := ∃ code text, 500 ≤ code ∧ s' = s.reply code text

/-- The permissions of a file behind `chmod`. -/
def chmodded (env : LineEnv) (mode : Int) (old : ℕ) : ℕ :=
  if 511 < mode then old
  else if !env.call then old
  else (mode % 4096).toNat

/-- `SITE UMASK` refuses the digits, or sets the mask to their octal value. -/
def UmaskTakes (digits : Bytes) : Prop :=
  ∀ s : Server, Refused s (s.umaskCommand (some (octalNumber (atoi digits)))) ∨
    ∃ (mode : ℕ) (text : Bytes), octalValue digits = some mode ∧ mode ≤ 511 ∧
      s.umaskCommand (some (octalNumber (atoi digits))) = { s with umask := mode }.reply 200 text

/-- `SITE CHMOD` refuses the digits, or gives the file the permissions of their octal value. -/
def ChmodTakes (digits : Bytes) : Prop :=
  ∀ (s : Server) (env : LineEnv) (path : Bytes) (old : ℕ),
    (chmodded env (octalNumber (atoi digits)) old = old ∧
      Refused s (s.chmodCommand env (octalNumber (atoi digits)) path)) ∨
    ∃ (mode : ℕ) (text : Bytes), octalValue digits = some mode ∧ mode ≤ 511 ∧
      chmodded env (octalNumber (atoi digits)) old = mode ∧
      s.chmodCommand env (octalNumber (atoi digits)) path = s.reply 200 text

variable {digits : Bytes} {w : ℤ} {n : ℕ}

theorem not_refused (s s' : Server) (text : Bytes) : ¬ Refused s (s'.reply 200 text) := by
  rintro ⟨code, text', hcode, heq⟩
  have hlast := congrArg (fun t : Server => t.replies.getLast?) heq
  rw [Server.reply, Server.reply] at hlast
  dsimp only at hlast
  rw [List.getLast?_concat, List.getLast?_concat] at hlast
  have h200 : (200 : ℕ) = code := congrArg Reply.code (Option.some.inj hlast)
  omega

theorem umaskTakes_iff : UmaskTakes digits ↔
    (octalNumber (atoi digits) = -1 ∨ 511 < octalNumber (atoi digits)) ∨
      ∃ mode : ℕ, octalValue digits = some mode ∧ mode ≤ 511 ∧
        octalNumber (atoi digits) % 512 = mode := by
  rw [UmaskTakes]
  generalize octalNumber (atoi digits) = w
  by_cases hbad : w = -1 ∨ 511 < w
  · refine ⟨fun _ => Or.inl hbad, fun _ s =>
      Or.inl ⟨501, ascii "Bad UMASK value", by decide, ?_⟩⟩
    rw [Server.umaskCommand]
    exact if_pos hbad
  · have hset (s : Server) : s.umaskCommand (some w) = { s with umask := w % 512 }.reply 200
        (ascii "UMASK set to " ++ octal3 w ++ ascii " (was " ++ octal3 s.umask ++ ascii ")") := by
      rw [Server.umaskCommand]
      exact if_neg hbad
    constructor
    · intro h
      right
      let s := Server.start ⟨0, 0⟩ false [] []
      rcases h s with hrefused | ⟨mode, text, hvalue, hmode, htaken⟩
      · rw [hset] at hrefused
        exact absurd hrefused (not_refused _ _ _)
      · rw [hset] at htaken
        exact ⟨mode, hvalue, hmode, congrArg Server.umask htaken⟩
    · rintro (h | ⟨mode, hvalue, hmode, hw⟩) s
      · exact absurd h hbad
      · exact Or.inr ⟨mode, _, hvalue, hmode, (hset s).trans (by rw [hw])⟩

theorem chmodTakes_iff : ChmodTakes digits ↔ 511 < octalNumber (atoi digits) ∨
    ∃ mode : ℕ, octalValue digits = some mode ∧ mode ≤ 511 ∧
      octalNumber (atoi digits) % 4096 = mode := by
  rw [ChmodTakes]
  generalize octalNumber (atoi digits) = w
  by_cases hbad : 511 < w
  · refine ⟨fun _ => Or.inl hbad, fun _ s env path old => Or.inl ⟨if_pos hbad, 501,
      ascii "CHMOD: Mode value must be between 0 and 0777", by decide, ?_⟩⟩
    rw [Server.chmodCommand]
    exact if_pos hbad
  · constructor
    · intro h
      right
      let s := Server.start ⟨0, 0⟩ false [] []
      let env : LineEnv := { (default : LineEnv) with call := true }
      have hset : s.chmodCommand env w [] = s.reply 200 (ascii "CHMOD command successful.") := by
        rw [Server.chmodCommand]
        exact if_neg hbad
      rcases h s env [] 0 with ⟨-, hrefused⟩ | ⟨mode, text, hvalue, hmode, htaken, -⟩
      · rw [hset] at hrefused
        exact absurd hrefused (not_refused _ _ _)
      · have hmod : (w % 4096).toNat = mode := by
          rw [chmodded, if_neg hbad] at htaken
          exact htaken
        exact ⟨mode, hvalue, hmode, by omega⟩
    · rintro (h | ⟨mode, hvalue, hmode, hw⟩) s env path old
      · exact absurd h hbad
      · cases hcall : env.call with
        | false =>
          left
          rw [chmodded, Server.chmodCommand, if_neg hbad, if_neg hbad, hcall]
          exact ⟨rfl, 550, _, by decide, rfl⟩
        | true =>
          right
          refine ⟨mode, ascii "CHMOD command successful.", hvalue, hmode, ?_, ?_⟩
          · rw [chmodded, if_neg hbad, hcall, hw]
            rfl
          · rw [Server.chmodCommand, if_neg hbad, hcall]
            rfl

/-! ## What is taken -/

def IsMode (n : ℤ) : Prop := 0 ≤ n ∧ n ≤ 777 ∧ Octal n.toNat

theorem octalNumber_mode (hlow : -2147483648 ≤ w) (hhigh : w < 2147483648) :
    (w < 0 ∧ octalNumber w < 0 ∧ (octalNumber w = -1 ↔ w = -1)) ∨
      (0 ≤ w ∧ Octal w.toNat ∧ octalNumber w = reread w.toNat ∧
        (octalNumber w ≤ 511 ↔ w ≤ 777)) ∨
      (0 ≤ w ∧ ¬ Octal w.toNat ∧ octalNumber w = -1) := by
  rcases lt_or_ge w 0 with hneg | hpos
  · left
    obtain ⟨n, rfl⟩ : ∃ n : ℕ, w = -(n : ℤ) := ⟨w.natAbs, by omega⟩
    have hpos := reread_pos (n := n) (by omega)
    have hone := reread_eq_one (n := n)
    rw [octalNumber_neg (by omega)]
    refine ⟨hneg, by omega, fun h => ?_, fun h => ?_⟩
    · have h1 := hone (by omega)
      omega
    · obtain rfl : n = 1 := by omega
      decide +kernel
  · right
    obtain ⟨n, rfl⟩ := Int.eq_ofNat_of_zero_le hpos
    rw [Int.toNat_natCast, octalNumber_natCast (by omega)]
    by_cases hoctal : Octal n
    · have hle := reread_le_iff hoctal
      rw [if_pos hoctal]
      exact Or.inl ⟨hpos, hoctal, rfl, by omega⟩
    · rw [if_neg hoctal]
      exact Or.inr ⟨hpos, hoctal, rfl⟩

/-- For every string of digits: `SITE UMASK` takes it at face value or refuses it exactly if it is an
`int`, or the `int` that it becomes is -1, or that is not negative and no mode; `SITE CHMOD` does
exactly if the `int` that it becomes is not negative and has octal digits only, and it is the number
itself or too large for a mode. -/
theorem octal_arguments_iff (digits : Bytes) (hdigits : ∀ c ∈ digits, isDigit c = true) :
    (UmaskTakes digits ↔ value digits < 2147483648 ∨ atoi digits = -1 ∨
      0 ≤ atoi digits ∧ ¬ IsMode (atoi digits)) ∧
    (ChmodTakes digits ↔ 0 ≤ atoi digits ∧ Octal (atoi digits).toNat ∧
      (value digits < 2147483648 ∨ 777 < atoi digits)) := by
  rw [umaskTakes_iff, chmodTakes_iff, octalValue_eq hdigits, IsMode]
  rcases atoi_cases digits with ⟨hint, hw⟩ | ⟨hbig, hlow, hhigh⟩
  · -- the number is what the digits say
    rw [hw, Int.toNat_natCast, octalNumber_natCast hint]
    by_cases hoctal : Octal (value digits)
    · rw [if_pos hoctal, if_pos hoctal]
      constructor
      · refine iff_of_true ?_ (Or.inl hint)
        rcases Nat.lt_or_ge 511 (reread (value digits)) with hlarge | hsmall
        · exact Or.inl (Or.inr (by omega))
        · exact Or.inr ⟨_, rfl, hsmall, by omega⟩
      · refine iff_of_true ?_ ⟨by omega, hoctal, Or.inl hint⟩
        rcases Nat.lt_or_ge 511 (reread (value digits)) with hlarge | hsmall
        · exact Or.inl (by omega)
        · exact Or.inr ⟨_, rfl, hsmall, by omega⟩
    · rw [if_neg hoctal, if_neg hoctal]
      constructor
      · exact iff_of_true (Or.inl (Or.inl rfl)) (Or.inl hint)
      · refine iff_of_false ?_ fun h => hoctal h.2.1
        rintro (h | ⟨mode, h, -⟩)
        · omega
        · exact absurd h.symm (Option.some_ne_none mode)
  · -- the value of the digits is no mode
    have hnone (v : ℤ) : ¬ ∃ mode : ℕ, (if Octal (value digits) then some (reread (value digits))
        else none) = some mode ∧ mode ≤ 511 ∧ v = mode := by
      rintro ⟨mode, hvalue, hmode, -⟩
      split at hvalue
      · next hoctal =>
        obtain rfl := Option.some.inj hvalue
        have hsmall := (reread_le_iff hoctal).mp hmode
        omega
      · exact absurd hvalue.symm (Option.some_ne_none mode)
    rw [or_iff_left (hnone _), or_iff_left (hnone _)]
    rcases octalNumber_mode hlow hhigh with ⟨hneg, hneg', hone⟩ | ⟨hpos, hoctal, hnumber, hsmall⟩ |
      ⟨hpos, hoctal, hnumber⟩
    · rw [hone]
      omega
    · have hnat : 0 ≤ octalNumber (atoi digits) := hnumber ▸ Int.natCast_nonneg _
      constructor
      · constructor
        · intro h
          exact Or.inr (Or.inr ⟨hpos, fun hmode => by omega⟩)
        · rintro (h | h | ⟨-, h⟩)
          · omega
          · omega
          · have hlarge : ¬ atoi digits ≤ 777 := fun hle => h ⟨hpos, hle, hoctal⟩
            omega
      · constructor
        · intro h
          exact ⟨hpos, hoctal, by omega⟩
        · rintro ⟨-, -, h⟩
          omega
    · rw [hnumber]
      exact ⟨iff_of_true (Or.inl rfl) (Or.inr (Or.inr ⟨hpos, fun h => hoctal h.2.2⟩)),
        iff_of_false (by omega) fun h => hoctal h.2.1⟩

theorem octal_arguments_022 : UmaskTakes (ascii "022") ∧ ChmodTakes (ascii "022") := by
  have h := octal_arguments_iff (ascii "022") (List.all_eq_true.mp (by decide +kernel))
  exact ⟨h.1.mpr (Or.inl (by decide +kernel)),
    h.2.mpr ⟨by decide +kernel, by decide +kernel, Or.inl (by decide +kernel)⟩⟩

/-- `SITE CHMOD 8 file` gives the file every permission there is. -/
theorem not_octal_arguments : ¬ ∀ digits : Bytes, (∀ c ∈ digits, isDigit c = true) →
    UmaskTakes digits ∧ ChmodTakes digits := by
  intro h
  let s := Server.start ⟨0, 0⟩ false [] []
  let env : LineEnv := { (default : LineEnv) with call := true }
  have hchmod := (h (ascii "8") (List.all_eq_true.mp (by decide +kernel))).2 s env (ascii "file") 0
  have hvalue : octalValue (ascii "8") = none := by decide +kernel
  have hmode : chmodded env (octalNumber (atoi (ascii "8"))) 0 = 4095 := by decide +kernel
  rcases hchmod with ⟨hkept, -⟩ | ⟨mode, text, hmode, -⟩
  · exact absurd (hmode.symm.trans hkept) (by decide)
  · exact absurd (hvalue.symm.trans hmode) (Option.some_ne_none mode).symm

end Netkit.Ftpd

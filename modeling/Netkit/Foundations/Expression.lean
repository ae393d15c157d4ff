import Mathlib.Algebra.Ring.Nat
import Mathlib.Data.List.Basic

/-!
# Constant expressions of C

The text of an integer expression built from names, numerals, `+`, `*` and parentheses, read
the way a C compiler reads it: the text falls apart into tokens, and `*` binds closer than
`+`. What a name stands for is a parameter.
-/

namespace Netkit.Foundations.Expression

/-! ## Numerals -/

def digitValue (c : Char) : Nat :=
  if c.isDigit then c.toNat - '0'.toNat
  else if 'a' ≤ c then c.toNat - 'a'.toNat + 10
  else c.toNat - 'A'.toNat + 10

/-- The value of the digits `ds` in base `b`, after the digits read so far. -/
def positional (b : Nat) (ds : List Char) (n : Nat) : Nat :=
  ds.foldl (fun n c => b * n + digitValue c) n

/-- `0x` and `0` at the front of a numeral choose its base and are no digits of it. -/
def base (w : List Char) : Nat × Nat :=
  if w.take 2 = ['0', 'x'] then (16, 2) else if w.take 1 = ['0'] then (8, 1) else (10, 0)

def numeral (w : List Char) : Nat :=
  positional (base w).1 (w.drop (base w).2) 0

theorem positional_append (b : Nat) (ds es : List Char) (n : Nat) :
    positional b (ds ++ es) n = positional b es (positional b ds n) := by
  simp only [positional, List.foldl_append]

theorem le_positional {b : Nat} (hb : 1 ≤ b) (ds : List Char) (n : Nat) :
    n ≤ positional b ds n := by
  induction ds generalizing n with
  | nil => exact Nat.le_refl n
  | cons d ds ih =>
    have hstep : n ≤ b * n + digitValue d :=
      Nat.le_trans (Nat.le_mul_of_pos_left n hb) (Nat.le_add_right _ _)
    exact Nat.le_trans hstep (ih _)

theorem lt_positional {b : Nat} (hb : 2 ≤ b) {ds : List Char} (hds : ds ≠ []) (n : Nat) :
    n < positional b ds n ∨ positional b ds n = 0 := by
  cases n with
  | zero => exact (Nat.eq_zero_or_pos (positional b ds 0)).symm
  | succ n =>
    left
    cases ds with
    | nil => exact absurd rfl hds
    | cons d ds =>
      have hstep : n + 1 < b * (n + 1) + digitValue d := by
        have hdouble : 2 * (n + 1) ≤ b * (n + 1) := Nat.mul_le_mul_right _ hb
        omega
      exact Nat.lt_of_lt_of_le hstep (le_positional (by omega) ds _)

theorem positional_take {b : Nat} (hb : 2 ≤ b) (ds : List Char) (k : Nat) :
    positional b (ds.take k) 0 = positional b ds 0 ∧ (ds.length ≤ k ∨ positional b ds 0 = 0) ∨
      positional b (ds.take k) 0 < positional b ds 0 ∧ k < ds.length := by
  by_cases hk : ds.length ≤ k
  · left
    rw [List.take_of_length_le hk]
    exact ⟨rfl, Or.inl hk⟩
  · have hsplit : positional b ds 0 = positional b (ds.drop k) (positional b (ds.take k) 0) := by
      rw [← positional_append, List.take_append_drop]
    have hdrop : ds.drop k ≠ [] := by
      intro h
      exact hk (List.drop_eq_nil_iff.mp h)
    rcases lt_positional hb hdrop (positional b (ds.take k) 0) with hlt | hzero
    · right
      rw [hsplit]
      exact ⟨hlt, by omega⟩
    · left
      have hle := le_positional (b := b) (by omega) (ds.drop k) (positional b (ds.take k) 0)
      rw [hsplit]
      omega

theorem base_le (w : List Char) : 2 ≤ (base w).1 ∧ (base w).2 ≤ 2 := by
  unfold base
  split
  · exact ⟨by omega, by omega⟩
  · split
    · exact ⟨by omega, by omega⟩
    · exact ⟨by omega, by omega⟩

theorem base_take (w : List Char) {k : Nat} (hk : 2 ≤ k) : base (w.take k) = base w := by
  simp only [base, List.take_take, Nat.min_eq_left hk, Nat.min_eq_left (by omega : 1 ≤ k)]

theorem numeral_take (w : List Char) {k : Nat} (hk : 2 ≤ k) :
    numeral (w.take k) = numeral w ∧ (w.length ≤ k ∨ numeral w = 0) ∨
      numeral (w.take k) < numeral w ∧ k < w.length := by
  obtain ⟨hbase, hskip⟩ := base_le w
  have htake : numeral (w.take k) =
      positional (base w).1 ((w.drop (base w).2).take (k - (base w).2)) 0 := by
    rw [numeral, base_take w hk, List.drop_take]
  have hdigits := positional_take hbase (w.drop (base w).2) (k - (base w).2)
  rw [← htake, List.length_drop] at hdigits
  show numeral (w.take k) = positional (base w).1 (w.drop (base w).2) 0 ∧ _ ∨ _
  rcases hdigits with ⟨heq, hshort | hzero⟩ | ⟨hlt, hlong⟩
  · exact Or.inl ⟨heq, Or.inl (by omega)⟩
  · exact Or.inl ⟨heq, Or.inr hzero⟩
  · exact Or.inr ⟨hlt, by omega⟩

theorem positional_ten {ds : List Char} (h : ∀ c ∈ ds, c.isDigit) (n : Nat) :
    positional 10 ds n = Nat.ofDigitChars 10 ds n := by
  induction ds generalizing n with
  | nil => rfl
  | cons d ds ih =>
    have hd : digitValue d = d.toNat - '0'.toNat := if_pos (h d List.mem_cons_self)
    have hrest := ih (fun c hc => h c (List.mem_cons_of_mem d hc)) (10 * n + digitValue d)
    rw [Nat.ofDigitChars_cons, ← hd]
    exact hrest

theorem toDigits_cons {n : Nat} (hn : 0 < n) :
    ∃ c cs, Nat.toDigits 10 n = c :: cs ∧ c ≠ '0' := by
  induction n using Nat.strongRecOn with
  | ind n ih =>
    by_cases hlt : n < 10
    · refine ⟨n.digitChar, [], Nat.toDigits_of_lt_base hlt, ?_⟩
      rw [ne_eq, Nat.digitChar_eq_zero]
      omega
    · obtain ⟨c, cs, hcs, hc⟩ := ih (n / 10) (by omega) (by omega)
      refine ⟨c, cs ++ [(n % 10).digitChar], ?_, hc⟩
      rw [Nat.toDigits_of_base_le (by decide) (by omega), hcs]
      rfl

theorem numeral_toDigits (n : Nat) : numeral (Nat.toDigits 10 n) = n := by
  have hdigits : ∀ c ∈ Nat.toDigits 10 n, c.isDigit :=
    fun c hc => Nat.isDigit_of_mem_toDigits (by decide) (by decide) hc
  rcases Nat.eq_zero_or_pos n with rfl | hn
  · rfl
  · obtain ⟨c, cs, hcs, hc⟩ := toDigits_cons hn
    have hbase : base (Nat.toDigits 10 n) = (10, 0) := by
      rw [hcs, base, if_neg, if_neg]
      · intro h
        exact hc (List.cons.inj h).1
      · intro h
        rw [List.take_succ_cons] at h
        exact hc (List.cons.inj h).1
    rw [numeral, hbase, List.drop_zero, positional_ten hdigits]
    exact Nat.ofDigitChars_ten_toDigits

/-! ## Tokens -/

inductive Token where
  | word (w : List Char)
  | plus
  | times
  | lparen
  | rparen
  | other (c : Char)
deriving DecidableEq

def wordChar (c : Char) : Bool := c.isAlphanum || c == '_'

def punctuation (c : Char) : List Token :=
  if c = ' ' then []
  else if c = '+' then [.plus]
  else if c = '*' then [.times]
  else if c = '(' then [.lparen]
  else if c = ')' then [.rparen]
  else [.other c]

def endWord (w : List Char) : List Token := if w = [] then [] else [.word w]

/-- The tokens of a text that follows the characters `w` of an unfinished word. -/
def scan (w : List Char) : List Char → List Token
  | [] => endWord w
  | c :: cs => if wordChar c then scan (w ++ [c]) cs else endWord w ++ punctuation c ++ scan [] cs

def tokens (text : List Char) : List Token := scan [] text

def IsWord (w : List Char) : Prop := w ≠ [] ∧ ∀ c ∈ w, wordChar c

instance (w : List Char) : Decidable (IsWord w) :=
  decidable_of_iff (w ≠ [] ∧ w.all wordChar) (and_congr_right (fun _ => List.all_eq_true))

theorem scan_append_cons {c : Char} (hc : wordChar c = false) (w a b : List Char) :
    scan w (a ++ c :: b) = scan w a ++ punctuation c ++ tokens b := by
  induction a generalizing w with
  | nil => simp only [List.nil_append, scan, hc, Bool.false_eq_true, if_false, tokens]
  | cons d a ih =>
    by_cases hd : wordChar d
    · simp only [List.cons_append, scan, hd, if_true]
      exact ih (w ++ [d])
    · simp only [List.cons_append, scan, hd, Bool.false_eq_true, if_false, ih,
        List.append_assoc]

theorem tokens_append_cons {c : Char} (hc : wordChar c = false) (a b : List Char) :
    tokens (a ++ c :: b) = tokens a ++ punctuation c ++ tokens b :=
  scan_append_cons hc [] a b

theorem tokens_cons {c : Char} (hc : wordChar c = false) (b : List Char) :
    tokens (c :: b) = punctuation c ++ tokens b :=
  tokens_append_cons hc [] b

theorem scan_word {a : List Char} (ha : ∀ c ∈ a, wordChar c) (w : List Char) :
    scan w a = endWord (w ++ a) := by
  induction a generalizing w with
  | nil => rw [List.append_nil]; rfl
  | cons d a ih =>
    have hd : wordChar d = true := ha d List.mem_cons_self
    simp only [scan, hd, if_true]
    rw [ih (fun c hc => ha c (List.mem_cons_of_mem d hc)), List.append_assoc]
    rfl

theorem tokens_word {w : List Char} (hw : IsWord w) : tokens w = [.word w] := by
  rw [tokens, scan_word hw.2, List.nil_append, endWord, if_neg hw.1]

theorem isWord_toDigits (n : Nat) : IsWord (Nat.toDigits 10 n) := by
  refine ⟨Nat.toDigits_ne_nil, fun c hc => ?_⟩
  have hdigit := Nat.isDigit_of_mem_toDigits (by decide) (by decide) hc
  simp only [wordChar, Char.isAlphanum, hdigit, Bool.or_true, Bool.true_or]

theorem isWord_take {w : List Char} (hw : IsWord w) {k : Nat} (hk : 0 < k) : IsWord (w.take k) := by
  refine ⟨fun h => ?_, fun c hc => hw.2 c (List.mem_of_mem_take hc)⟩
  rcases List.take_eq_nil_iff.mp h with h | h
  · omega
  · exact hw.1 h

/-! ## Values -/

/-- What has been read of a sum: the products before the last `+`, added up, and the product
after it. -/
structure Level where
  sum : Nat
  prod : Nat
deriving DecidableEq

def Level.start : Level := ⟨0, 1⟩

def Level.total (l : Level) : Nat := l.sum + l.prod

def Level.mul (l : Level) (n : Nat) : Level := ⟨l.sum, l.prod * n⟩

def Level.add (l : Level) : Level := ⟨l.total, 1⟩

variable (lookup : List Char → Option Nat)

/-- Reads an expression to its end. `operand` says that the text so far ends in an operand;
`outer` holds the sums that the open parentheses interrupt. -/
def reckon : List Token → Bool → Level → List Level → Option Nat
  | .word w :: ts, false, l, outer => do reckon ts true (l.mul (← lookup w)) outer
  | .lparen :: ts, false, l, outer => reckon ts false .start (l :: outer)
  | .times :: ts, true, l, outer => reckon ts false l outer
  | .plus :: ts, true, l, outer => reckon ts false l.add outer
  | .rparen :: ts, true, l, m :: outer => reckon ts true (m.mul l.total) outer
  | [], true, l, [] => some l.total
  | _, _, _, _ => none

def evaluate (text : List Char) : Option Nat := reckon lookup (tokens text) false .start []

variable {lookup}

/-- The tokens of `+ w` for every word. -/
def addends (ws : List (List Char)) : List Token := ws.flatMap (fun w => [.plus, .word w])

/-- The level after `+ n` for every number. -/
def Level.addAll (l : Level) (ns : List Nat) : Level := ns.foldl (fun l n => l.add.mul n) l

theorem reckon_addends {ws : List (List Char)} {ns : List Nat}
    (h : ws.mapM lookup = some ns) (ts : List Token) (l : Level) (outer : List Level) :
    reckon lookup (addends ws ++ ts) true l outer = reckon lookup ts true (l.addAll ns) outer := by
  induction ws generalizing l ns with
  | nil =>
    obtain rfl : [] = ns := Option.some.inj h
    rfl
  | cons w ws ih =>
    rw [List.mapM_cons] at h
    simp only [Option.bind_eq_bind, Option.bind_eq_some_iff, Option.pure_def,
      Option.some.injEq] at h
    obtain ⟨n, hn, ns', hns', rfl⟩ := h
    have hrest := ih hns' (l.add.mul n)
    simp only [addends, List.flatMap_cons, List.cons_append, List.nil_append, reckon, hn,
      Option.bind_eq_bind, Option.bind_some]
    exact hrest

theorem addAll_total (l : Level) (ns : List Nat) : (l.addAll ns).total = l.total + ns.sum := by
  induction ns generalizing l with
  | nil => rfl
  | cons n ns ih =>
    have hstep : (l.add.mul n).total = l.total + n := by
      simp only [Level.add, Level.mul, Level.total, Nat.one_mul]
    show ((l.add.mul n).addAll ns).total = _
    rw [ih, hstep, List.sum_cons]
    omega

theorem addAll_mul_total (l : Level) (ns : List Nat) (n m : Nat) :
    ((l.addAll (ns ++ [n])).mul m).total = l.total + ns.sum + n * m := by
  have hlast : l.addAll (ns ++ [n]) = (l.addAll ns).add.mul n := by
    simp only [Level.addAll, List.foldl_append, List.foldl_cons, List.foldl_nil]
  rw [hlast]
  show (l.addAll ns).total + 1 * n * m = _
  rw [addAll_total, Nat.one_mul]

end Netkit.Foundations.Expression

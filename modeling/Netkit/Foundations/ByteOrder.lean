import Mathlib.Algebra.Order.Ring.Nat
import Mathlib.Data.List.Induction
import Netkit.Foundations.Lines
import Mathlib.Data.List.Basic

/-!
# Numbers in bytes, and tables of bits

Numbers in network byte order, and in the byte order of a host. A table of bits is kept in a list of
bytes, eight bits to a byte, the lowest first. What a bit is after one of them has been set or cleared
depends on that bit and on which was changed.
-/

namespace Netkit.Foundations

section Words

def word (b : Bytes) : ℕ := b.foldl (fun v c => v * 256 + c.toNat) 0

/-- The last `n` bytes of a number. -/
def wordBytes : ℕ → ℕ → Bytes
  | 0, _ => []
  | n + 1, v => wordBytes n (v / 256) ++ [UInt8.ofNat v]

@[simp] theorem wordBytes_length (n v : ℕ) : (wordBytes n v).length = n := by
  induction n generalizing v with
  | zero => rfl
  | succ n ih => rw [wordBytes, List.length_append, ih, List.length_singleton]

@[simp] theorem take_wordBytes (n v : ℕ) (rest : Bytes) :
    (wordBytes n v ++ rest).take n = wordBytes n v :=
  List.take_left' (wordBytes_length n v)

@[simp] theorem drop_wordBytes (n v : ℕ) (rest : Bytes) :
    (wordBytes n v ++ rest).drop n = rest :=
  List.drop_left' (wordBytes_length n v)

theorem word_snoc (b : Bytes) (c : UInt8) : word (b ++ [c]) = word b * 256 + c.toNat := by
  rw [word, List.foldl_append]
  rfl

theorem word_wordBytes (n v : ℕ) : word (wordBytes n v) = v % 256 ^ n := by
  induction n generalizing v with
  | zero => rw [Nat.pow_zero, Nat.mod_one]; rfl
  | succ n ih =>
    have hpow : 256 ^ (n + 1) = 256 * 256 ^ n := by rw [Nat.pow_succ, Nat.mul_comm]
    rw [wordBytes, word_snoc, ih, UInt8.toNat_ofNat', hpow, Nat.mod_mul]
    omega

theorem word_wordBytes_of_lt {n v : ℕ} (hv : v < 256 ^ n) : word (wordBytes n v) = v := by
  rw [word_wordBytes, Nat.mod_eq_of_lt hv]

theorem word_append (a b : Bytes) : word (a ++ b) = word a * 256 ^ b.length + word b := by
  induction b using List.reverseRecOn with
  | nil => rw [List.append_nil, List.length_nil, Nat.pow_zero, Nat.mul_one]; rfl
  | append_singleton b c ih =>
    rw [← List.append_assoc, word_snoc, word_snoc, ih, List.length_append, List.length_singleton,
      Nat.pow_succ, Nat.add_mul, Nat.mul_assoc, Nat.add_assoc]

theorem wordBytes_add (m n v : ℕ) :
    wordBytes (m + n) v = wordBytes m (v / 256 ^ n) ++ wordBytes n v := by
  induction n generalizing v with
  | zero => rw [Nat.pow_zero, Nat.div_one, wordBytes, List.append_nil]; rfl
  | succ n ih =>
    rw [← Nat.add_assoc, wordBytes, ih, wordBytes, List.append_assoc, Nat.div_div_eq_div_mul,
      Nat.pow_succ, Nat.mul_comm]

theorem wordBytes_zero (n : ℕ) : wordBytes n 0 = List.replicate n 0 := by
  induction n with
  | zero => rfl
  | succ n ih => rw [wordBytes, Nat.zero_div, ih, List.replicate_succ']; rfl

theorem word_replicate (n : ℕ) : word (List.replicate n 0) = 0 := by
  rw [← wordBytes_zero, word_wordBytes, Nat.zero_mod]

theorem wordBytes_word (b : Bytes) : wordBytes b.length (word b) = b := by
  induction b using List.reverseRecOn with
  | nil => rfl
  | append_singleton b c ih =>
    have hc : c.toNat < 256 := c.toNat_lt
    have hdiv : (word b * 256 + c.toNat) / 256 = word b := by omega
    have hlow : UInt8.ofNat (word b * 256 + c.toNat) = c := by
      apply UInt8.toNat_inj.mp
      rw [UInt8.toNat_ofNat']
      omega
    rw [word_snoc, List.length_append, List.length_singleton, wordBytes, hdiv, ih, hlow]

theorem word_lt (b : Bytes) : word b < 256 ^ b.length := by
  have h := word_wordBytes b.length (word b)
  rw [wordBytes_word] at h
  rw [h]
  exact Nat.mod_lt _ (Nat.pow_pos (by decide))

/-! ## Hosts -/

inductive ByteOrder where
  | big
  | little
deriving DecidableEq

namespace ByteOrder

/-- The number in `n` bytes of memory. -/
def store : ByteOrder → ℕ → ℕ → Bytes
  | .big, n, v => wordBytes n v
  | .little, n, v => (wordBytes n v).reverse

def load : ByteOrder → Bytes → ℕ
  | .big, b => word b
  | .little, b => word b.reverse

variable {a b : ByteOrder}

theorem store_length (a : ByteOrder) (n v : ℕ) : (a.store n v).length = n := by
  cases a with
  | big => exact wordBytes_length n v
  | little => exact List.length_reverse.trans (wordBytes_length n v)

theorem load_store (a : ByteOrder) (n v : ℕ) : a.load (a.store n v) = v % 256 ^ n := by
  cases a with
  | big => exact word_wordBytes n v
  | little => rw [load, store, List.reverse_reverse, word_wordBytes]

theorem store_load (a : ByteOrder) {n : ℕ} {m : Bytes} (hm : m.length = n) :
    a.store n (a.load m) = m := by
  subst hm
  cases a with
  | big => exact wordBytes_word m
  | little =>
    rw [load, store, ← List.length_reverse, wordBytes_word, List.reverse_reverse]

theorem load_lt (a : ByteOrder) (m : Bytes) : a.load m < 256 ^ m.length := by
  cases a with
  | big => exact word_lt m
  | little =>
    rw [← List.length_reverse]
    exact word_lt m.reverse

theorem load_wordBytes_lt (a : ByteOrder) (n v : ℕ) : a.load (wordBytes n v) < 256 ^ n := by
  have h := a.load_lt (wordBytes n v)
  rwa [wordBytes_length] at h

theorem load_store_cross (h : a ≠ b) (n v : ℕ) :
    b.load (a.store n v) = word (wordBytes n v).reverse := by
  cases a with
  | big =>
    cases b with
    | big => exact absurd rfl h
    | little => rfl
  | little =>
    cases b with
    | big => rfl
    | little => exact absurd rfl h

end ByteOrder

theorem word_reverse_wordBytes {m n v : ℕ} (hv : v < 256 ^ n) :
    256 ^ m ∣ word (wordBytes (m + n) v).reverse := by
  rw [wordBytes_add, Nat.div_eq_of_lt hv, wordBytes_zero, List.reverse_append,
    List.reverse_replicate, word_append, word_replicate, List.length_replicate, Nat.add_zero]
  exact Nat.dvd_mul_left _ _

end Words

section Bitmaps

def bitMask (i : Nat) : BitVec 8 := BitVec.twoPow 8 (i % 8)

def bitByte (table : List (BitVec 8)) (i : Nat) : BitVec 8 := table.getD (i / 8) 0

def setBit (table : List (BitVec 8)) (i : Nat) : List (BitVec 8) :=
  table.set (i / 8) (bitByte table i ||| bitMask i)

def clearBit (table : List (BitVec 8)) (i : Nat) : List (BitVec 8) :=
  table.set (i / 8) (bitByte table i &&& ~~~bitMask i)

def testBit (table : List (BitVec 8)) (i : Nat) : Bool := bitByte table i &&& bitMask i ≠ 0

@[simp] theorem length_setBit (table : List (BitVec 8)) (i : Nat) :
    (setBit table i).length = table.length := List.length_set

@[simp] theorem length_clearBit (table : List (BitVec 8)) (i : Nat) :
    (clearBit table i).length = table.length := List.length_set

variable {table : List (BitVec 8)} {i j : Nat}

theorem testBit_eq (table : List (BitVec 8)) (i : Nat) :
    testBit table i = (bitByte table i).getLsbD (i % 8) := by
  have hbit : i % 8 < 8 := Nat.mod_lt i (by decide)
  have hmask : bitMask i ≠ 0 := by
    intro h
    have hlow := congrArg (fun w => BitVec.getLsbD w (i % 8)) h
    simp [bitMask, hbit] at hlow
  rw [bitMask] at hmask
  rw [testBit, bitMask, BitVec.and_twoPow]
  cases (bitByte table i).getLsbD (i % 8) with
  | true => simpa using hmask
  | false => simp

theorem bitByte_set (h : i / 8 < table.length) (w : BitVec 8) :
    bitByte (table.set (i / 8) w) j = if i / 8 = j / 8 then w else bitByte table j := by
  rw [bitByte, List.getD_eq_getElem?_getD]
  by_cases hij : i / 8 = j / 8
  · rw [if_pos hij, ← hij, List.getElem?_set_self h, Option.getD_some]
  · rw [if_neg hij, List.getElem?_set_ne hij, ← List.getD_eq_getElem?_getD]
    rfl

theorem getLsbD_bitMask (i j : Nat) : (bitMask i).getLsbD (j % 8) = decide (i % 8 = j % 8) := by
  have hbit : i % 8 < 8 := Nat.mod_lt i (by decide)
  simp [bitMask, hbit]

theorem testBit_setBit (h : i / 8 < table.length) :
    testBit (setBit table i) j = (decide (i = j) || testBit table j) := by
  rw [testBit_eq, testBit_eq, setBit, bitByte_set h]
  by_cases hij : i / 8 = j / 8
  · have hsame : bitByte table i = bitByte table j := by
      rw [bitByte, bitByte, hij]
    have hmod : i % 8 = j % 8 ↔ i = j := by omega
    rw [if_pos hij, BitVec.getLsbD_or, getLsbD_bitMask, hsame, Bool.or_comm]
    simp only [hmod]
  · have hne : i ≠ j := fun h => hij (h ▸ rfl)
    rw [if_neg hij, decide_eq_false hne, Bool.false_or]

theorem testBit_clearBit (h : i / 8 < table.length) :
    testBit (clearBit table i) j = (decide (i ≠ j) && testBit table j) := by
  rw [testBit_eq, testBit_eq, clearBit, bitByte_set h]
  by_cases hij : i / 8 = j / 8
  · have hsame : bitByte table i = bitByte table j := by
      rw [bitByte, bitByte, hij]
    have hmod : i % 8 = j % 8 ↔ i = j := by omega
    have hbit : j % 8 < 8 := Nat.mod_lt j (by decide)
    rw [if_pos hij, BitVec.getLsbD_and, BitVec.getLsbD_not, getLsbD_bitMask, hsame, Bool.and_comm,
      decide_eq_true hbit, Bool.true_and]
    simp only [hmod, decide_not]
  · have hne : i ≠ j := fun h => hij (h ▸ rfl)
    rw [if_neg hij, decide_eq_true hne, Bool.true_and]

end Bitmaps

end Netkit.Foundations

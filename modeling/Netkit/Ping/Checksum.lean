import Netkit.Foundations.ByteOrder
import Netkit.Foundations.OnesComplement

/-!
# The checksum of ping

`in_cksum` adds the words of a packet as they are in memory, so that the sum depends on the byte
order of the host.

* `inCksum_exact`: the result, and that a packet that carries it is found right.
-/

namespace Netkit.Ping

open Netkit.Foundations

/-- The loop over `nleft`, and the odd byte. -/
def addWords (order : ByteOrder) : Bytes → UInt32 → UInt32
  | a :: b :: w, sum => addWords order w (sum + UInt32.ofNat (order.load [a, b]))
  | [a], sum => sum + UInt32.ofNat (order.load [a, 0])
  | [], sum => sum

def inCksum (order : ByteOrder) (packet : Bytes) : UInt16 :=
  let sum := addWords order packet 0
  let sum := (sum >>> 16) + (sum &&& 0xffff)
  let sum := sum + (sum >>> 16)
  (~~~sum).toUInt16

def words (order : ByteOrder) : Bytes → List ℕ
  | a :: b :: w => order.load [a, b] :: words order w
  | [a] => [order.load [a, 0]]
  | [] => []

variable {order : ByteOrder} {p : Bytes}

theorem load_lt (order : ByteOrder) (a b : UInt8) : order.load [a, b] < 65536 :=
  Nat.lt_of_lt_of_eq (order.load_lt [a, b]) (show 256 ^ 2 = 65536 by decide)

theorem words_lt (order : ByteOrder) (p : Bytes) : ∀ x ∈ words order p, x < 65536 := by
  induction p using words.induct with
  | case1 a b w ih =>
    intro x hx
    rcases List.mem_cons.mp hx with rfl | hx
    · exact load_lt order a b
    · exact ih x hx
  | case2 a =>
    intro x hx
    obtain rfl := List.mem_singleton.mp hx
    exact load_lt order a 0
  | case3 => exact fun x hx => absurd hx List.not_mem_nil

theorem sum_words_le (order : ByteOrder) (p : Bytes) :
    2 * (words order p).sum ≤ 65535 * (p.length + 1) := by
  induction p using words.induct with
  | case1 a b w ih =>
    have hload := load_lt order a b
    rw [words, List.sum_cons, List.length_cons, List.length_cons]
    omega
  | case2 a =>
    have hload := load_lt order a 0
    rw [words, List.sum_cons, List.sum_nil, List.length_singleton]
    omega
  | case3 => exact Nat.zero_le _

theorem toNat_add_ofNat {sum : UInt32} {x : ℕ} (h : sum.toNat + x < 4294967296) :
    (sum + UInt32.ofNat x).toNat = sum.toNat + x := by
  rw [UInt32.toNat_add, UInt32.toNat_ofNat', Nat.mod_eq_of_lt (show x < 2 ^ 32 by omega),
    Nat.mod_eq_of_lt h]

theorem addWords_toNat {sum : UInt32} (h : sum.toNat + (words order p).sum < 4294967296) :
    (addWords order p sum).toNat = sum.toNat + (words order p).sum := by
  induction p using words.induct generalizing sum with
  | case1 a b w ih =>
    rw [words, List.sum_cons] at h ⊢
    have hfirst : (sum + UInt32.ofNat (order.load [a, b])).toNat = sum.toNat + order.load [a, b] :=
      toNat_add_ofNat (by omega)
    rw [addWords, ih (by rw [hfirst]; omega), hfirst, Nat.add_assoc]
  | case2 a =>
    rw [words, List.sum_cons, List.sum_nil, Nat.add_zero] at h ⊢
    exact toNat_add_ofNat h
  | case3 => rw [addWords, words, List.sum_nil, Nat.add_zero]

theorem sum_words_lt (hp : p.length ≤ 65535) : (words order p).sum < 65536 * 65536 := by
  have h := sum_words_le order p
  omega

theorem toNat_fold (s : UInt32) : ((s >>> 16) + (s &&& 0xffff)).toNat = fold 65536 s.toNat := by
  have hmask : (65535 : UInt32).toNat = 2 ^ 16 - 1 := rfl
  have hshift : (16 : UInt32).toNat % 32 = 16 := rfl
  have hlt := s.toNat_lt
  rw [UInt32.toNat_add, UInt32.toNat_shiftRight, UInt32.toNat_and, hmask,
    Nat.and_two_pow_sub_one_eq_mod, hshift, Nat.shiftRight_eq_div_pow, fold]
  omega

theorem toNat_answer {t : UInt32} (ht : t.toNat + t.toNat / 65536 < 4294967296) :
    (~~~(t + (t >>> 16))).toUInt16.toNat = 65535 - (t.toNat + t.toNat / 65536) % 65536 := by
  have hshift : (16 : UInt32).toNat % 32 = 16 := rfl
  have hsum : (t + (t >>> 16)).toNat = t.toNat + t.toNat / 65536 := by
    rw [UInt32.toNat_add, UInt32.toNat_shiftRight, hshift, Nat.shiftRight_eq_div_pow]
    omega
  rw [UInt32.toNat_toUInt16, UInt32.toNat_not, hsum, UInt32.size]
  omega

theorem inCksum_toNat (order : ByteOrder) (hp : p.length ≤ 65535) :
    (addWords order p 0).toNat = (words order p).sum ∧
      (inCksum order p).toNat = 65535 - onesSum 65536 (words order p) := by
  have hroom : (words order p).sum < 65536 * 65536 := sum_words_lt hp
  have hsum : (addWords order p 0).toNat = (words order p).sum := by
    rw [addWords_toNat (by rw [UInt32.toNat_zero]; omega), UInt32.toNat_zero, Nat.zero_add]
  refine ⟨hsum, ?_⟩
  have hfold := toNat_fold (addWords order p 0)
  rw [hsum] at hfold
  have hsmall : fold 65536 (words order p).sum + fold 65536 (words order p).sum / 65536 <
      4294967296 := by
    rw [fold]
    omega
  rw [inCksum, toNat_answer (by rw [hfold]; exact hsmall), hfold,
    fold_fold (by decide) (words_lt order p) hroom]

/-! ## The field -/

theorem words_append {front : Bytes} (heven : 2 ∣ front.length) (back : Bytes) :
    words order (front ++ back) = words order front ++ words order back := by
  induction front using words.induct with
  | case1 a b w ih =>
    have hw : 2 ∣ w.length := by
      simp only [List.length_cons] at heven
      omega
    rw [List.cons_append, List.cons_append, words, ih hw, words, List.cons_append]
  | case2 a =>
    rw [List.length_singleton] at heven
    exact absurd heven (by decide)
  | case3 => rfl

theorem sum_words_field {front back : Bytes} (heven : 2 ∣ front.length) {c : ℕ} (hc : c < 65536) :
    (words order (front ++ (order.store 2 c ++ back))).sum =
      (words order (front ++ (0 :: 0 :: back))).sum + c := by
  obtain ⟨a, b, hab⟩ : ∃ a b, order.store 2 c = [a, b] := by
    cases order with
    | big => exact ⟨_, _, rfl⟩
    | little => exact ⟨_, _, rfl⟩
  have hload : order.load [a, b] = c := by
    rw [← hab, ByteOrder.load_store, Nat.mod_eq_of_lt (show c < 256 ^ 2 from hc)]
  have hzero : order.load [0, 0] = 0 := by
    cases order <;> rfl
  rw [hab, words_append heven, words_append heven, List.cons_append, List.cons_append,
    List.nil_append, words, words, hload, hzero, List.sum_append, List.sum_append, List.sum_cons,
    List.sum_cons]
  omega

theorem inCksum_field {front back : Bytes} (heven : 2 ∣ front.length)
    (hp : (front ++ (0 :: 0 :: back)).length ≤ 65535) :
    inCksum order (front ++ (order.store 2 (inCksum order (front ++ (0 :: 0 :: back))).toNat ++
      back)) = 0 := by
  obtain ⟨-, hanswer⟩ := inCksum_toNat order hp
  generalize (inCksum order (front ++ (0 :: 0 :: back))).toNat = c at hanswer
  have hlt := words_lt order (front ++ (0 :: 0 :: back))
  have hones := onesSum_lt (B := 65536) (by decide) hlt
  have hmod := onesSum_modEq (B := 65536) (by decide) hlt
  have hnone := onesSum_eq_zero_iff (B := 65536) (by decide) hlt
  have hc : c < 65536 := by omega
  have hsum : (words order (front ++ (order.store 2 c ++ back))).sum =
      (words order (front ++ (0 :: 0 :: back))).sum + c := sum_words_field heven hc
  have hstore : (order.store 2 c).length = 2 := by
    cases order <;> rfl
  have hlength : (front ++ (order.store 2 c ++ back)).length ≤ 65535 := by
    simp only [List.length_append, List.length_cons] at hp ⊢
    omega
  have hall : onesSum 65536 (words order (front ++ (order.store 2 c ++ back))) = 65535 := by
    refine onesSum_unique (by decide) (words_lt order _) (by decide) (by omega) ?_
    have hadd := (hmod.add_right c).symm
    rw [hsum]
    refine Nat.ModEq.trans ?_ hadd.symm
    rw [show onesSum 65536 (words order (front ++ (0 :: 0 :: back))) + c = 65535 by omega]
  apply UInt16.toNat_inj.mp
  rw [(inCksum_toNat order hlength).2, hall]
  rfl

/-! ## The result -/

/-- The one's complement of the one's complement sum of the words of a packet, on a host of either
byte order, and a packet with this checksum in its place is found right. -/
theorem inCksum_exact (order : ByteOrder) (packet : Bytes) (hp : packet.length ≤ 65535) :
    (addWords order packet 0).toNat = (words order packet).sum ∧
      (inCksum order packet).toNat = 65535 - onesSum 65536 (words order packet) ∧
      ∀ front back : Bytes, packet = front ++ (0 :: 0 :: back) → 2 ∣ front.length →
        inCksum order (front ++ (order.store 2 (inCksum order packet).toNat ++ back)) = 0 := by
  refine ⟨(inCksum_toNat order hp).1, (inCksum_toNat order hp).2, fun front back heq heven => ?_⟩
  subst heq
  exact inCksum_field heven hp

theorem inCksum_exact_odd :
    (inCksum .little [8, 0, 0, 0, 1, 0, 7]).toNat =
      65535 - onesSum 65536 (words .little [8, 0, 0, 0, 1, 0, 7]) ∧
      inCksum .little [8, 0, 0xef, 0xff, 1, 0, 7] = 0 := by
  obtain ⟨-, hanswer, hfield⟩ := inCksum_exact .little [8, 0, 0, 0, 1, 0, 7] (by decide)
  exact ⟨hanswer, hfield [8, 0] [1, 0, 7] rfl (by decide)⟩

end Netkit.Ping

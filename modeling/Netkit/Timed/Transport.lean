import Netkit.Foundations.ByteOrder
import Netkit.Timed.Messages

/-!
# How a correction comes to a slave

The master rounds the correction into a `struct timeval`, turns its fields into network byte order,
and sends the structure as it is in memory. The fields have 4 or 8 bytes; `htonl` and `ntohl` work
on 4.

* `transports_iff`: it does, if the fields have 4 bytes. If they have 8, a negative `tv_sec` loses
  its sign.
-/

namespace Netkit.Timed

open Netkit.Foundations

/-- `struct timeval`, with fields of `w` bytes. -/
structure Timeval (w : ℕ) where
  tvSec : BitVec (8 * w)
  tvUsec : BitVec (8 * w)
deriving DecidableEq

/-- A message with a time. -/
structure Packet (w : ℕ) where
  info : Tsp
  tspTime : Timeval w
deriving DecidableEq

/-- The maximal correction of `adjtime`, in seconds. -/
def MAXADJ : Int := 10

def rounded (x : Int) : Int :=
  (if x < 0 then -((-x + 3).tdiv 5) else (x + 3).tdiv 5) * 5

def mstotvround (w : ℕ) (x : Int) : Timeval w :=
  let x := rounded x
  let sec := x.tdiv 1000
  let usec := (x - sec * 1000) * 1000
  if usec < 0 then ⟨BitVec.ofInt _ (sec - 1), BitVec.ofInt _ (usec + 1000000)⟩
  else ⟨BitVec.ofInt _ sec, BitVec.ofInt _ usec⟩

def tvtomsround {w : ℕ} (tv : Timeval w) : Int :=
  tv.tvSec.toInt * 1000 + (tv.tvUsec.toInt + 500).tdiv 1000

/-! ## Byte order -/

def htons (o : ByteOrder) (v : UInt16) : UInt16 := UInt16.ofNat (o.load (wordBytes 2 v.toNat))

def ntohs (o : ByteOrder) (v : UInt16) : UInt16 := UInt16.ofNat (word (o.store 2 v.toNat))

def htonl (o : ByteOrder) (v : BitVec 32) : BitVec 32 :=
  BitVec.ofNat 32 (o.load (wordBytes 4 v.toNat))

def ntohl (o : ByteOrder) (v : BitVec 32) : BitVec 32 :=
  BitVec.ofNat 32 (word (o.store 4 v.toNat))

def hasTime : TspType → Bool
  | .settime | .adjtime | .setdate | .setdatereq => true
  | _ => false

/-- A field is converted to `u_long`, then to 32 bits, and what comes of it to the field again. -/
def Timeval.convert {w : ℕ} (order : BitVec 32 → BitVec 32) (tv : Timeval w) : Timeval w :=
  ⟨(order (tv.tvSec.setWidth 32)).setWidth _, (order (tv.tvUsec.setWidth 32)).setWidth _⟩

def bytenetorder {w : ℕ} (o : ByteOrder) (p : Packet w) : Packet w :=
  { info := { p.info with tspSeq := htons o p.info.tspSeq }
    tspTime := if hasTime p.info.tspType then p.tspTime.convert (htonl o) else p.tspTime }

def bytehostorder {w : ℕ} (o : ByteOrder) (p : Packet w) : Packet w :=
  { info := { p.info with tspSeq := ntohs o p.info.tspSeq }
    tspTime := if hasTime p.info.tspType then p.tspTime.convert (ntohl o) else p.tspTime }

/-- What the host `b` reads in the bytes of a field of the host `a`. -/
def copyField {w : ℕ} (a b : ByteOrder) (v : BitVec (8 * w)) : BitVec (8 * w) :=
  BitVec.ofNat _ (b.load (a.store w v.toNat))

def copy {w : ℕ} (a b : ByteOrder) (p : Packet w) : Packet w :=
  { info := { p.info with tspSeq := UInt16.ofNat (b.load (a.store 2 p.info.tspSeq.toNat)) }
    tspTime := ⟨copyField a b p.tspTime.tvSec, copyField a b p.tspTime.tvUsec⟩ }

/-- From the host `a` to the host `b`. -/
def delivered {w : ℕ} (a b : ByteOrder) (p : Packet w) : Packet w :=
  bytehostorder b (copy a b (bytenetorder a p))

/-- The message that `correct` sends. -/
def correction (w : ℕ) (seq : UInt16) (hostname : Name) (corr : Int) : Packet w :=
  ⟨⟨.adjtime, TSPVERSION, seq, hostname⟩, mstotvround w corr⟩

def Timeval.Normal {w : ℕ} (tv : Timeval w) : Prop :=
  0 ≤ tv.tvUsec.toInt ∧ tv.tvUsec.toInt < 1000000

/-- The slave reads what the correction was rounded to. -/
structure Transports (w : ℕ) (a b : ByteOrder) (seq : UInt16) (hostname : Name) (corr : Int) :
    Prop where
  normal : (mstotvround w corr).Normal
  arrives : (delivered a b (correction w seq hostname corr)).tspTime.Normal
  reads : tvtomsround (delivered a b (correction w seq hostname corr)).tspTime = rounded corr

/-! ## One field -/

def carried {w : ℕ} (a b : ByteOrder) (v : BitVec (8 * w)) : BitVec (8 * w) :=
  (ntohl b ((copyField a b ((htonl a (v.setWidth 32)).setWidth (8 * w))).setWidth 32)).setWidth _

theorem delivered_tspTime {w : ℕ} (a b : ByteOrder) (p : Packet w)
    (h : hasTime p.info.tspType = true) :
    (delivered a b p).tspTime = ⟨carried a b p.tspTime.tvSec, carried a b p.tspTime.tvUsec⟩ := by
  rw [delivered, bytehostorder, copy, bytenetorder]
  dsimp only
  rw [if_pos h, if_pos h]
  rfl

theorem ntohl_load (o : ByteOrder) (v : BitVec 32) :
    ntohl o (BitVec.ofNat 32 (o.load (wordBytes 4 v.toNat))) = v := by
  have hlt : o.load (wordBytes 4 v.toNat) < 2 ^ 32 := o.load_wordBytes_lt _ _
  rw [ntohl, BitVec.toNat_ofNat, Nat.mod_eq_of_lt hlt, o.store_load (wordBytes_length _ _),
    word_wordBytes_of_lt v.isLt, BitVec.ofNat_toNat, BitVec.setWidth_eq]

theorem copyField_setWidth {w : ℕ} (hw : 4 ≤ w) (a b : ByteOrder) (v : BitVec 32) :
    (copyField a b ((htonl a v).setWidth (8 * w))).setWidth 32 =
      BitVec.ofNat 32 (b.load (a.store w (a.load (wordBytes 4 v.toNat)))) := by
  have hlt : a.load (wordBytes 4 v.toNat) < 2 ^ 32 := a.load_wordBytes_lt _ _
  have hpow : 2 ^ 32 ≤ 2 ^ (8 * w) := Nat.pow_le_pow_right (by decide) (by omega)
  have hnat : ((htonl a v).setWidth (8 * w)).toNat = a.load (wordBytes 4 v.toNat) := by
    rw [BitVec.toNat_setWidth, htonl, BitVec.toNat_ofNat, Nat.mod_eq_of_lt hlt,
      Nat.mod_eq_of_lt (Nat.lt_of_lt_of_le hlt hpow)]
  rw [copyField, hnat, BitVec.setWidth_ofNat_of_le (by omega)]

theorem carried_four (a b : ByteOrder) (v : BitVec (8 * 4)) : carried a b v = v := by
  have hstore := a.store_load (wordBytes_length 4 (v.setWidth 32).toNat)
  rw [carried, copyField_setWidth le_rfl, hstore, ntohl_load]
  exact BitVec.setWidth_eq v

theorem carried_eight_same (a : ByteOrder) (v : BitVec (8 * 8)) :
    carried a a v = (v.setWidth 32).setWidth _ := by
  have hlt := a.load_wordBytes_lt 4 (v.setWidth 32).toNat
  have hwide : (256 : ℕ) ^ 4 ≤ 256 ^ 8 := by decide
  rw [carried, copyField_setWidth (by decide), a.load_store,
    Nat.mod_eq_of_lt (Nat.lt_of_lt_of_le hlt hwide), ntohl_load]

theorem carried_eight_cross {a b : ByteOrder} (h : a ≠ b) (v : BitVec (8 * 8)) :
    carried a b v = 0 := by
  have hlt := a.load_wordBytes_lt 4 (v.setWidth 32).toNat
  have hzero : ntohl b 0 = 0 := by
    cases b with
    | big => rfl
    | little => rfl
  have hlow :
      BitVec.ofNat 32 (b.load (a.store 8 (a.load (wordBytes 4 (v.setWidth 32).toNat)))) = 0 := by
    apply BitVec.eq_of_toNat_eq
    rw [BitVec.toNat_ofNat, ByteOrder.load_store_cross h]
    exact Nat.mod_eq_zero_of_dvd (word_reverse_wordBytes (m := 4) hlt)
  rw [carried, copyField_setWidth (by decide), hlow, hzero]
  rfl

/-! ## The time -/

theorem rounded_eq_zero_iff {x : Int} : rounded x = 0 ↔ -1 ≤ x ∧ x ≤ 1 := by
  rw [rounded]
  split
  · rw [Int.tdiv_eq_ediv_of_nonneg (by omega)]
    omega
  · rw [Int.tdiv_eq_ediv_of_nonneg (by omega)]
    omega

theorem rounded_nonneg_iff {x : Int} : 0 ≤ rounded x ↔ -1 ≤ x := by
  rw [rounded]
  split
  · rw [Int.tdiv_eq_ediv_of_nonneg (by omega)]
    omega
  · rw [Int.tdiv_eq_ediv_of_nonneg (by omega)]
    omega

theorem rounded_bounds {x : Int} (hlow : -(MAXADJ * 1000) < x) (hhigh : x < MAXADJ * 1000) :
    -10000 ≤ rounded x ∧ rounded x ≤ 10000 := by
  rw [MAXADJ] at hlow hhigh
  rw [rounded]
  split
  · rw [Int.tdiv_eq_ediv_of_nonneg (by omega)]
    omega
  · rw [Int.tdiv_eq_ediv_of_nonneg (by omega)]
    omega

theorem mstotvround_eq (w : ℕ) (x : Int) : mstotvround w x =
    ⟨BitVec.ofInt _ (rounded x / 1000), BitVec.ofInt _ (rounded x % 1000 * 1000)⟩ := by
  rw [mstotvround]
  generalize rounded x = r
  rcases Int.le_total 0 r with hr | hr
  · rw [Int.tdiv_eq_ediv_of_nonneg hr, if_neg (by omega)]
    congr 2
    omega
  · have hneg : r.tdiv 1000 = -((-r) / 1000) := by
      rw [← Int.neg_neg (r.tdiv 1000), ← Int.neg_tdiv, Int.tdiv_eq_ediv_of_nonneg (by omega)]
    rw [hneg]
    split
    · congr 2
      · omega
      · omega
    · congr 2
      · omega
      · omega

theorem toInt_ofInt_of_fits {w : ℕ} (hw : w = 4 ∨ w = 8) {i : Int} (hlow : -2147483648 ≤ i)
    (hhigh : i < 2147483648) : (BitVec.ofInt (8 * w) i).toInt = i := by
  rw [BitVec.toInt_ofInt]
  rcases hw with rfl | rfl
  · exact Int.bmod_eq_of_le (by omega) (by omega)
  · exact Int.bmod_eq_of_le (by omega) (by omega)

theorem toInt_setWidth_of_fits {i : Int} (hlow : -2147483648 ≤ i) (hhigh : i < 2147483648) :
    (((BitVec.ofInt (8 * 8) i).setWidth 32).setWidth (8 * 8)).toInt = i % 4294967296 := by
  have hnat : (((BitVec.ofInt (8 * 8) i).setWidth 32).setWidth (8 * 8)).toNat =
      (i % 4294967296).toNat := by
    rw [BitVec.toNat_setWidth, BitVec.toNat_setWidth, BitVec.toNat_ofInt]
    omega
  rw [BitVec.toInt_eq_toNat_of_lt (by omega), hnat]
  omega

variable {w : ℕ} {a b : ByteOrder} {seq : UInt16} {hostname : Name} {corr r : Int}

theorem tvtomsround_eq_iff {tv : Timeval w} (h : tv.tvUsec.toInt = r % 1000 * 1000) :
    tvtomsround tv = r ↔ tv.tvSec.toInt = r / 1000 := by
  rw [tvtomsround, h, Int.tdiv_eq_ediv_of_nonneg (by omega)]
  omega

theorem normal_of_toInt {tv : Timeval w} (h : tv.tvUsec.toInt = r % 1000 * 1000) : tv.Normal := by
  rw [Timeval.Normal, h]
  omega

theorem correction_tspTime (w : ℕ) (a b : ByteOrder) (seq : UInt16) (hostname : Name)
    (corr : Int) : (delivered a b (correction w seq hostname corr)).tspTime =
      ⟨carried a b (BitVec.ofInt _ (rounded corr / 1000)),
        carried a b (BitVec.ofInt _ (rounded corr % 1000 * 1000))⟩ := by
  rw [delivered_tspTime a b _ rfl, correction, mstotvround_eq]

theorem mstotvround_normal (hw : w = 4 ∨ w = 8) (corr : Int) : (mstotvround w corr).Normal := by
  rw [mstotvround_eq]
  exact normal_of_toInt (toInt_ofInt_of_fits hw (by omega) (by omega))

theorem transports_iff_sec {sec usec : BitVec (8 * w)} (hw : w = 4 ∨ w = 8)
    (htime : (delivered a b (correction w seq hostname corr)).tspTime = ⟨sec, usec⟩)
    (husec : usec.toInt = rounded corr % 1000 * 1000) :
    Transports w a b seq hostname corr ↔ sec.toInt = rounded corr / 1000 := by
  have hreads : tvtomsround ⟨sec, usec⟩ = rounded corr ↔ sec.toInt = rounded corr / 1000 :=
    tvtomsround_eq_iff husec
  constructor
  · rintro ⟨-, -, h⟩
    rw [htime] at h
    exact hreads.mp h
  · intro h
    refine ⟨mstotvround_normal hw corr, ?_, ?_⟩
    · rw [htime]
      exact normal_of_toInt husec
    · rw [htime]
      exact hreads.mpr h

theorem transports_four (hlow : -(MAXADJ * 1000) < corr) (hhigh : corr < MAXADJ * 1000) :
    Transports 4 a b seq hostname corr := by
  obtain ⟨hr, hr'⟩ := rounded_bounds hlow hhigh
  have htime := correction_tspTime 4 a b seq hostname corr
  rw [carried_four, carried_four] at htime
  refine (transports_iff_sec (Or.inl rfl) htime ?_).mpr ?_
  · exact toInt_ofInt_of_fits (Or.inl rfl) (by omega) (by omega)
  · exact toInt_ofInt_of_fits (Or.inl rfl) (by omega) (by omega)

theorem transports_eight_same (hlow : -(MAXADJ * 1000) < corr) (hhigh : corr < MAXADJ * 1000) :
    Transports 8 a a seq hostname corr ↔ -1 ≤ corr := by
  obtain ⟨hr, hr'⟩ := rounded_bounds hlow hhigh
  have htime := correction_tspTime 8 a a seq hostname corr
  rw [carried_eight_same, carried_eight_same] at htime
  have hsec : (((BitVec.ofInt (8 * 8) (rounded corr / 1000)).setWidth 32).setWidth (8 * 8)).toInt =
      rounded corr / 1000 % 4294967296 := toInt_setWidth_of_fits (by omega) (by omega)
  have husec : (((BitVec.ofInt (8 * 8) (rounded corr % 1000 * 1000)).setWidth 32).setWidth
      (8 * 8)).toInt = rounded corr % 1000 * 1000 % 4294967296 :=
    toInt_setWidth_of_fits (by omega) (by omega)
  rw [transports_iff_sec (Or.inr rfl) htime (husec.trans (by omega)), hsec,
    ← rounded_nonneg_iff]
  omega

theorem transports_eight_cross (h : a ≠ b) :
    Transports 8 a b seq hostname corr ↔ -1 ≤ corr ∧ corr ≤ 1 := by
  have htime := correction_tspTime 8 a b seq hostname corr
  rw [carried_eight_cross h, carried_eight_cross h] at htime
  have hzero : tvtomsround (⟨0, 0⟩ : Timeval 8) = 0 := by decide
  rw [← rounded_eq_zero_iff]
  constructor
  · rintro ⟨-, -, hreads⟩
    rw [htime, hzero] at hreads
    exact hreads.symm
  · intro hr
    refine ⟨mstotvround_normal (Or.inr rfl) corr, ?_, ?_⟩
    · rw [htime]
      exact ⟨by decide, by decide⟩
    · rw [htime, hzero, hr]

/-- A correction comes to the slave as it was rounded, exactly if the fields have 4 bytes, or it is
rounded to nothing, or it is positive and both hosts have the same byte order. -/
theorem transports_iff (hw : w = 4 ∨ w = 8) (a b : ByteOrder) (seq : UInt16) (hostname : Name)
    (hlow : -(MAXADJ * 1000) < corr) (hhigh : corr < MAXADJ * 1000) :
    Transports w a b seq hostname corr ↔
      w = 4 ∨ (-1 ≤ corr ∧ corr ≤ 1) ∨ (0 < corr ∧ a = b) := by
  rcases hw with rfl | rfl
  · exact iff_of_true (transports_four hlow hhigh) (Or.inl rfl)
  · by_cases hab : a = b
    · subst hab
      rw [transports_eight_same hlow hhigh]
      simp only [and_true]
      omega
    · rw [transports_eight_cross hab]
      simp only [hab, and_false, or_false]
      omega

/-- Seven seconds, between two hosts of one byte order. -/
theorem transports_seven_seconds : Transports 8 .little .little 1 [104] 7000 :=
  (transports_iff (Or.inr rfl) .little .little 1 [104] (by decide) (by decide)).mpr
    (Or.inr (Or.inr ⟨by decide, rfl⟩))

/-- Five milliseconds back: the slave reads 136 years. -/
theorem not_transports_back : ¬ ∀ w a b seq hostname corr, w = 4 ∨ w = 8 →
    -(MAXADJ * 1000) < corr → corr < MAXADJ * 1000 → Transports w a b seq hostname corr := by
  intro h
  have hreads := (h 8 .little .little 1 [104] (-5) (Or.inr rfl) (by decide) (by decide)).reads
  revert hreads
  decide +kernel

end Netkit.Timed

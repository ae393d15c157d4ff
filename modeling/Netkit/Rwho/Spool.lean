import Mathlib.Algebra.Order.Group.Abs
import Mathlib.Algebra.Order.Group.Int
import Netkit.Foundations.ByteOrder

/-!
# The times in the files of rwhod

Rwho and ruptime extend the times of 32 bits by a correction, that a loop adds up.

* `corrects_iff`: the files and the clocks with which the times are right.
-/

namespace Netkit.Rwho

open Netkit.Foundations

/-! ## The programs -/

def WHDRSIZE : ℕ := 60

def NUSERS : ℕ := 1000

/-- A value that is converted to `int`. -/
def int (v : ℤ) : ℤ := v.bmod (2 ^ 32)

/-- A value of the type `time_t`. -/
def timeT (v : ℤ) : Option ℤ := if -2 ^ 63 ≤ v ∧ v < 2 ^ 63 then some v else none

def correctFrom (now time : ℤ) : ℕ → ℤ → Option ℤ
  | 0, _ => none
  | fuel + 1, correction => do
    let age ← timeT (now - time)
    let age ← timeT (age + correction)
    if 0x40000000 < age then do
      let correction ← timeT (correction + 0x70000000)
      let correction ← timeT (correction + 0x70000000)
      let correction ← timeT (correction + 0x20000000)
      correctFrom now time fuel correction
    else some correction

section
variable (order : ByteOrder) (buf : Bytes)

/-- The `int32_t` at a place of the buffer. -/
def int32 (i : ℕ) : ℤ := int (order.load ((buf.drop i).take 4))

def sendtime : ℤ := int32 order buf 4

def recvtime : ℤ := int32 order buf 8

def boottime : ℤ := int32 order buf 56

def outTime (we : ℕ) : ℤ := int32 order buf (we + 16)

def weIdle (we : ℕ) : ℤ := int32 order buf (we + 20)

def down (rcv now : ℤ) : Bool := now - rcv > 11 * 60

/-- The loop over the entries, from `we` on, and the login times. With too many users rwho gives up. -/
def rwhoEntries (aflg : Bool) (correction : ℤ) : ℕ → ℕ → List ℤ → Option (List ℤ)
  | 0, _, users => some users
  | n + 1, we, users =>
    if aflg = false ∧ 60 * 60 ≤ weIdle order buf we then
      rwhoEntries aflg correction n (we + 24) users
    else if NUSERS ≤ users.length then none
    else rwhoEntries aflg correction n (we + 24) (users ++ [outTime order buf we + correction])

def rwhoFile (aflg : Bool) (now : ℤ) (fuel : ℕ) (users : List ℤ) : Option (List ℤ) :=
  if buf.length < WHDRSIZE then some users
  else do
    let correction ← correctFrom now (recvtime order buf) fuel 0
    if down (recvtime order buf) now then some users
    else rwhoEntries order buf aflg correction ((buf.length - WHDRSIZE) / 24) WHDRSIZE users

def ruptimeUsers (aflg : Bool) (we : ℕ) : ℕ :=
  if WHDRSIZE + 24 ≤ we then
    (if aflg = true ∨ weIdle order buf (we - 24) < 3600 then 1 else 0) + ruptimeUsers aflg (we - 24)
  else 0
termination_by we
decreasing_by omega

/-- What ruptime keeps of a file. -/
structure Record where
  sendtime : ℤ
  recvtime : ℤ
  boottime : ℤ
  nusers : ℕ

/-- The clock is read after the files: `now` is 0. -/
def ruptimeFile (aflg : Bool) (fuel : ℕ) : Option (Option Record) :=
  if buf.length < WHDRSIZE then some none
  else do
    let correction ← correctFrom 0 (sendtime order buf) fuel 0
    some (some ⟨sendtime order buf + correction, recvtime order buf + correction,
      boottime order buf + correction, ruptimeUsers order buf aflg buf.length⟩)

def header : List ℤ := [sendtime order buf, recvtime order buf, boottime order buf]

def logins : List ℤ :=
  (List.range ((buf.length - WHDRSIZE) / 24)).map fun k => outTime order buf (WHDRSIZE + 24 * k)

end

/-! ## The loops -/

variable {order : ByteOrder} {buf : Bytes} {now time v : ℤ}

theorem timeT_eq_some {a b : ℤ} : timeT a = some b ↔ (-2 ^ 63 ≤ a ∧ a < 2 ^ 63) ∧ a = b := by
  simp [timeT]

theorem correctFrom_old (hold : 0x40000000 < now - time) (fuel : ℕ) {correction : ℤ}
    (hc : 0 ≤ correction) : correctFrom now time fuel correction = none := by
  induction fuel generalizing correction with
  | zero => rfl
  | succ fuel ih =>
    apply Option.eq_none_iff_forall_ne_some.mpr
    intro r hr
    simp only [correctFrom, Option.bind_eq_bind, Option.bind_eq_some_iff, timeT_eq_some] at hr
    obtain ⟨age, ⟨-, rfl⟩, age', ⟨-, rfl⟩, hr⟩ := hr
    rw [if_pos (by omega)] at hr
    simp only [Option.bind_eq_some_iff, timeT_eq_some] at hr
    obtain ⟨c, ⟨-, rfl⟩, c', ⟨-, rfl⟩, c'', ⟨-, rfl⟩, hr⟩ := hr
    rw [ih (by omega)] at hr
    exact absurd hr nofun

theorem correctFrom_young (hlow : -2 ^ 63 ≤ now - time) (hyoung : now - time ≤ 0x40000000)
    (fuel : ℕ) : correctFrom now time (fuel + 1) 0 = some 0 := by
  have hage : timeT (now - time) = some (now - time) := if_pos (by omega)
  have hsum : timeT (now - time + 0) = some (now - time) := by rwa [Int.add_zero]
  simp only [correctFrom, hage, hsum, Option.bind_eq_bind, Option.bind_some]
  exact if_neg (by omega)

theorem correctFrom_iff : (∃ fuel r, correctFrom now time fuel 0 = some r) ↔
    -2 ^ 63 ≤ now - time ∧ now - time ≤ 0x40000000 := by
  constructor
  · rintro ⟨fuel, r, h⟩
    cases fuel with
    | zero => exact absurd h nofun
    | succ fuel =>
      have hyoung : now - time ≤ 0x40000000 := by
        by_contra hold
        rw [correctFrom_old (by omega) _ le_rfl] at h
        exact absurd h nofun
      simp only [correctFrom, Option.bind_eq_bind, Option.bind_eq_some_iff, timeT_eq_some] at h
      obtain ⟨age, ⟨hage, -⟩, -⟩ := h
      exact ⟨hage.1, hyoung⟩
  · rintro ⟨hlow, hyoung⟩
    exact ⟨1, 0, correctFrom_young hlow hyoung 0⟩

theorem correctFrom_zero {fuel : ℕ} {r : ℤ} (h : correctFrom now time fuel 0 = some r) : r = 0 := by
  obtain ⟨hlow, hyoung⟩ := correctFrom_iff.mp ⟨fuel, r, h⟩
  cases fuel with
  | zero => exact absurd h nofun
  | succ fuel => exact (Option.some.inj ((correctFrom_young hlow hyoung fuel).symm.trans h)).symm

theorem rwhoEntries_eq {correction : ℤ} {n we : ℕ} {users users' : List ℤ}
    (h : rwhoEntries order buf true correction n we users = some users') :
    users' = users ++
      (List.range n).map fun k => outTime order buf (we + 24 * k) + correction := by
  induction n generalizing we users with
  | zero =>
    rw [List.range_zero, List.map_nil, List.append_nil]
    exact (Option.some.inj h).symm
  | succ n ih =>
    rw [rwhoEntries, if_neg (by simp)] at h
    split_ifs at h
    rw [ih h, List.range_succ_eq_map, List.map_cons, List.map_map, List.append_assoc,
      List.singleton_append, Nat.mul_zero, Nat.add_zero]
    have hplaces (k : ℕ) : we + 24 + 24 * k = we + 24 * (k + 1) := by omega
    simp only [hplaces]
    rfl

theorem ruptimeUsers_all (we : ℕ) : ruptimeUsers order buf true we = (we - WHDRSIZE) / 24 := by
  induction we using Nat.strong_induction_on with
  | _ we ih =>
    rw [ruptimeUsers]
    unfold WHDRSIZE at ih ⊢
    split
    · rw [ih (we - 24) (by omega), if_pos (.inl rfl)]
      omega
    · omega

/-! ## The times -/

/-- `t` is a time near the clock of which the 32 bits are `v`. -/
structure TrueTime (now v t : ℤ) : Prop where
  bits : int (t - v) = 0
  near : |t - now| ≤ 0x40000000

def Plain (now v : ℤ) : Prop := |int (v - now)| ≤ 0x40000000 → |v - now| ≤ 0x40000000

theorem int_eq (v : ℤ) : ∃ k, v = int v + 2 ^ 32 * k ∧ -2 ^ 31 ≤ int v ∧ int v < 2 ^ 31 := by
  refine ⟨v.bdiv (2 ^ 32), ?_, ?_, ?_⟩
  · exact (Int.bmod_add_bdiv v (2 ^ 32)).symm
  · exact Int.le_bmod (by decide)
  · exact Int.bmod_lt (by decide)

theorem plain_iff : Plain now v ↔ ∀ t, TrueTime now v t → v = t := by
  constructor
  · rintro h t ⟨hbits, hnear⟩
    obtain ⟨k, hk, -, -⟩ := int_eq (t - v)
    obtain ⟨l, hl, hlow, hhigh⟩ := int_eq (v - now)
    have hplain := h (by rw [abs_le] at hnear ⊢; omega)
    rw [abs_le] at hnear hplain
    omega
  · intro h hnear
    have ht : v = now + int (v - now) := by
      apply h
      obtain ⟨l, hl, -, -⟩ := int_eq (v - now)
      refine ⟨?_, by rwa [add_sub_cancel_left]⟩
      obtain ⟨k, hk, hlow, hhigh⟩ := int_eq (now + int (v - now) - v)
      omega
    have hdiff : v - now = int (v - now) := by omega
    rwa [hdiff]

/-- What the correction is for: with the clock `now`, the times that rwho and ruptime take from a file
are the true ones, and they find the same users. -/
structure Corrects (order : ByteOrder) (now : ℤ) (buf : Bytes) : Prop where
  rwho_ends : ∃ fuel c, correctFrom now (recvtime order buf) fuel 0 = some c
  ruptime_ends : ∃ fuel c, correctFrom 0 (sendtime order buf) fuel 0 = some c
  rwho_times : ∀ fuel c, correctFrom now (recvtime order buf) fuel 0 = some c →
    ∀ v ∈ recvtime order buf :: logins order buf, ∀ t, TrueTime now v t → v + c = t
  ruptime_times : ∀ fuel c, correctFrom 0 (sendtime order buf) fuel 0 = some c →
    ∀ v ∈ header order buf, ∀ t, TrueTime now v t → v + c = t
  up : ∀ t, TrueTime now (recvtime order buf) t → now - t ≤ 11 * 60 →
    down (recvtime order buf) now = false ∧
      ∀ fuel r, ruptimeFile order buf true fuel = some (some r) → down r.recvtime now = false
  users : ∀ fuel users users' r, rwhoFile order buf true now fuel users = some users' →
    down (recvtime order buf) now = false → ruptimeFile order buf true fuel = some (some r) →
    users'.length = users.length + r.nusers

/-- The times are not older than `2 ^ 30` seconds, where they are compared, and those that are near the
clock have not been cut to 32 bits. -/
structure InTime (order : ByteOrder) (now : ℤ) (buf : Bytes) : Prop where
  recvtime : -2 ^ 63 ≤ now - recvtime order buf ∧ now - recvtime order buf ≤ 0x40000000
  sendtime : 0 - sendtime order buf ≤ 0x40000000
  plain : ∀ v ∈ header order buf ++ logins order buf, Plain now v

theorem users_eq {fuel fuel' : ℕ} {users users' : List ℤ} {r : Record}
    (hlength : WHDRSIZE ≤ buf.length) (hrwho : rwhoFile order buf true now fuel users = some users')
    (hup : down (recvtime order buf) now = false)
    (hruptime : ruptimeFile order buf true fuel' = some (some r)) :
    users'.length = users.length + r.nusers := by
  rw [rwhoFile, if_neg (Nat.not_lt.mpr hlength)] at hrwho
  rw [ruptimeFile, if_neg (Nat.not_lt.mpr hlength)] at hruptime
  simp only [hup, Bool.false_eq_true, if_false, Option.bind_eq_bind, Option.bind_eq_some_iff,
    Option.some.injEq] at hrwho hruptime
  obtain ⟨c, -, hentries⟩ := hrwho
  obtain ⟨c', -, rfl⟩ := hruptime
  rw [rwhoEntries_eq hentries, List.length_append, List.length_map, List.length_range,
    ruptimeUsers_all]

theorem sendtime_le (order : ByteOrder) (buf : Bytes) : -2 ^ 63 ≤ 0 - sendtime order buf := by
  obtain ⟨k, -, hlow, hhigh⟩ := int_eq (order.load ((buf.drop 4).take 4))
  unfold sendtime int32
  omega

/-- For every file that has a header, and every clock: the times are right exactly as long as there is
nothing to correct. -/
theorem corrects_iff (order : ByteOrder) (now : ℤ) (buf : Bytes) :
    (WHDRSIZE ≤ buf.length → Corrects order now buf) ↔
      (WHDRSIZE ≤ buf.length → InTime order now buf) := by
  apply forall_congr'
  intro hlength
  constructor
  · rintro ⟨hrwho, hruptime, hrwhoTimes, hruptimeTimes, -, -⟩
    obtain ⟨hlow, hyoung⟩ := correctFrom_iff.mp hrwho
    obtain ⟨-, hsend⟩ := correctFrom_iff.mp hruptime
    obtain ⟨fuel, c, hc⟩ := hrwho
    obtain ⟨fuel', c', hc'⟩ := hruptime
    obtain rfl := correctFrom_zero hc
    obtain rfl := correctFrom_zero hc'
    refine ⟨⟨hlow, hyoung⟩, hsend, fun v hv => plain_iff.mpr fun t ht => ?_⟩
    rcases List.mem_append.mp hv with hv | hv
    · exact (Int.add_zero v).symm.trans (hruptimeTimes fuel' 0 hc' v hv t ht)
    · have hv' := List.mem_cons_of_mem (recvtime order buf) hv
      exact (Int.add_zero v).symm.trans (hrwhoTimes fuel 0 hc v hv' t ht)
  · rintro ⟨hrecv, hsend, hplain⟩
    have htrue : ∀ v ∈ header order buf ++ logins order buf, ∀ t, TrueTime now v t → v = t :=
      fun v hv => plain_iff.mp (hplain v hv)
    have hmem : recvtime order buf ∈ header order buf := List.mem_cons_of_mem _ List.mem_cons_self
    refine ⟨correctFrom_iff.mpr hrecv, correctFrom_iff.mpr ⟨sendtime_le order buf, hsend⟩,
      fun fuel c hc v hv t ht => ?_, fun fuel c hc v hv t ht => ?_, fun t ht hnear => ?_,
      fun fuel users users' r hrwho hup hruptime => users_eq hlength hrwho hup hruptime⟩
    · rw [correctFrom_zero hc, Int.add_zero]
      rcases List.mem_cons.mp hv with hv | hv
      · rw [hv] at ht ⊢
        exact htrue _ (List.mem_append_left _ hmem) t ht
      · exact htrue v (List.mem_append_right _ hv) t ht
    · rw [correctFrom_zero hc, Int.add_zero]
      exact htrue v (List.mem_append_left _ hv) t ht
    · have hrecvtime := htrue _ (List.mem_append_left _ hmem) t ht
      have hup : down (recvtime order buf) now = false := by
        rw [hrecvtime, down, decide_eq_false_iff_not]
        omega
      refine ⟨hup, fun fuel r hr => ?_⟩
      rw [ruptimeFile, if_neg (Nat.not_lt.mpr hlength)] at hr
      simp only [Option.bind_eq_bind, Option.bind_eq_some_iff, Option.some.injEq] at hr
      obtain ⟨c, hc, hr⟩ := hr
      have hrecord : recvtime order buf = r.recvtime := by
        rw [← hr, correctFrom_zero hc]
        exact (Int.add_zero _).symm
      exact hrecord ▸ hup

/-- A clock in the year 2004, and a file that has been received in 1970. -/
theorem not_corrects : ¬ ∀ (order : ByteOrder) (now : ℤ) (buf : Bytes),
    WHDRSIZE ≤ buf.length → Corrects order now buf := by
  intro h
  have hbuf := (corrects_iff .little (2 ^ 30 + 1) (List.replicate 60 0)).mp (h _ _ _) (by decide)
  exact absurd hbuf.recvtime.2 (by decide)

end Netkit.Rwho

import Mathlib.Algebra.Order.Floor.Semifield
import Mathlib.Data.Rat.Floor
import Mathlib.Tactic.NormNum
import Netkit.Timed.Measure

/-!
# What `measure` finds

* `measure_accurate`: the distance that is found, and which replies are recognised.
-/

namespace Netkit.Timed

open Netkit.Foundations

variable {α : Type*} [Field α] [LinearOrder α]

/-! ## A call -/

/-- What is known during a call, the `k`th before which there were others. -/
structure Sound (d : α) (k : ℕ) (s : Measurement α) : Prop where
  seqno : s.proc.seqno = seqnoAfter k
  sent : s.proc.loop ≠ .quit → s.requests.length = s.proc.trials ∧
    s.proc.icmpSeq = seqnoAfter k + UInt16.ofNat s.proc.trials
  moments : ∀ t ∈ s.requests, 0 ≤ t
  times : ∀ u ∈ s.used, 0 ≤ u.1 ∧ 0 ≤ u.2
  minima : s.proc.loop ≠ .quit →
    (s.used = [] ∧ s.proc.minOdelta = HOSTDOWN ∧ s.proc.minIdelta = HOSTDOWN) ∨
      (Estimates d (s.used.map Prod.fst) s.proc.minOdelta ∧
        Estimates (-d) (s.used.map Prod.snd) s.proc.minIdelta)
  measured : s.proc.measureStatus = .good → ∃ m n, Estimates d (s.used.map Prod.fst) m ∧
    Estimates (-d) (s.used.map Prod.snd) n ∧ s.proc.measureDelta = (m - n).tdiv 2

variable {h : Host} {d t out stay back : α} {seqno : UInt16} {j k : ℕ} {s s' : Measurement α}
  {m : Measure} {e : Event α}

theorem start_sound_measure (tdone : ℕ) : Sound d k (Measurement.start k tdone) where
  seqno := rfl
  sent := fun _ => ⟨rfl, (UInt16.add_zero _).symm⟩
  moments := fun _ ht => absurd ht List.not_mem_nil
  times := fun _ hu => absurd hu List.not_mem_nil
  minima := fun _ => Or.inl ⟨rfl, rfl, rfl⟩
  measured := fun hgood => MeasureStatus.noConfusion hgood

theorem Sound.congr (hs : Sound d k s) (hloop : s.proc.loop ≠ .quit)
    (hseqno : m.seqno = s.proc.seqno)
    (hsame : m.loop ≠ .quit → m.trials = s.proc.trials ∧ m.icmpSeq = s.proc.icmpSeq ∧
      m.minOdelta = s.proc.minOdelta ∧ m.minIdelta = s.proc.minIdelta)
    (hgood : m.measureStatus = .good → s.proc.measureStatus = .good)
    (hdelta : m.measureDelta = s.proc.measureDelta) : Sound d k { s with proc := m } where
  seqno := hseqno.trans hs.seqno
  sent := by
    intro hm
    obtain ⟨htrials, hicmp, -, -⟩ := hsame hm
    dsimp only
    rw [htrials, hicmp]
    exact hs.sent hloop
  moments := hs.moments
  times := hs.times
  minima := by
    intro hm
    obtain ⟨-, -, hmino, hmini⟩ := hsame hm
    dsimp only
    rw [hmino, hmini]
    exact hs.minima hloop
  measured := by
    intro hm
    dsimp only
    rw [hdelta]
    exact hs.measured (hgood hm)

theorem Sound.leave (hs : Sound d k s) (hloop : s.proc.loop ≠ .quit) (tcur : ℕ) :
    Sound d k { s with proc := s.proc.leave tcur } := by
  rw [Measure.leave]
  split
  · exact hs.congr hloop rfl (fun hquit => absurd rfl hquit) id rfl
  · split
    · exact hs.congr hloop rfl (fun _ => ⟨rfl, rfl, rfl, rfl⟩) id rfl
    · exact hs.congr hloop rfl (fun hquit => absurd rfl hquit) id rfl

theorem Sound.turn (hs : Sound d k s) (hloop : s.proc.loop ≠ .quit) (ht : 0 ≤ t)
    (sent : Bool) : Sound d k { s with
      proc := s.proc.turn sent
      requests := if s.proc.sends && sent then s.requests ++ [t] else s.requests } := by
  rw [Measure.turn]
  cases hsends : s.proc.sends with
  | false =>
    exact hs.congr hloop rfl (fun _ => ⟨rfl, rfl, rfl, rfl⟩) id rfl
  | true =>
    cases sent with
    | false =>
      refine hs.congr hloop rfl (fun hquit => absurd rfl hquit) (fun hgood => ?_) rfl
      simp only [if_true, Bool.false_eq_true, if_false] at hgood
      split at hgood
      · cases hgood
      · exact hgood
    | true =>
      obtain ⟨hlength, hicmp⟩ := hs.sent hloop
      refine ⟨hs.seqno, fun _ => ⟨?_, ?_⟩, fun u hu => ?_, hs.times, fun _ => hs.minima hloop,
        hs.measured⟩
      · exact (List.length_append).trans (congrArg (· + 1) hlength)
      · have hnext : s.proc.icmpSeq + 1 = seqnoAfter k + UInt16.ofNat (s.proc.trials + 1) := by
          rw [hicmp, UInt16.ofNat_add, UInt16.add_assoc]
          rfl
        exact hnext
      · rcases List.mem_append.mp hu with hu | hu
        · exact hs.moments u hu
        · exact List.mem_singleton.mp hu ▸ ht

theorem Sound.add [IsStrictOrderedRing α] (hs : Sound d k s) (hloop : s.proc.loop ≠ .quit)
    {p : Icmp} {tcur : ℕ} (ho : Estimates d [out] (Measure.odelta p))
    (hi : Estimates (-d) [back] (Measure.idelta p tcur)) (ho' : Measure.odelta p < HOSTDOWN)
    (hi' : Measure.idelta p tcur < HOSTDOWN) (hout : 0 ≤ out) (hback : 0 ≤ back) :
    Sound d k { s with proc := s.proc.add p tcur, used := s.used ++ [(out, back)] } := by
  have hmin : Estimates d ((s.used ++ [(out, back)]).map Prod.fst) (s.proc.add p tcur).minOdelta ∧
      Estimates (-d) ((s.used ++ [(out, back)]).map Prod.snd) (s.proc.add p tcur).minIdelta := by
    rw [List.map_append, List.map_append, Measure.add]
    rcases hs.minima hloop with ⟨hused, hmino, hmini⟩ | ⟨hmino, hmini⟩
    · rw [hused, hmino, hmini, if_pos ho', if_pos hi']
      exact ⟨ho, hi⟩
    · exact ⟨hmino.min ho, hmini.min hi⟩
  refine ⟨hs.seqno, fun _ => hs.sent hloop, hs.moments, fun u hu => ?_, fun _ => Or.inr hmin,
    fun _ => ⟨_, _, hmin.1, hmin.2, rfl⟩⟩
  rcases List.mem_append.mp hu with hu | hu
  · exact hs.times u hu
  · rw [List.mem_singleton.mp hu]
    exact ⟨hout, hback⟩

variable [FloorRing α]

/-! ## Times of day -/

theorem msecOfDay_range (t : ℕ) : 0 ≤ msecOfDay t ∧ msecOfDay t < MSEC_DAY := by
  rw [msecOfDay, SECDAY, MSEC_DAY]
  omega

theorem timeOfDay_toNat (t : α) : ((timeOfDay t).toNat : ℤ) = ⌊t⌋ % MSEC_DAY := by
  rw [timeOfDay, UInt32.toNat_ofNat', MSEC_DAY]
  omega

theorem midnight_emod {x y : ℤ} (h : x - y < 43200000) (h' : y - x < 43200000) :
    Measure.midnight (x % MSEC_DAY - y % MSEC_DAY) = x - y := by
  rw [Measure.midnight, MSEC_DAY]
  split
  · omega
  · split <;> omega

theorem midnight_lt {x y : ℤ} (hx : x < MSEC_DAY) (hy : 0 ≤ y) :
    Measure.midnight (x - y) < HOSTDOWN := by
  rw [MSEC_DAY] at hx
  rw [Measure.midnight, MSEC_DAY, HOSTDOWN]
  split
  · omega
  · split <;> omega

theorem timeOfDay_lt (t : α) : ((timeOfDay t).toNat : ℤ) < MSEC_DAY := by
  rw [timeOfDay_toNat, MSEC_DAY]
  omega

theorem answer_testBit : (answer h d seqno j t out stay).receive.toNat.testBit 31 = false := by
  apply Nat.testBit_lt_two_pow
  have hlt : ((answer h d seqno j t out stay).receive.toNat : ℤ) < MSEC_DAY := timeOfDay_lt _
  rw [MSEC_DAY] at hlt
  omega

theorem odelta_answer_lt : Measure.odelta (answer h d seqno j t out stay) < HOSTDOWN :=
  midnight_lt (timeOfDay_lt _) (Int.natCast_nonneg _)

theorem idelta_answer_lt {tcur : ℕ} :
    Measure.idelta (answer h d seqno j t out stay) tcur < HOSTDOWN :=
  midnight_lt (msecOfDay_range tcur).2 (Int.natCast_nonneg _)

variable [IsStrictOrderedRing α]

theorem msecOfDay_reading {t : α} (ht : 0 ≤ t) : msecOfDay (reading t) = ⌊t⌋ % MSEC_DAY := by
  have hmsec : ⌊t⌋₊ = reading t / 1000 := by
    rw [reading, ← Nat.floor_div_ofNat, mul_div_cancel_right₀ t (by norm_num)]
  have hfloor : (⌊t⌋₊ : ℤ) = ⌊t⌋ := Int.natCast_floor_eq_floor ht
  rw [msecOfDay, ← hfloor, hmsec, SECDAY, MSEC_DAY]
  omega

theorem answer_originate (ht : 0 ≤ t) :
    ((answer h d seqno j t out stay).originate.toNat : ℤ) = ⌊t⌋ % MSEC_DAY := by
  have hrange := msecOfDay_range (reading t)
  rw [MSEC_DAY] at hrange
  rw [answer, UInt32.toNat_ofNat', ← msecOfDay_reading ht]
  omega

theorem odelta_answer (ht : 0 ≤ t) (hout : 0 ≤ out ∧ out < 60000)
    (hd : -21600000 < d ∧ d < 21600000) :
    Measure.odelta (answer h d seqno j t out stay) = ⌊t + out + d⌋ - ⌊t⌋ := by
  obtain ⟨hlow, hhigh⟩ := floor_sub_floor_lt (t + out + d) t
  have hlow' : ⌊t⌋ - ⌊t + out + d⌋ < 43200000 := by
    have : ((⌊t⌋ - ⌊t + out + d⌋ : ℤ) : α) < 43200000 := by
      rw [Int.cast_sub] at hlow ⊢
      linarith [hout.1, hd.1]
    exact_mod_cast this
  have hhigh' : ⌊t + out + d⌋ - ⌊t⌋ < 43200000 := by
    have : ((⌊t + out + d⌋ - ⌊t⌋ : ℤ) : α) < 43200000 := by linarith [hout.2, hd.2]
    exact_mod_cast this
  rw [Measure.odelta, answer_originate ht]
  exact (congrArg (fun r => Measure.midnight (r - _)) (timeOfDay_toNat _)).trans
    (midnight_emod hhigh' hlow')

theorem idelta_answer (ht : 0 ≤ t + out + stay) (hback : 0 ≤ back ∧ back < 60000)
    (hd : -21600000 < d ∧ d < 21600000) :
    Measure.idelta (answer h d seqno j t out stay) (reading (t + out + stay + back)) =
      ⌊t + out + stay + back⌋ - ⌊t + out + stay + d⌋ := by
  obtain ⟨hlow, hhigh⟩ := floor_sub_floor_lt (t + out + stay + back) (t + out + stay + d)
  have hlow' : ⌊t + out + stay + d⌋ - ⌊t + out + stay + back⌋ < 43200000 := by
    have : ((⌊t + out + stay + d⌋ - ⌊t + out + stay + back⌋ : ℤ) : α) < 43200000 := by
      rw [Int.cast_sub] at hlow ⊢
      linarith [hback.1, hd.2]
    exact_mod_cast this
  have hhigh' : ⌊t + out + stay + back⌋ - ⌊t + out + stay + d⌋ < 43200000 := by
    have : ((⌊t + out + stay + back⌋ - ⌊t + out + stay + d⌋ : ℤ) : α) < 43200000 := by
      linarith [hback.2, hd.1]
    exact_mod_cast this
  rw [Measure.idelta, msecOfDay_reading (add_nonneg ht hback.1)]
  exact (congrArg (fun r => Measure.midnight (_ - r)) (timeOfDay_toNat _)).trans
    (midnight_emod hhigh' hlow')

theorem estimates_odelta (ht : 0 ≤ t) (hout : 0 ≤ out ∧ out < 60000)
    (hd : -21600000 < d ∧ d < 21600000) :
    Estimates d [out] (Measure.odelta (answer h d seqno j t out stay)) := by
  rw [odelta_answer ht hout hd]
  exact estimates_floor t hout.1

theorem estimates_idelta (ht : 0 ≤ t + out + stay) (hback : 0 ≤ back ∧ back < 60000)
    (hd : -21600000 < d ∧ d < 21600000) : Estimates (-d) [back]
      (Measure.idelta (answer h d seqno j t out stay) (reading (t + out + stay + back))) := by
  rw [idelta_answer ht hback hd]
  have hest := estimates_floor (c := -d) (t + out + stay + d) hback.1
  rwa [show t + out + stay + d + back + -d = t + out + stay + back by ring] at hest

/-! ## A reply -/

theorem Sound.reply (hs : Sound d k s) (hloop : s.proc.loop ≠ .quit)
    (hd : -21600000 < d ∧ d < 21600000) (hj : s.requests[j]? = some t)
    (hout : 0 ≤ out ∧ out < 60000) (hstay : 0 ≤ stay) (hback : 0 ≤ back ∧ back < 60000) :
    let p := answer h d s.proc.seqno j t out stay
    let tcur := reading (t + out + stay + back)
    Sound d k { s with
      proc := s.proc.receive h p tcur
      used := usedWith h p tcur s.proc (out, back) s.used } := by
  intro p tcur
  have ht : 0 ≤ t := hs.moments t (List.mem_of_getElem? hj)
  have ho : Estimates d [out] (Measure.odelta p) := estimates_odelta ht hout hd
  have hi : Estimates (-d) [back] (Measure.idelta p tcur) :=
    estimates_idelta (add_nonneg (add_nonneg ht hout.1) hstay) hback hd
  have hbit : p.receive.toNat.testBit 31 = false := answer_testBit
  rw [Measure.receive, usedWith]
  by_cases hskip : (!s.proc.ours h p) = true ∨ Measure.total p tcur < 0
  · rw [if_pos hskip]
    rcases hskip with hours | htotal
    · rw [if_pos hours]
      exact hs
    · rw [if_pos htotal, ite_self]
      exact hs
  · rw [if_neg hskip, if_neg fun hours => hskip (Or.inl hours),
      if_neg fun htotal => hskip (Or.inr htotal), hbit, if_neg Bool.false_ne_true, Measure.count]
    by_cases hround : Measure.total p tcur < MIN_ROUND h
    · -- the reply has come at once
      rw [if_pos hround, if_pos hround]
      refine ⟨hs.seqno, fun hquit => absurd rfl hquit, hs.moments, fun u hu => ?_,
        fun hquit => absurd rfl hquit, fun _ => ⟨_, _, ho, hi, rfl⟩⟩
      rw [List.mem_singleton.mp hu]
      exact ⟨hout.1, hback.1⟩
    · rw [if_neg hround, if_neg hround]
      have hadd := hs.add hloop ho hi odelta_answer_lt idelta_answer_lt hout.1 hback.1
      split
      · exact hadd
      · exact hadd.leave hloop tcur

theorem receive_foreign {p : Icmp}
    (hp : p.cc < h.icpsize ∨ p.icmpType ≠ .tstampReply ∨ p.icmpId ≠ h.pid) (tcur : ℕ) : m.receive h p tcur = m := by
  have hours : (!m.ours h p) = true := by
    rw [Measure.ours, Bool.not_not]
    rcases hp with hcc | htype | hid
    · simp only [hcc, decide_true, Bool.true_or]
    · simp only [bne_iff_ne.mpr htype, Bool.or_true, Bool.true_or]
    · simp only [bne_iff_ne.mpr hid, Bool.or_true, Bool.true_or]
  rw [Measure.receive, if_pos hours]

theorem Sound.step (hs : Sound d k s) (hd : -21600000 < d ∧ d < 21600000) (he : e.Valid h)
    (hstep : s.step h d e = some s') : Sound d k s' := by
  have hwaiting : s.proc.loop = .waiting → s.proc.loop ≠ .quit := by
    intro hloop
    rw [hloop]
    decide
  cases e with
  | turn t sent =>
    obtain ⟨hloop, hs'⟩ := Option.ite_none_right_eq_some.mp hstep
    cases hs'
    refine hs.turn ?_ he sent
    rw [hloop]
    decide
  | reply j out stay back =>
    obtain ⟨hloop, hs'⟩ := Option.ite_none_right_eq_some.mp hstep
    obtain ⟨t, hj, rfl⟩ := Option.map_eq_some_iff.mp hs'
    exact hs.reply (hwaiting hloop) hd hj he.1 he.2.1 he.2.2
  | foreign p t =>
    obtain ⟨hloop, hs'⟩ := Option.ite_none_right_eq_some.mp hstep
    cases hs'
    rw [receive_foreign he]
    exact hs
  | silence t =>
    obtain ⟨hloop, hs'⟩ := Option.ite_none_right_eq_some.mp hstep
    cases hs'
    exact hs.leave (hwaiting hloop) _
  | failure =>
    obtain ⟨hloop, hs'⟩ := Option.ite_none_right_eq_some.mp hstep
    cases hs'
    exact hs.congr (hwaiting hloop) rfl (fun hquit => absurd rfl hquit) id rfl

/-! ## Every call -/

theorem seqnoAfter_toNat (k : ℕ) : (seqnoAfter k).toNat = 10 * k % 65536 := by
  induction k with
  | zero => rfl
  | succ k ih =>
    rw [seqnoAfter, UInt16.toNat_add, ih, TRIALS, UInt16.toNat_ofNat']
    omega

/-- Any reply to a message of the call is recognised, whenever it comes. -/
def Measurement.Recognises (h : Host) (d : α) (s : Measurement α) : Prop :=
  ∀ j t out stay, s.requests[j]? = some t →
    s.proc.ours h (answer h d s.proc.seqno j t out stay) = true

/-- The distance that was found is right, but for half of the larger of the smallest times on the
way, and rounding. -/
def Measurement.Accurate (d : α) (s : Measurement α) : Prop :=
  s.used ≠ [] ∧ ∀ out back,
    Smallest out (s.used.map Prod.fst) → Smallest back (s.used.map Prod.snd) →
    |(s.proc.measureDelta : α) - d| < max out back / 2 + 3 / 2 ∧
      ∀ n : ℤ, d = n → |(s.proc.measureDelta : α) - d| < max out back / 2 + 1

omit [FloorRing α] in
theorem Sound.accurate (hs : Sound d k s) (hgood : s.proc.measureStatus = .good) :
    s.Accurate d := by
  obtain ⟨m, n, hm, hn, hdelta⟩ := hs.measured hgood
  refine ⟨fun hnil => hm.ne_nil (by rw [hnil]; rfl), fun out back hout hback => ?_⟩
  obtain ⟨u, hu, hu'⟩ := List.mem_map.mp hout.1
  obtain ⟨v, hv, hv'⟩ := List.mem_map.mp hback.1
  rw [hdelta]
  exact offset_error hm hn hout hback (hu' ▸ (hs.times u hu).1) (hv' ▸ (hs.times v hv).2)

omit [IsStrictOrderedRing α] in
theorem Sound.recognises (hs : Sound d k s) (hloop : s.proc.loop = .waiting)
    (hsmall : 10 * k % 65536 + s.proc.trials < 65536) : s.Recognises h d := by
  intro j t out stay hj
  obtain ⟨hlength, hicmp⟩ := hs.sent (by rw [hloop]; decide)
  have hjlt : j < s.proc.trials := hlength ▸ (List.getElem?_eq_some_iff.mp hj).1
  have hseqno := hs.seqno
  have hk := seqnoAfter_toNat k
  have hsmallest : ¬ seqnoAfter k + UInt16.ofNat j < seqnoAfter k := by
    rw [UInt16.lt_iff_toNat_lt, UInt16.toNat_add, UInt16.toNat_ofNat', hk]
    omega
  have hlargest : ¬ seqnoAfter k + UInt16.ofNat j ≥ seqnoAfter k + UInt16.ofNat s.proc.trials := by
    rw [ge_iff_le, UInt16.le_iff_toNat_le, UInt16.toNat_add, UInt16.toNat_add,
      UInt16.toNat_ofNat', UInt16.toNat_ofNat', hk]
    omega
  have hsize : ¬ (20 + h.icpsize : ℤ) < h.icpsize := by omega
  rw [Measure.ours, answer, hicmp, hseqno]
  simp only [hsmallest, hlargest, hsize, decide_false, bne_self_eq_false, Bool.or_false,
    Bool.not_false]

/-- For every number of earlier calls and every distance of less than a quarter of a day: while a
call waits, it recognises the replies to its messages as long as their numbers do not begin anew,
and what it has found is right but for half of a time on the way and rounding. -/
theorem measure_accurate (h : Host) (k tdone : ℕ) (hd : -21600000 < d ∧ d < 21600000)
    {es : List (Event α)} (hes : ∀ e ∈ es, e.Valid h)
    (hrun : run (Measurement.step h d) (.start k tdone) es = some s) :
    (s.proc.loop = .waiting → 10 * k % 65536 + s.proc.trials < 65536 → s.Recognises h d) ∧
      (s.proc.measureStatus = .good → s.Accurate d) := by
  have hs : Sound d k s := by
    have hstart : Sound d k (Measurement.start k tdone) := start_sound_measure tdone
    induction es using List.reverseRecOn generalizing s with
    | nil =>
      cases hrun
      exact hstart
    | append_singleton es e ih =>
      obtain ⟨u, hu, hstep⟩ := run_snoc_eq_some.mp hrun
      have hsound := ih (fun e he => hes e (List.mem_append_left _ he)) hu
      exact hsound.step hd (hes e (List.mem_append_right _ (List.mem_singleton_self e))) hstep
  exact ⟨hs.recognises, hs.accurate⟩

/-! ## One reply -/

def aHost : Host := ⟨1, 20, 100⟩

/-- A message takes three quarters of a millisecond, the reply a quarter. -/
def quick : List (Event ℚ) := [.turn (4003 / 4) true, .reply 0 (3 / 4) 0 (1 / 4)]

theorem quick_valid : ∀ e ∈ quick, e.Valid aHost := by
  intro e he
  rcases List.mem_cons.mp he with rfl | he
  · exact (by decide +kernel : (0 : ℚ) ≤ 4003 / 4)
  · rw [List.mem_singleton.mp he]
    exact (by decide +kernel : ((0 : ℚ) ≤ 3 / 4 ∧ (3 / 4 : ℚ) < 60000) ∧ (0 : ℚ) ≤ 0 ∧
      (0 : ℚ) ≤ 1 / 4 ∧ (1 / 4 : ℚ) < 60000)

theorem quick_measures : ∃ s, run (Measurement.step aHost (-5 / 2)) (.start 0 1) quick = some s ∧
    s.proc.measureStatus = .good ∧ s.proc.measureDelta = -1 ∧ s.used = [(3 / 4, 1 / 4)] := by
  have hmap : (run (Measurement.step aHost (-5 / 2)) (.start 0 1) quick).map (fun s =>
      (s.proc.measureStatus, s.proc.measureDelta, s.used)) =
        some (.good, -1, [(3 / 4, 1 / 4)]) := by decide +kernel
  obtain ⟨s, hrun, heq⟩ := Option.map_eq_some_iff.mp hmap
  simp only [Prod.mk.injEq] at heq
  exact ⟨s, hrun, heq⟩

theorem measure_accurate_quick : ∃ s : Measurement ℚ, s.proc.measureDelta = -1 ∧
    s.Accurate (-5 / 2) := by
  obtain ⟨s, hrun, hgood, hdelta, -⟩ := quick_measures
  have haccurate :=
    (measure_accurate aHost 0 1 (d := -5 / 2) (by decide +kernel) quick_valid hrun).2
  exact ⟨s, hdelta, haccurate hgood⟩

def patient : List (Event ℚ) :=
  (List.replicate 5 [.turn 0 true, .silence 0]).flatten ++ [.turn 0 true]

theorem patient_valid : ∀ e ∈ patient, e.Valid aHost := by
  intro e he
  rcases List.mem_append.mp he with he | he
  · obtain ⟨l, hl, he⟩ := List.mem_flatten.mp he
    rw [List.eq_of_mem_replicate hl] at he
    rcases List.mem_cons.mp he with rfl | he
    · exact le_refl (0 : ℚ)
    · rw [List.mem_singleton.mp he]
      trivial
  · rw [List.mem_singleton.mp he]
    exact le_refl (0 : ℚ)

/-- A distance of -2.5 ms comes out as -1 ms. After 6553 calls, the numbers of the messages begin
anew. -/
theorem not_measure_accurate :
    (¬ ∀ (h : Host) (k tdone : ℕ) (d : ℚ), -21600000 < d ∧ d < 21600000 →
      ∀ es : List (Event ℚ), (∀ e ∈ es, e.Valid h) → ∀ s,
        run (Measurement.step h d) (.start k tdone) es = some s → s.proc.measureStatus = .good →
        ∀ out back, Smallest out (s.used.map Prod.fst) → Smallest back (s.used.map Prod.snd) →
          |(s.proc.measureDelta : ℚ) - d| ≤ max out back / 2 + 1) ∧
      ¬ ∀ (h : Host) (k tdone : ℕ) (d : ℚ), -21600000 < d ∧ d < 21600000 →
        ∀ es : List (Event ℚ), (∀ e ∈ es, e.Valid h) → ∀ s,
          run (Measurement.step h d) (.start k tdone) es = some s → s.proc.loop = .waiting →
          s.Recognises h d := by
  constructor
  · intro hall
    obtain ⟨s, hrun, hgood, hdelta, hused⟩ := quick_measures
    have hbound := hall aHost 0 1 (-5 / 2) (by decide +kernel) quick quick_valid s hrun hgood
      (3 / 4) (1 / 4)
    rw [hused, hdelta] at hbound
    have hle := hbound ⟨by decide +kernel, by decide +kernel⟩ ⟨by decide +kernel, by decide +kernel⟩
    exact absurd hle (by decide +kernel)
  · intro hall
    have hmap : (run (Measurement.step aHost 0) (.start 6553 1) patient).map (fun s =>
        (s.proc.loop, s.requests[0]?, s.proc.ours aHost (answer aHost (0 : ℚ) s.proc.seqno 0 0 0 0)))
          = some (.waiting, some 0, false) := by decide +kernel
    obtain ⟨s, hrun, heq⟩ := Option.map_eq_some_iff.mp hmap
    simp only [Prod.mk.injEq] at heq
    obtain ⟨hloop, hrequest, hours⟩ := heq
    have htrue := hall aHost 6553 1 0 (by decide +kernel) patient patient_valid s hrun hloop 0 0 0 0
      hrequest
    rw [hours] at htrue
    cases htrue

end Netkit.Timed

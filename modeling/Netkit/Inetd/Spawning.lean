import Mathlib.Algebra.Group.Nat.Defs
import Mathlib.Algebra.Order.Ring.Nat
import Netkit.Foundations.Rates
import Netkit.Foundations.Runs
import Netkit.Inetd.Servtab

/-!
# How often a service is spawned

`fork_child` counts the launches of a service from some launch on. When the count comes to `se_max`
it starts anew, if more than `CNT_INTVL` seconds have passed since that launch, and otherwise the
service is terminated.

* `spawning_iff`: when this is so.
-/

namespace Netkit.Inetd

open Netkit.Foundations

/-! ## Launches -/

/-- A launch, at a time in microseconds, with the process that `fork` makes. -/
structure Launch where
  time : ℕ
  fork : Option ℕ
deriving DecidableEq

def minute : ℕ := 60000000

/-- `tv_sec` of a time. -/
def second (time : ℕ) : ℕ := time / 1000000

def Launch.connection (l : Launch) : Connection := ⟨.ok, second l.time, l.fork, true⟩

def spawnStep (s : Servtab × Net) (l : Launch) : Option (Servtab × Net) :=
  if s.1.fd = -1 then none
  else (forkChild l.connection s.1 s.2).toOption.map (fun r => (r.1, r.2.1))

def times (ls : List Launch) : List ℕ := ls.map Launch.time

/-- The `k`-th launch comes with the count at its maximum, which is `m + 1`, and not more than 60
seconds after the one with which the count began. -/
def Trips (m : ℕ) (ts : List ℕ) (k : ℕ) : Prop :=
  0 < k ∧ m ∣ k ∧ ∃ hk : k < ts.length, second ts[k] ≤ second ts[k - m] + 60

variable {m k : ℕ} {ts : List ℕ} {ls : List Launch} {s u : Servtab × Net}

theorem Trips.append (h : Trips m ts k) (us : List ℕ) : Trips m (ts ++ us) k := by
  obtain ⟨hpos, hdvd, hk, hsoon⟩ := h
  refine ⟨hpos, hdvd, by rw [List.length_append]; omega, ?_⟩
  rw [List.getElem_append_left hk,
    List.getElem_append_left (Nat.lt_of_le_of_lt (Nat.sub_le k m) hk)]
  exact hsoon

theorem Trips.of_append {us : List ℕ} (h : Trips m (ts ++ us) k) (hk : k < ts.length) :
    Trips m ts k := by
  obtain ⟨hpos, hdvd, _, hsoon⟩ := h
  refine ⟨hpos, hdvd, hk, ?_⟩
  rw [List.getElem_append_left hk,
    List.getElem_append_left (Nat.lt_of_le_of_lt (Nat.sub_le k m) hk)] at hsoon
  exact hsoon

/-- The count after the launches at `ts`, all of which have forked: it began with the launch
`q * m`. -/
structure Counted (m : ℕ) (fd : Int) (ts : List ℕ) (sep : Servtab) : Prop where
  fd : sep.fd = fd
  max : sep.max = m + 1
  count : ts = [] ∧ sep.count = 0 ∨ ∃ q r, ts.length = q * m + r + 1 ∧ r < m ∧
    sep.count = r + 1 ∧ ∃ hq : q * m < ts.length, sep.time = second ts[q * m]
  calm : ∀ k, ¬ Trips m ts k

theorem calm_snoc {t : ℕ} (hcalm : ∀ k, ¬ Trips m ts k) (hlast : ¬ Trips m (ts ++ [t]) ts.length) :
    ∀ k, ¬ Trips m (ts ++ [t]) k := by
  intro k hk
  have hlength := hk.2.2.1
  rw [List.length_append, List.length_singleton] at hlength
  rcases Nat.lt_or_eq_of_le (Nat.le_of_lt_succ hlength) with hlt | rfl
  · exact hcalm k (hk.of_append hlt)
  · exact hlast hk

theorem spawnStep_cases (hm : 1 ≤ m) {fd : Int} (hfd : fd ≠ -1) (hin : inSet fd = true)
    (hs : Counted m fd ts s.1) (l : Launch) :
    (∃ u, spawnStep s l = some u ∧ Counted m fd (ts ++ [l.time]) u.1) ∨
      ∃ u, spawnStep s l = some u ∧ u.1.fd = -1 ∧ Trips m (ts ++ [l.time]) ts.length := by
  obtain ⟨sep, net⟩ := s
  obtain ⟨hopen, hmax, hcount, hcalm⟩ := hs
  dsimp only at hopen hmax hcount
  have hlength : (ts ++ [l.time]).length = ts.length + 1 := List.length_append
  have hnew : (ts ++ [l.time])[ts.length] = l.time := by
    rw [List.getElem_append_right (Nat.le_refl _)]
    simp
  rw [spawnStep, if_neg (by rw [hopen]; exact hfd)]
  unfold forkChild
  rcases hcount with ⟨rfl, hcount⟩ | ⟨q, r, hts, hr, hcount, hq, htime⟩
  · left
    rw [if_pos hcount, hcount]
    refine ⟨_, rfl, hopen, hmax, Or.inr ⟨0, 0, ?_, hm, rfl, ?_, ?_⟩, ?_⟩
    · rw [Nat.zero_mul]
      rfl
    · rw [Nat.zero_mul]
      exact Nat.one_pos
    · simp only [Nat.zero_mul, List.nil_append, List.getElem_cons_zero]
      rfl
    · exact calm_snoc hcalm (fun h => absurd h.1 (Nat.lt_irrefl 0))
  · have hstart (hk : q * m < (ts ++ [l.time]).length) : (ts ++ [l.time])[q * m] = ts[q * m] :=
      List.getElem_append_left hq
    rw [if_neg (by omega : ¬ sep.count = 0)]
    by_cases hfull : r + 1 = m
    · have hk : ts.length = (q + 1) * m := by rw [hts, Nat.succ_mul]; omega
      have hback : ts.length - m = q * m := by rw [hk, Nat.succ_mul]; omega
      rw [if_pos (by rw [hmax, hcount]; omega : sep.max ≤ sep.count + 1)]
      by_cases hlate : CNT_INTVL < l.connection.now - sep.time
      · left
        rw [if_pos hlate]
        refine ⟨_, rfl, hopen, hmax, Or.inr ⟨q + 1, 0, by omega, hm, rfl, by omega, ?_⟩,
          calm_snoc hcalm ?_⟩
        · simp only [← hk, hnew]
          rfl
        · rintro ⟨-, -, _, hsoon⟩
          simp only [hnew, hback, hstart] at hsoon
          rw [htime, CNT_INTVL, Launch.connection] at hlate
          dsimp only at hlate
          omega
      · right
        rw [if_neg hlate, fdClr, hopen, if_pos hin]
        refine ⟨_, rfl, rfl, by omega, ⟨q + 1, by rw [hk, Nat.mul_comm]⟩, by omega, ?_⟩
        simp only [hnew, hback, hstart]
        rw [htime, CNT_INTVL, Launch.connection] at hlate
        dsimp only at hlate
        omega
    · left
      rw [if_neg (by rw [hmax, hcount]; omega : ¬ sep.max ≤ sep.count + 1)]
      refine ⟨_, rfl, hopen, hmax, Or.inr ⟨q, r + 1, by omega, by omega, ?_, by omega, ?_⟩,
        calm_snoc hcalm ?_⟩
      · dsimp only
        omega
      · simp only [hstart]
        exact htime
      · rintro ⟨-, ⟨c, hc⟩, -⟩
        -- `q * m + (r + 1)` is no multiple of `m`.
        have hmod : ts.length % m = r + 1 := by
          rw [hts, Nat.add_assoc, Nat.add_comm, Nat.add_mul_mod_self_right,
            Nat.mod_eq_of_lt (by omega)]
        rw [hc, Nat.mul_mod_right] at hmod
        omega

/-! ## Runs of launches -/

/-- A service that has been opened, with the maximum `m + 1`. -/
structure Opened (m : ℕ) (sep : Servtab) : Prop where
  fd : sep.fd ≠ -1
  inSet : inSet sep.fd = true
  max : sep.max = m + 1
  count : sep.count = 0

theorem Opened.begins (hs : Opened m s.1) : Counted m s.1.fd [] s.1 :=
  ⟨rfl, hs.max, Or.inl ⟨rfl, hs.count⟩, fun _ h => absurd h.2.2.1 (Nat.not_lt_zero _)⟩

theorem spawn_cases (hm : 1 ≤ m) (hs : Opened m s.1) (ls : List Launch) :
    (∃ u, run spawnStep s ls = some u ∧ Counted m s.1.fd (times ls) u.1) ∨
      ∃ pre k u, pre <+: ls ∧ run spawnStep s pre = some u ∧ u.1.fd = -1 ∧
        Trips m (times pre) k := by
  induction ls using List.reverseRecOn with
  | nil => exact Or.inl ⟨s, rfl, hs.begins⟩
  | append_singleton ls l ih =>
    have htimes : times (ls ++ [l]) = times ls ++ [l.time] := List.map_append
    rcases ih with ⟨t, hrun, ht⟩ | ⟨pre, k, u, hpre, hrun, hclosed, htrips⟩
    · rcases spawnStep_cases hm hs.fd hs.inSet ht l with
        ⟨u, hu, hcounted⟩ | ⟨u, hu, hclosed, htrips⟩
      · left
        rw [htimes]
        exact ⟨u, run_snoc_eq_some.mpr ⟨t, hrun, hu⟩, hcounted⟩
      · right
        refine ⟨ls ++ [l], (times ls).length, u, List.prefix_rfl,
          run_snoc_eq_some.mpr ⟨t, hrun, hu⟩, hclosed, ?_⟩
        rw [htimes]
        exact htrips
    · exact Or.inr ⟨pre, k, u, hpre.trans (List.prefix_append ls [l]), hrun, hclosed, htrips⟩

theorem run_closed {t : Servtab × Net} {pre : List Launch} (hpre : pre <+: ls)
    (ht : run spawnStep s pre = some t) (hclosed : t.1.fd = -1)
    (hu : run spawnStep s ls = some u) : pre = ls ∧ t = u := by
  obtain ⟨rest, rfl⟩ := hpre
  obtain ⟨v, hv, hrest⟩ := run_append_eq_some.mp hu
  obtain rfl := Option.some.inj (ht.symm.trans hv)
  cases rest with
  | nil => exact ⟨(List.append_nil pre).symm, Option.some.inj hrest⟩
  | cons l rest =>
    obtain ⟨w, hw, -⟩ := run_cons_eq_some.mp hrest
    rw [spawnStep, if_pos hclosed] at hw
    cases hw

theorem times_trips {pre : List Launch} (hpre : pre <+: ls) (h : Trips m (times pre) k) :
    Trips m (times ls) k := by
  obtain ⟨rest, rfl⟩ := hpre
  rw [times, List.map_append]
  exact h.append _

theorem open_iff (ls : List Launch) (hm : 1 ≤ m) (hs : Opened m s.1) :
    (∃ u, run spawnStep s ls = some u ∧ u.1.fd ≠ -1) ↔ ∀ k, ¬ Trips m (times ls) k := by
  rcases spawn_cases hm hs ls with ⟨u, hu, hcounted⟩ | ⟨pre, k, t, hpre, ht, hclosed, htrips⟩
  · exact iff_of_true ⟨u, hu, hcounted.fd ▸ hs.fd⟩ hcounted.calm
  · refine iff_of_false ?_ (fun hcalm => hcalm k (times_trips hpre htrips))
    rintro ⟨u, hu, hopen⟩
    obtain ⟨-, rfl⟩ := run_closed hpre ht hclosed hu
    exact hopen hclosed

theorem terminates_iff (hm : 1 ≤ m) (hs : Opened m s.1) :
    (∃ u, Reached spawnStep s ls u ∧ u.1.fd = -1) ↔ ∃ k, Trips m (times ls) k := by
  rcases spawn_cases hm hs ls with ⟨v, hv, hcounted⟩ | ⟨pre, k, t, hpre, ht, hclosed, htrips⟩
  · refine iff_of_false ?_ (fun ⟨k, hk⟩ => hcounted.calm k hk)
    rintro ⟨u, ⟨pre, hpre, hu⟩, hclosed⟩
    obtain ⟨-, rfl⟩ := run_closed hpre hu hclosed hv
    exact hs.fd (hcounted.fd ▸ hclosed)
  · exact iff_of_true ⟨t, ⟨pre, hpre, ht⟩, hclosed⟩ ⟨k, times_trips hpre htrips⟩

/-! ## The limit -/

/-- As long as the service is not terminated, no minute holds more than `max` forks. -/
def Limited (max : ℕ) (s : Servtab × Net) (ls : List Launch) : Prop :=
  ∀ pre, pre <+: ls → (∃ u, run spawnStep s pre = some u ∧ u.1.fd ≠ -1) →
    AtMost max minute (times pre)

/-- If no minute holds as many launches as `max`, the service is not terminated. -/
def Spared (max : ℕ) (s : Servtab × Net) (ls : List Launch) : Prop :=
  AtMost (max - 1) minute (times ls) → ¬ ∃ u, Reached spawnStep s ls u ∧ u.1.fd = -1

/-- A launch that is neither the first nor the last one of a count is followed by `max` others
within a minute only if one of these trips. -/
def NoBurst (max : ℕ) (ts : List ℕ) : Prop :=
  ∀ i, (hfirst : i < ts.length) → (hlast : i + max < ts.length) → ¬ (max - 1) ∣ i →
    ¬ (max - 1) ∣ i + 1 → (∀ k ≤ i + max, ¬ Trips (max - 1) ts k) → ts[i] + minute < ts[i + max]

/-- If the launches are rare, none with which a count comes to its maximum is in the 60th second
after the one with which it began. -/
def NoEdge (max : ℕ) (ts : List ℕ) : Prop :=
  AtMost (max - 1) minute ts → ∀ k, 0 < k → max - 1 ∣ k → (hk : k < ts.length) →
    second ts[k] ≠ second ts[k - (max - 1)] + 60

theorem minute_lt {a b : ℕ} (h : second a + 60 < second b) : a + minute < b := by
  unfold second at h
  unfold minute
  omega

theorem spread_of_calm (hm : 1 ≤ m) (hsorted : ts.Pairwise (· ≤ ·)) {i : ℕ}
    (hi : i + (m + 1) < ts.length) (hat : m ∣ i ∨ m ∣ i + 1)
    (hcalm : ∀ k ≤ i + (m + 1), ¬ Trips m ts k) : ts[i] + minute < ts[i + (m + 1)] := by
  have hcount (j : ℕ) (hj : m ∣ j) (hle : j + m ≤ i + (m + 1)) (hlt : j < ts.length)
      (hlt' : j + m < ts.length) : ts[j] + minute < ts[j + m] := by
    by_contra hnear
    refine hcalm (j + m) hle ⟨by omega, (Nat.dvd_add_right hj).mpr (Nat.dvd_refl m), by omega, ?_⟩
    simp only [Nat.add_sub_cancel]
    by_contra hlate
    exact hnear (minute_lt (Nat.not_le.mp hlate))
  rcases hat with hat | hat
  · have hfirst := hcount i hat (by omega) (by omega) (by omega)
    have hle := getElem_le_of_pairwise hsorted (show i + m ≤ i + (m + 1) by omega) (by omega) hi
    omega
  · have hlast := hcount (i + 1) hat (by omega) (by omega) (by omega)
    have hle := getElem_le_of_pairwise hsorted (Nat.le_add_right i 1) (by omega) (by omega)
    have hindex : i + 1 + m = i + (m + 1) := by omega
    simp only [hindex] at hlast
    omega

theorem limited_iff (hm : 1 ≤ m) (hs : Opened m s.1) (hsorted : (times ls).Pairwise (· ≤ ·)) :
    Limited (m + 1) s ls ↔ NoBurst (m + 1) (times ls) := by
  constructor
  · intro hlimited i hlow hi hfirst hlast hcalm
    let pre := ls.take (i + (m + 1) + 1)
    have hpre : pre <+: ls := List.take_prefix _ _
    have htimes : times ls = times pre ++ times (ls.drop (i + (m + 1) + 1)) := by
      rw [times, times, times, ← List.map_append, List.take_append_drop]
    have hlength : (times pre).length = i + (m + 1) + 1 := by
      rw [times, List.length_map] at hi
      rw [times, List.length_map, List.length_take]
      omega
    have hopen := (open_iff pre hm hs).mpr (fun k hk =>
      hcalm k (by have := hk.2.2.1; omega) (times_trips hpre hk))
    have hsub : (times pre).Pairwise (· ≤ ·) := hsorted.sublist (by
      rw [htimes]
      exact List.sublist_append_left _ _)
    have hspaced := (hlimited pre hpre hopen).spaced hsub i (by omega)
    simp only [htimes]
    rw [List.getElem_append_left (by omega), List.getElem_append_left (by omega)]
    exact hspaced
  · intro hburst pre hpre hopen
    have hcalm := (open_iff _ hm hs).mp hopen
    obtain ⟨rest, rfl⟩ := hpre
    have htimes : times (pre ++ rest) = times pre ++ times rest := List.map_append
    rw [htimes] at hsorted hburst
    have hsub : (times pre).Pairwise (· ≤ ·) := hsorted.sublist (List.sublist_append_left _ _)
    refine atMost_of_spaced hsub (fun i hi => ?_)
    by_cases hat : m ∣ i ∨ m ∣ i + 1
    · exact spread_of_calm hm hsub hi hat (fun k _ => hcalm k)
    · obtain ⟨hfirst, hlast⟩ := not_or.mp hat
      have hboth : i + (m + 1) < (times pre ++ times rest).length := by
        rw [List.length_append]
        omega
      have hlt := hburst i (by omega) hboth hfirst hlast
        (fun k hk htrips => hcalm k (htrips.of_append (by omega)))
      rw [List.getElem_append_left (by omega), List.getElem_append_left hi] at hlt
      exact hlt

theorem spared_iff (hm : 1 ≤ m) (hs : Opened m s.1) (hsorted : (times ls).Pairwise (· ≤ ·)) :
    Spared (m + 1) s ls ↔ NoEdge (m + 1) (times ls) := by
  refine forall_congr' (fun hrare => ?_)
  rw [terminates_iff hm hs]
  constructor
  · intro hcalm k hpos hdvd hk hedge
    exact hcalm ⟨k, hpos, hdvd, hk, Nat.le_of_eq hedge⟩
  · rintro hedge ⟨k, hpos, hdvd, hk, hsoon⟩
    have hle := Nat.le_of_dvd hpos hdvd
    have hindex : k - m + m = k := Nat.sub_add_cancel hle
    have hspaced := hrare.spaced hsorted (k - m) (by rw [Nat.add_sub_cancel]; omega)
    simp only [Nat.add_sub_cancel, hindex] at hspaced
    refine hedge k hpos hdvd hk ?_
    simp only [Nat.add_sub_cancel]
    unfold second at hsoon ⊢
    unfold minute at hspaced
    omega

/-- **No minute holds more than `se_max` forks, and rare launches never terminate the service**,
exactly if no burst lies across the beginning of a count and no count comes to its maximum in the
60th second. -/
theorem spawning_iff (max : ℕ) (hmax : 2 ≤ max) (s : Servtab × Net) (hs : Opened (max - 1) s.1)
    (ls : List Launch) (hsorted : (times ls).Pairwise (· ≤ ·)) :
    Limited max s ls ∧ Spared max s ls ↔ NoBurst max (times ls) ∧ NoEdge max (times ls) := by
  obtain ⟨m, rfl⟩ : ∃ m, max = m + 1 := ⟨max - 1, by omega⟩
  exact and_congr (limited_iff (by omega) hs hsorted) (spared_iff (by omega) hs hsorted)

/-! ## A service -/

/-- `finger stream tcp nowait.4 nobody fingerd`, with its socket. -/
def finger : Servtab × Net :=
  ({ service := ⟨0, "finger".toList⟩, address := none, socktype := .SOCK_STREAM
     family := .AF_INET, proto := ⟨2, "tcp".toList⟩, rpcprog := 0, rpcversl := 0, rpcversh := 0
     wait := 0, checked := true, user := ⟨4, "nobody".toList⟩, group := none, bi := none
     server := ⟨5, "fingerd".toList⟩, argv := [⟨6, "fingerd".toList⟩], fd := 3, sinAddr := 0
     sinPort := 0x4f00, max := 4, count := 0, time := 0, daemon := none },
    ⟨1, 3, {3}, false, {3}, 0⟩)

theorem finger_opened : Opened 3 finger.1 := ⟨by decide, by decide, rfl, rfl⟩

def launches (tenths : List ℕ) : List Launch := tenths.map (fun t => ⟨t * 100000, some 100⟩)

/-- Launches one minute apart. -/
theorem spawning_slowly :
    Limited 4 finger (launches [0, 601, 1202, 1803]) ∧
      Spared 4 finger (launches [0, 601, 1202, 1803]) := by
  refine (spawning_iff 4 (by decide) finger finger_opened _ (by decide)).mpr ⟨?_, ?_⟩
  · intro i _ hi
    simp only [launches, times, List.length_map, List.length_cons, List.length_nil] at hi
    omega
  · intro _ k hpos hdvd hk
    have hlength : (times (launches [0, 601, 1202, 1803])).length = 4 := rfl
    obtain rfl : k = 3 := by omega
    change 1803 * 100000 / 1000000 ≠ 0 * 100000 / 1000000 + 60
    decide

/-- Two launches in the 59th second and three in the 61st, which the count does not see together;
and three in the 60th, which are not in one minute with the first. -/
theorem spawning_bursts :
    ¬ Limited 4 finger (launches [0, 590, 590, 610, 610, 610]) ∧
      ¬ Spared 4 finger (launches [0, 609, 609, 609]) := by
  constructor
  · intro hlimited
    have hmany := hlimited _ List.prefix_rfl ⟨_, rfl, by decide⟩ 59000000
    revert hmany
    decide
  · intro hspared
    refine hspared (atMost_of_spaced (by decide) (fun i hi => ?_))
      ⟨_, ⟨_, List.prefix_rfl, rfl⟩, by decide⟩
    have hlength : (times (launches [0, 609, 609, 609])).length = 4 := rfl
    obtain rfl : i = 0 := by omega
    simp [launches, times, minute]

end Netkit.Inetd

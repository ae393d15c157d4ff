import Netkit.Routed.Main

/-!
# The timers of routed

`timevaladd` and `timevalsub` of `main.c`, and the time for which `main` lets `select` wait until
an update that was held off is due. `timevaladd` carries a sum of microseconds above 1000000, but
not 1000000 itself.

* `timers_normal_iff`: the timers are normal all along exactly if no sum comes to a full second.
-/

namespace Netkit.Routed

open Netkit.Foundations

/-! ## Sums and differences -/

def Timeval.IsNormal (t : Timeval) : Prop := 0 ≤ t.usec ∧ t.usec < 1000000

instance (t : Timeval) : Decidable t.IsNormal := inferInstanceAs (Decidable (_ ∧ _))

def Timeval.micros (t : Timeval) : Int := t.sec * 1000000 + t.usec

def timevalsub (t₁ t₂ : Timeval) : Timeval :=
  let usec := t₁.usec - t₂.usec
  if usec < 0 then ⟨t₁.sec - t₂.sec - 1, usec + 1000000⟩ else ⟨t₁.sec - t₂.sec, usec⟩

theorem timevaladd_micros (t u : Timeval) : (timevaladd t u).micros = t.micros + u.micros := by
  unfold timevaladd Timeval.micros
  dsimp only
  split
  · dsimp only
    omega
  · dsimp only
    omega

theorem timevalsub_micros (t u : Timeval) : (timevalsub t u).micros = t.micros - u.micros := by
  unfold timevalsub Timeval.micros
  dsimp only
  split
  · dsimp only
    omega
  · dsimp only
    omega

theorem timevaladd_normal_iff {t u : Timeval} (ht : t.IsNormal) (hu : u.IsNormal) :
    (timevaladd t u).IsNormal ↔ t.usec + u.usec ≠ 1000000 := by
  obtain ⟨ht₀, ht₁⟩ := ht
  obtain ⟨hu₀, hu₁⟩ := hu
  unfold timevaladd Timeval.IsNormal
  dsimp only
  split
  · dsimp only
    omega
  · dsimp only
    omega

theorem timevalsub_normal {t u : Timeval} (ht : t.IsNormal) (hu : u.IsNormal) :
    (timevalsub t u).IsNormal := by
  obtain ⟨ht₀, ht₁⟩ := ht
  obtain ⟨hu₀, hu₁⟩ := hu
  unfold timevalsub Timeval.IsNormal
  dsimp only
  split
  · dsimp only
    omega
  · dsimp only
    omega

/-! ## The timeout of `select` -/

namespace Globals

/-- The timeout with which `main` calls `select`; without one it waits for a datagram. -/
def waittime (s : Globals) : Option Timeval :=
  if s.needupdate ≠ 0 then
    let waittime := timevalsub s.nextbcast s.now
    some (if waittime.sec < 0 then ⟨0, 0⟩ else waittime)
  else none

/-- `nextbcast` is normal, and `select` is given a time that is not negative. -/
structure TimersNormal (s : Globals) : Prop where
  nextbcast : s.nextbcast.IsNormal
  waittime : ∀ t ∈ s.waittime, t.IsNormal ∧ 0 ≤ t.sec

variable {s u : Globals} {p : Platform}

theorem timersNormal_of_normal (hnow : s.now.IsNormal) (hnext : s.nextbcast.IsNormal) :
    s.TimersNormal := by
  refine ⟨hnext, fun t ht => ?_⟩
  unfold waittime at ht
  split at ht
  · obtain rfl := Option.some.inj ht
    split
    · exact ⟨⟨by decide, by decide⟩, by decide⟩
    · next hsec => exact ⟨timevalsub_normal hnext hnow, Int.not_lt.mp hsec⟩
  · cases ht

/-! ## What changes `nextbcast` -/

/-- The clock and the microseconds of `nextbcast` are as they were. -/
structure Untimed (s u : Globals) : Prop where
  now : u.now = s.now
  usec : u.nextbcast.usec = s.nextbcast.usec

theorem Untimed.refl (s : Globals) : Untimed s s := ⟨rfl, rfl⟩

theorem Untimed.trans {v : Globals} (h : Untimed s u) (h' : Untimed u v) : Untimed s v :=
  ⟨h'.now.trans h.now, h'.usec.trans h.usec⟩

theorem toall_untimed (changedOnly : Bool) (skipif : Option ℕ) (s : Globals) :
    Untimed s (s.toall changedOnly skipif) := by
  obtain ⟨tables, packets, hrest⟩ := (toall_sent changedOnly skipif s).rest
  rw [hrest]
  exact ⟨rfl, rfl⟩

theorem sendDynamic_untimed (skipif : Option ℕ) (s : Globals) :
    Untimed s (s.sendDynamic skipif) := by
  have h := toall_untimed true skipif s
  exact ⟨h.now, h.usec⟩

theorem sendFull_untimed (s : Globals) : Untimed s s.sendFull := by
  have h := toall_untimed false none s
  exact ⟨h.now, h.usec⟩

theorem ifinitEntry_untimed (s : Globals) (r : Ifreq) : Untimed s (s.ifinitEntry p r) := by
  unfold ifinitEntry
  split
  · exact Untimed.refl s
  · next f _ =>
    split
    · exact ⟨rfl, rfl⟩
    · split
      · exact Untimed.refl s
      · split
        · exact Untimed.refl s
        · split
          · exact Untimed.refl s
          · have hloop : Untimed s
                (if f.loopback then s.noteLoopback p (sockaddrIn r.addr) else s) := by
              split
              · exact ⟨rfl, rfl⟩
              · exact Untimed.refl s
            dsimp only
            split
            · exact hloop
            · split
              · exact hloop
              · exact hloop.trans ⟨rfl, rfl⟩

theorem ifinit_untimed (s : Globals) (reqs : List Ifreq) : Untimed s (s.ifinit p reqs) := by
  have hfold (l : List Ifreq) (t : Globals) : Untimed t (l.foldl (ifinitEntry p) t) := by
    induction l generalizing t with
    | nil => exact Untimed.refl t
    | cons r l ih => exact (ifinitEntry_untimed t r).trans (ih _)
  have h := hfold reqs { s with lookforinterfaces := false }
  unfold ifinit
  dsimp only
  split
  · exact ⟨h.now, h.usec⟩
  · exact ⟨h.now, h.usec⟩

theorem gwkludgeEntry_untimed (s : Globals) (g : Gateway) : Untimed s (s.gwkludgeEntry p g) := by
  unfold gwkludgeEntry
  split
  · exact ⟨rfl, rfl⟩
  · exact ⟨rfl, rfl⟩
  · exact ⟨rfl, rfl⟩

theorem startup_untimed (p : Platform) (supplier : Int) (now : Timeval) (reqs : List Ifreq)
    (gateways : List Gateway) (gateway : Bool) :
    Untimed (boot supplier now) (startup p supplier now reqs gateways gateway) := by
  have hfold (l : List Gateway) (t : Globals) : Untimed t (l.foldl (gwkludgeEntry p) t) := by
    induction l generalizing t with
    | nil => exact Untimed.refl t
    | cons g l ih => exact (gwkludgeEntry_untimed t g).trans (ih _)
  have h := (ifinit_untimed (p := p) (boot supplier now) reqs).trans (hfold gateways _)
  unfold startup
  dsimp only
  split
  · split
    · exact ⟨h.now, h.usec⟩
    · exact ⟨h.now, h.usec⟩
  · split
    · exact ⟨h.now, h.usec⟩
    · exact h

/-- The delay that `rip_input` draws, as a `struct timeval`. -/
def delayOf (random : ℕ) : Timeval :=
  ⟨randomdelay random / 1000000, randomdelay random % 1000000⟩

theorem delayOf_normal (random : ℕ) : (delayOf random).IsNormal := by
  unfold delayOf Timeval.IsNormal
  dsimp only
  omega

theorem inhibit_now (random : ℕ) (s : Globals) : (s.inhibit random).now = s.now := by
  unfold inhibit
  split
  · rfl
  · rfl

theorem inhibit_usec (random : ℕ) (s : Globals) : (s.inhibit random).nextbcast.usec =
    if s.nextbcast.sec = 0 then (timevaladd (delayOf random) s.now).usec else s.nextbcast.usec := by
  unfold inhibit
  split
  · dsimp only
    split
    · rfl
    · rfl
  · rfl

/-- The response changes the tables, a dynamic update is sent or due, and further ones are to be
held off from now on. -/
def holdsOff (p : Platform) (src : Sockaddr) (nets : List Netinfo) (s : Globals) : Bool :=
  let env := s.env p ((ifIflookup s.ifnet src).map Interface.id)
  (authenticated s.ifnet src).any fun ifp =>
    decide ((ripNets env ifp src nets (refreshSender env src s.tables)).2 > 0) &&
      (s.isDynamic && (s.isOpen || decide (s.nextbcast.sec = 0)))

def inhibits (p : Platform) (now : Timeval) (r : Response) (s : Globals) : Bool :=
  decide (r.src.family = AF_INET ∧ r.vers ≠ 0 ∧ r.src.port = p.ripPort) &&
    ((ifIfwithaddr s.ifnet (inetCanon r.src)).isNone &&
      ({ s with now := now } : Globals).holdsOff p (inetCanon r.src) r.nets)

/-- The microseconds of `nextbcast` after an update, when it is called for. -/
def inhibitedUsec (random : ℕ) (s : Globals) : Int :=
  if s.isDynamic && (s.isOpen || decide (s.nextbcast.sec = 0)) then
    (timevaladd (delayOf random) s.now).usec
  else s.nextbcast.usec

theorem dynamicUpdate_timed (ifp : Interface) (random : ℕ) (s : Globals) :
    (s.dynamicUpdate ifp random).now = s.now ∧
      (s.dynamicUpdate ifp random).nextbcast.usec = s.inhibitedUsec random := by
  unfold dynamicUpdate inhibitedUsec
  cases hdynamic : s.isDynamic with
  | false =>
    rw [if_neg Bool.false_ne_true, Bool.false_and, if_neg Bool.false_ne_true]
    exact ⟨rfl, rfl⟩
  | true =>
    rw [if_pos rfl, Bool.true_and]
    cases hopen : s.isOpen with
    | true =>
      have h := sendDynamic_untimed (some ifp.id) s
      have hsec : (s.sendDynamic (some ifp.id)).nextbcast.sec = 0 := rfl
      rw [if_pos rfl, Bool.true_or, if_pos rfl, inhibit_now, inhibit_usec, if_pos hsec, h.now]
      exact ⟨rfl, rfl⟩
    | false =>
      rw [if_neg Bool.false_ne_true, Bool.false_or, inhibit_now, inhibit_usec]
      by_cases hsec : s.nextbcast.sec = 0
      · rw [if_pos hsec, decide_eq_true hsec, if_pos rfl]
        exact ⟨rfl, rfl⟩
      · rw [if_neg hsec, decide_eq_false hsec, if_neg Bool.false_ne_true]
        exact ⟨rfl, rfl⟩

theorem hearRouter_timed (random : ℕ) (src : Sockaddr) (nets : List Netinfo) (s : Globals) :
    (s.hearRouter p random src nets).now = s.now ∧ (s.hearRouter p random src nets).nextbcast.usec =
      if s.holdsOff p src nets then (timevaladd (delayOf random) s.now).usec
      else s.nextbcast.usec := by
  unfold hearRouter holdsOff
  dsimp only
  cases authenticated s.ifnet src with
  | none => exact ⟨rfl, rfl⟩
  | some ifp =>
    dsimp only
    rw [Option.any_some]
    split
    · next hchanges =>
      obtain ⟨hnow, husec⟩ := dynamicUpdate_timed ifp random _
      rw [hnow, husec, decide_eq_true hchanges, Bool.true_and]
      exact ⟨rfl, rfl⟩
    · next hsame =>
      rw [decide_eq_false hsame, Bool.false_and, if_neg Bool.false_ne_true]
      exact ⟨rfl, rfl⟩

theorem ripInput_timed (now : Timeval) (random : ℕ) (r : Response) (s : Globals) :
    (s.ripInput p now random r).now = now ∧ (s.ripInput p now random r).nextbcast.usec =
      if s.inhibits p now r then (timevaladd (delayOf random) now).usec else s.nextbcast.usec := by
  by_cases hguard : r.src.family = AF_INET ∧ r.vers ≠ 0 ∧ r.src.port = p.ripPort
  · have hinhibits : s.inhibits p now r = ((ifIfwithaddr s.ifnet (inetCanon r.src)).isNone &&
        ({ s with now := now } : Globals).holdsOff p (inetCanon r.src) r.nets) := by
      rw [inhibits, decide_eq_true hguard, Bool.true_and]
    rw [hinhibits]
    unfold ripInput
    dsimp only
    rw [if_pos hguard]
    cases ifIfwithaddr s.ifnet (inetCanon r.src) with
    | some ifp =>
      rw [Option.isNone_some, Bool.false_and, if_neg Bool.false_ne_true]
      dsimp only
      split
      · exact ⟨rfl, rfl⟩
      · exact ⟨rfl, rfl⟩
    | none =>
      rw [Option.isNone_none, Bool.true_and]
      exact hearRouter_timed random (inetCanon r.src) r.nets { s with now := now }
  · have hinhibits : s.inhibits p now r = false := by
      rw [inhibits, decide_eq_false hguard, Bool.false_and]
    rw [hinhibits, if_neg Bool.false_ne_true]
    unfold ripInput
    dsimp only
    rw [if_neg hguard]
    exact ⟨rfl, rfl⟩

theorem timer_timed (now : Timeval) (reqs : List Ifreq) (s : Globals) :
    (s.timer p now reqs).now = now ∧ (s.timer p now reqs).nextbcast.usec = s.nextbcast.usec := by
  have hcheck : Untimed { s with now := now, faketime := s.faketime + TIMER_RATE }
      (checkInterfaces p reqs { s with now := now, faketime := s.faketime + TIMER_RATE }) := by
    unfold checkInterfaces
    split
    · exact ifinit_untimed _ reqs
    · exact Untimed.refl _
  unfold timer
  dsimp only
  split
  · exact ⟨(sendFull_untimed _).now.trans hcheck.now, (sendFull_untimed _).usec.trans hcheck.usec⟩
  · exact ⟨hcheck.now, hcheck.usec⟩

end Globals

/-! ## Runs -/

def Event.clock : Event → Timeval
  | .response now _ _ | .tick now _ | .expired now => now

/-- An event with a reading as `gettimeofday` gives it. -/
structure Clocked where
  event : Event
  normal : event.clock.IsNormal

def clockedStep (p : Platform) (s : Globals) (e : Clocked) : Option Globals := step p s e.event

/-- If `nextbcast` is computed anew, the delay and the clock do not add up to a full second. -/
def NoCarry (p : Platform) (s : Globals) (e : Clocked) : Prop :=
  match e.event with
  | .response now random r =>
    s.inhibits p now r = true → randomdelay random % 1000000 + now.usec ≠ 1000000
  | _ => True

instance (p : Platform) (s : Globals) : (e : Clocked) → Decidable (NoCarry p s e)
  | ⟨.response now random r, _⟩ => inferInstanceAs (Decidable
      (s.inhibits p now r = true → randomdelay random % 1000000 + now.usec ≠ 1000000))
  | ⟨.tick _ _, _⟩ => inferInstanceAs (Decidable True)
  | ⟨.expired _, _⟩ => inferInstanceAs (Decidable True)

def ClocksNormal (s : Globals) : Prop := s.now.IsNormal ∧ s.nextbcast.IsNormal

variable {p : Platform} {s u : Globals}

theorem clockedStep_normal (e : Clocked) (hs : ClocksNormal s) :
    (e.event.apply p s).now.IsNormal ∧
      ((e.event.apply p s).nextbcast.IsNormal ↔ NoCarry p s e) := by
  obtain ⟨event, hclock⟩ := e
  obtain ⟨hnow, hnext⟩ := hs
  cases event with
  | response now random r =>
    obtain ⟨hclock', husec⟩ := Globals.ripInput_timed (p := p) now random r s
    refine ⟨by rw [Event.apply, hclock']; exact hclock, ?_⟩
    dsimp only [Event.apply, NoCarry]
    cases hinhibits : s.inhibits p now r with
    | true =>
      rw [hinhibits, if_pos rfl] at husec
      rw [Timeval.IsNormal, husec]
      exact (timevaladd_normal_iff (Globals.delayOf_normal random) hclock).trans
        ⟨fun h _ => h, fun h => h rfl⟩
    | false =>
      rw [hinhibits, if_neg Bool.false_ne_true] at husec
      rw [Timeval.IsNormal, husec]
      exact iff_of_true hnext (fun h => absurd h Bool.false_ne_true)
  | tick now reqs =>
    obtain ⟨hclock', husec⟩ := Globals.timer_timed (p := p) now reqs s
    refine ⟨by rw [Event.apply, hclock']; exact hclock, ?_⟩
    dsimp only [Event.apply, NoCarry]
    rw [Timeval.IsNormal, husec]
    exact iff_of_true hnext trivial
  | expired now =>
    dsimp only [Event.apply, NoCarry]
    unfold Globals.delayedUpdate
    split
    · have h := Globals.sendDynamic_untimed none { s with now := now }
      refine ⟨by rw [h.now]; exact hclock, ?_⟩
      rw [Timeval.IsNormal, h.usec]
      exact iff_of_true hnext trivial
    · exact ⟨hnow, iff_of_true hnext trivial⟩

theorem steps_noCarry_iff (hs : ClocksNormal s) (es : List Clocked) :
    Steps (NoCarry p) (clockedStep p) s es ↔
      ∀ u, Reached (clockedStep p) s es u → u.TimersNormal := by
  refine steps_iff_reached_of (I := ClocksNormal) ?_ ?_ ?_ hs
  · rintro s e t hs hok ⟨⟩
    obtain ⟨hnow, hnext⟩ := clockedStep_normal e hs
    exact ⟨hnow, hnext.mpr hok⟩
  · rintro s ⟨hnow, hnext⟩
    exact Globals.timersNormal_of_normal hnow hnext
  · intro s e hs hcarry
    refine ⟨_, rfl, fun hnormal => hcarry ?_⟩
    exact (clockedStep_normal e hs).2.mp hnormal.nextbcast

/-- **The timers of routed are normal**: `timevaladd` and `timevalsub` are exact, a difference is
normal, and a sum is so unless the microseconds come to 1000000; `nextbcast` and the timeout of
`select` are normal all along exactly if this does not happen in the run. -/
theorem timers_normal_iff (p : Platform) (supplier : Int) (now : Timeval) (hnow : now.IsNormal)
    (reqs : List Ifreq) (gateways : List Gateway) (gateway : Bool) (es : List Clocked) :
    (∀ t u : Timeval, t.IsNormal → u.IsNormal →
      (timevaladd t u).micros = t.micros + u.micros ∧
        ((timevaladd t u).IsNormal ↔ t.usec + u.usec ≠ 1000000) ∧
        (timevalsub t u).micros = t.micros - u.micros ∧ (timevalsub t u).IsNormal) ∧
      ((∀ u, Reached (clockedStep p)
          (Globals.startup p supplier now reqs gateways gateway) es u → u.TimersNormal) ↔
        Steps (NoCarry p) (clockedStep p)
          (Globals.startup p supplier now reqs gateways gateway) es) := by
  refine ⟨fun t u ht hu => ⟨timevaladd_micros t u, timevaladd_normal_iff ht hu,
    timevalsub_micros t u, timevalsub_normal ht hu⟩, ?_⟩
  have h := Globals.startup_untimed p supplier now reqs gateways gateway
  refine (steps_noCarry_iff ⟨?_, ?_⟩ es).symm
  · rw [h.now]
    exact hnow
  · rw [Timeval.IsNormal, h.usec]
    exact ⟨Int.le_refl 0, (by decide : (0 : Int) < 1000000)⟩

/-! ## A network -/

def oneNetwork : Globals :=
  Globals.startup linux 1 ⟨1000, 0⟩ [ether 0x0a000001 0xff000000 0x0affffff] [] false

/-- The router 10.0.0.2 tells of a network, `usec` microseconds after the second `sec`, and
`random` draws half a second. -/
def hears (sec : Int) (usec : Fin 1000000) (net : UInt32) : Clocked where
  event := .response ⟨sec, usec⟩ 500000
    ⟨{ sockaddrIn 0x0a000002 with port := 520 }, 1, [⟨sockaddrIn net, 1⟩]⟩
  normal := ⟨Int.natCast_nonneg _, Int.ofNat_lt.mpr usec.isLt⟩

def ticks (sec : Int) : Clocked where
  event := .tick ⟨sec, 0⟩ []
  normal := ⟨Int.le_refl 0, (by decide : (0 : Int) < 1000000)⟩

/-- An update is sent, and the next one is held off. -/
theorem timers_normal_heldOff :
    ∃ u, Reached (clockedStep linux) oneNetwork
      [ticks 1030, hears 1033 400000 0xc0a80100, hears 1034 0 0xc0a80200] u ∧ u.needupdate = 1 ∧
        u.TimersNormal := by
  have hnormal := (timers_normal_iff linux 1 ⟨1000, 0⟩ (by decide)
    [ether 0x0a000001 0xff000000 0x0affffff] [] false
    [ticks 1030, hears 1033 400000 0xc0a80100, hears 1034 0 0xc0a80200]).2.mpr (by decide +kernel)
  refine ⟨_, ⟨_, List.prefix_rfl, rfl⟩, by decide +kernel, ?_⟩
  exact hnormal _ ⟨_, List.prefix_rfl, rfl⟩

/-- The delay ends with a full second: `timevaladd` leaves a million microseconds, and the timeout
for the update that is held off next is no valid time. -/
theorem timers_not_normal :
    ¬ (timevaladd ⟨2, 500000⟩ ⟨1033, 500000⟩).IsNormal ∧
      ∃ u, run (clockedStep linux) oneNetwork
          [ticks 1030, hears 1033 500000 0xc0a80100, hears 1034 0 0xc0a80200] = some u ∧
        u.waittime = some ⟨1, 1000000⟩ ∧ ¬ u.TimersNormal := by
  refine ⟨by decide, _, rfl, by decide +kernel, fun h => ?_⟩
  exact absurd (h.waittime ⟨1, 1000000⟩ (by decide +kernel)).1 (by decide)

end Netkit.Routed

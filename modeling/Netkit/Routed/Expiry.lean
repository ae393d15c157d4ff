import Netkit.Routed.Aging
import Netkit.Routed.Evolution
import Netkit.Routed.Requests

/-!
# Routes that are not refreshed

The timer of a route advances with the ticks of the clock, and a response from its gateway sets it
back. A route for which none is heard expires, and is garbage in the end.

* `aging`: the walk, the tick, and a route that is not refreshed; `interface_not_aged`: a route that
  does not age.
-/

namespace Netkit.Routed

open Netkit.Foundations

variable {reset : Prop} {env : Env} {t u : Tables} {rt x e : RtEntry}

/-! ## The tick -/

/-- The tick advances the timer of the route: its gateway is not passive, and it is for no interface
unless we act as supplier. -/
def Ages (supplier : Int) (rt : RtEntry) : Prop :=
  rt.state.passive = false ∧ (supplier ≠ 0 ∨ rt.state.interface = false)

instance (supplier : Int) (rt : RtEntry) : Decidable (Ages supplier rt) :=
  inferInstanceAs (Decidable (_ ∧ _))

def timerAfter (supplier : Int) (rt : RtEntry) : Int :=
  if Ages supplier rt then rt.timer + TIMER_RATE else rt.timer

theorem advanced_eq (supplier : Int) (rt : RtEntry) :
    advanced supplier rt = timerAfter supplier rt := by
  unfold advanced timerAfter
  refine if_congr ?_ rfl rfl
  simp [Ages]

/-- A route that stays, after the tick: its timer has been advanced, `RTS_CHANGED` is cleared, and
if it has expired its metric is 16, through the gateway that it had. -/
structure Stayed (supplier : Int) (rt e : RtEntry) : Prop where
  id : e.id = rt.id
  dst : e.dst = rt.dst
  router : e.router = rt.router
  passive : e.state.passive = rt.state.passive
  timer : e.timer = timerAfter supplier rt
  metric : e.metric = if EXPIRE_TIME ≤ timerAfter supplier rt ∧ rt.metric < HOPCNT_INFINITY then
    HOPCNT_INFINITY else rt.metric
  changed : e.changed = false

/-- One tick. No route is there twice, and none that was not there before; the routes that are gone
are those whose timer has come to `GARBAGE_TIME`. -/
structure Ticked (supplier : Int) (t u : Tables) : Prop where
  once : (u.entries.map RtEntry.id).Sublist (t.entries.map RtEntry.id)
  stayed : ∀ rt ∈ t.entries, timerAfter supplier rt < GARBAGE_TIME →
    ∃ e ∈ u.entries, Stayed supplier rt e
  gone : ∀ rt ∈ t.entries, GARBAGE_TIME ≤ timerAfter supplier rt →
    ∀ e ∈ u.entries, e.id ≠ rt.id

variable {supplier : Int}

theorem toShort_infinity : toShort HOPCNT_INFINITY = HOPCNT_INFINITY := by decide

theorem ageEntry_stayed (env : Env) (h : timerAfter supplier rt < GARBAGE_TIME) :
    ∃ e, ageEntry env supplier rt = some e ∧ Stayed supplier rt e ∧
      e.state.internal = rt.state.internal ∧
      (e.state.interface = true → rt.state.interface = true) := by
  unfold ageEntry
  dsimp only
  rw [advanced_eq, if_neg (Int.not_le.mpr h)]
  refine ⟨_, rfl, ?_⟩
  by_cases hexpired : timerAfter supplier rt ≥ EXPIRE_TIME ∧ rt.metric < HOPCNT_INFINITY
  · rw [if_pos hexpired]
    refine ⟨⟨rfl, rfl, ite_self _, rfl, rfl, ?_, rfl⟩, rfl,
      fun hi => (Bool.and_eq_true_iff.mp hi).1⟩
    rw [if_pos hexpired]
    exact toShort_infinity
  · rw [if_neg hexpired]
    exact ⟨⟨rfl, rfl, rfl, rfl, rfl, (if_neg hexpired).symm, rfl⟩, rfl, id⟩

theorem ageEntry_gone (h : GARBAGE_TIME ≤ timerAfter supplier rt) :
    ageEntry env supplier rt = none := by
  unfold ageEntry
  dsimp only
  rw [advanced_eq, if_pos h]

theorem stayed_of_ageEntry (h : ageEntry env supplier rt = some e) :
    timerAfter supplier rt < GARBAGE_TIME ∧ Stayed supplier rt e ∧
      e.state.internal = rt.state.internal ∧
      (e.state.interface = true → rt.state.interface = true) := by
  have hyoung : timerAfter supplier rt < GARBAGE_TIME := by
    by_contra hold
    rw [ageEntry_gone (Int.not_lt.mp hold)] at h
    cases h
  obtain ⟨y, hy, hstayed⟩ := ageEntry_stayed env hyoung
  rw [h] at hy
  exact ⟨hyoung, Option.some.inj hy ▸ hstayed⟩

theorem ageTables_ticked (env : Env) (supplier : Int) (t : Tables) :
    Ticked supplier t (ageTables env supplier t) := by
  have hentries := entries_ageTables env supplier t
  refine ⟨?_, fun rt hrt hyoung => ?_, fun rt hrt hold e he hid => ?_⟩
  · rw [hentries]
    induction t.entries with
    | nil => exact List.Sublist.refl []
    | cons rt l ih =>
      cases hage : ageEntry env supplier rt with
      | none =>
        rw [List.filterMap_cons_none hage]
        exact ih.cons _
      | some e =>
        rw [List.filterMap_cons_some hage, List.map_cons, List.map_cons,
          (ageEntry_inPlace env supplier rt e hage).id]
        exact ih.cons_cons _
  · obtain ⟨e, he, hstayed, -⟩ := ageEntry_stayed env hyoung
    exact ⟨e, hentries ▸ List.mem_filterMap.mpr ⟨rt, hrt, he⟩, hstayed⟩
  · obtain ⟨x, hx, hxe⟩ := mem_ageTables he
    have hxid := (ageEntry_inPlace env supplier x e hxe).id
    obtain rfl := entry_eq hx hrt (hxid.symm.trans hid)
    rw [ageEntry_gone hold] at hxe
    cases hxe

namespace Globals

variable {s w : Globals} {p : Platform}

/-- The tick, after the interfaces have been looked for: the routes are aged, and if we act as
supplier the full update is sent. -/
theorem timer_eq (p : Platform) (now : Timeval) (reqs : List Ifreq) (s : Globals) :
    ∃ w, Quiet False { s with now := now, faketime := s.faketime + TIMER_RATE } w ∧
      s.timer p now reqs =
        if w.supplier ≠ 0 ∧ w.faketime % SUPPLY_INTERVAL = 0 then
          { w with tables := ageTables (w.env p none) w.supplier w.tables }.sendFull
        else { w with tables := ageTables (w.env p none) w.supplier w.tables } :=
  ⟨_, checkInterfaces_quiet reqs _, rfl⟩

theorem Covers.updates {changedOnly : Bool} {skipif : Option ℕ} {l : List Interface}
    {sent : List Packet} (h : Covers changedOnly skipif l s.tables sent) (hupdates : Updates s w) :
    Covers changedOnly skipif l w.tables sent := by
  obtain ⟨f, hf, hroutes⟩ := hupdates.routes
  intro ifp hifp hpassive hpeer hskip e he hsupplied
  rw [hroutes] at he
  obtain ⟨x, hx, rfl⟩ := List.mem_map.mp he
  obtain ⟨told, htold⟩ := hf x
  rw [htold] at hsupplied ⊢
  exact h ifp hifp hpassive hpeer hskip x hx hsupplied

/-- What the tick does: `w` is the state after the interfaces have been looked for. -/
structure Ticks (p : Platform) (s w u : Globals) : Prop where
  before : ∃ now, Quiet False { s with now := now, faketime := s.faketime + TIMER_RATE } w
  updates : Updates { w with tables := ageTables (w.env p none) w.supplier w.tables } u
  supplier : u.supplier = w.supplier
  faketime : u.faketime = w.faketime
  full : u.supplier ≠ 0 → u.faketime % SUPPLY_INTERVAL = 0 →
    ∃ sent, u.packets = w.packets ++ sent ∧ Covers false none u.ifnet u.tables sent

theorem timer_ticks (p : Platform) (now : Timeval) (reqs : List Ifreq) (s : Globals) :
    ∃ w, Ticks p s w (s.timer p now reqs) := by
  obtain ⟨w, hquiet, htimer⟩ := timer_eq p now reqs s
  obtain ⟨aged, haged⟩ : ∃ aged : Globals,
      { w with tables := ageTables (w.env p none) w.supplier w.tables } = aged := ⟨_, rfl⟩
  refine ⟨w, ?_⟩
  rw [htimer, haged]
  split
  · obtain ⟨tables, packets, hrest⟩ := (toall_sent false none aged).rest
    refine { before := ⟨now, hquiet⟩, updates := haged ▸ sendFull_updates aged
             supplier := ?_, faketime := ?_, full := fun _ _ => ?_ }
    · change (aged.toall false none).supplier = w.supplier
      rw [hrest, ← haged]
    · change (aged.toall false none).faketime = w.faketime
      rw [hrest, ← haged]
    · have hifnet : aged.sendFull.ifnet = aged.ifnet := by
        change (aged.toall false none).ifnet = aged.ifnet
        rw [hrest]
      obtain ⟨sent, hsent, hcovers⟩ := sendFull_covers aged
      refine ⟨sent, ?_, hifnet ▸ hcovers.updates (sendFull_updates aged)⟩
      rw [hsent, ← haged]
  · next hfull =>
    refine { before := ⟨now, hquiet⟩, updates := haged ▸ Updates.refl aged
             supplier := haged ▸ rfl, faketime := haged ▸ rfl
             full := fun hsupplier hfaketime => ?_ }
    rw [← haged] at hsupplier hfaketime
    exact absurd ⟨hsupplier, hfaketime⟩ hfull

end Globals

/-! ## What holds of every route -/

/-- The timer of a route in a state that is reached. A route that is internal is passive, the timer
of a passive one does not advance, and one that has expired is not finite. -/
structure Timed (e : RtEntry) : Prop where
  low : 0 ≤ e.timer
  internal : e.state.internal = true → e.state.passive = true
  passive : e.state.passive = true → e.timer ≤ GARBAGE_TIME - EXPIRE_TIME
  expired : EXPIRE_TIME ≤ e.timer → HOPCNT_INFINITY ≤ e.metric

theorem Young.timed (h : Young e) : Timed e := by
  refine ⟨h.low, h.internal, fun _ => h.high, fun hold => ?_⟩
  have hhigh := h.high
  unfold GARBAGE_TIME EXPIRE_TIME at hhigh
  unfold EXPIRE_TIME at hold
  omega

theorem Timed.touched (h : Timed x) (h' : Touched reset x e) : Timed e := by
  have hinternal : e.state.internal = true → e.state.passive = true := by
    rw [h'.internal, h'.passive]
    exact h.internal
  rcases h'.timer with ⟨htimer, hmetric⟩ | ⟨-, hlow, hhigh⟩
  · have hpassive : e.state.passive = true → e.timer ≤ GARBAGE_TIME - EXPIRE_TIME := by
      rw [htimer, h'.passive]
      exact h.passive
    refine ⟨htimer ▸ h.low, hinternal, hpassive, fun hold => ?_⟩
    rcases hmetric with hmetric | hint
    · rw [hmetric]
      exact h.expired (htimer ▸ hold)
    · have hhigh := hpassive (hinternal (h'.internal.trans hint))
      unfold GARBAGE_TIME EXPIRE_TIME at hhigh
      unfold EXPIRE_TIME at hold
      omega
  · exact Young.timed ⟨hlow, hhigh, hinternal⟩

theorem Timed.evolves (h : ∀ e ∈ t.entries, Timed e) (h' : Evolves reset t u) :
    ∀ e ∈ u.entries, Timed e := by
  intro e he
  rcases h'.routes e he with ⟨x, hx, hxe⟩ | ⟨-, hyoung⟩
  · exact (h x hx).touched hxe
  · exact hyoung.timed

theorem timerAfter_passive (h : rt.state.passive = true) : timerAfter supplier rt = rt.timer := by
  refine if_neg (fun hages => ?_)
  rw [hages.1] at h
  cases h

theorem timerAfter_le (supplier : Int) (rt : RtEntry) : rt.timer ≤ timerAfter supplier rt := by
  unfold timerAfter TIMER_RATE
  split
  · omega
  · exact Int.le_refl _

theorem Timed.stayed (h : Timed rt) (h' : Stayed supplier rt e)
    (hinternal : e.state.internal = rt.state.internal) : Timed e := by
  refine ⟨?_, ?_, fun hpassive => ?_, fun hold => ?_⟩
  · rw [h'.timer]
    exact h.low.trans (timerAfter_le supplier rt)
  · rw [hinternal, h'.passive]
    exact h.internal
  · rw [h'.passive] at hpassive
    rw [h'.timer, timerAfter_passive hpassive]
    exact h.passive hpassive
  · rw [h'.timer] at hold
    rw [h'.metric]
    by_cases hfinite : rt.metric < HOPCNT_INFINITY
    · rw [if_pos ⟨hold, hfinite⟩]
    · rw [if_neg (fun hboth => hfinite hboth.2)]
      exact Int.not_lt.mp hfinite

theorem Timed.ageTables (h : ∀ e ∈ t.entries, Timed e) :
    ∀ e ∈ (ageTables env supplier t).entries, Timed e := by
  intro e he
  obtain ⟨rt, hrt, hage⟩ := mem_ageTables he
  obtain ⟨-, hstayed, hinternal, -⟩ := stayed_of_ageEntry hage
  exact (h rt hrt).stayed hstayed hinternal

/-- The states that are reached. -/
structure Steady (s : Globals) : Prop where
  timed : ∀ e ∈ s.tables.entries, Timed e
  faketime : s.faketime % SUPPLY_INTERVAL = 0

variable {p : Platform} {s w : Globals}

theorem Steady.follows (h : Steady s) (h' : Globals.Follows reset s w) : Steady w :=
  ⟨Timed.evolves h.timed h'.tables, h'.faketime ▸ h.faketime⟩

theorem startup_steady (p : Platform) (supplier : Int) (now : Timeval) (reqs : List Ifreq)
    (gateways : List Gateway) (gateway : Bool) :
    Steady (Globals.startup p supplier now reqs gateways gateway) := by
  have hboot : Steady (Globals.boot supplier now) := by
    refine ⟨fun e he => ?_, rfl⟩
    change e ∈ rtinit.entries at he
    rw [Tables.entries] at he
    rcases List.mem_append.mp he with he | he
    · exact absurd he (Chains.elements_nil (α := RtEntry) ▸ List.not_mem_nil)
    · exact absurd he (Chains.elements_nil (α := RtEntry) ▸ List.not_mem_nil)
  have hfold (s : Globals) (hs : Steady s) :
      Steady (gateways.foldl (Globals.gwkludgeEntry p) s) := by
    induction gateways generalizing s with
    | nil => exact hs
    | cons g l ih =>
      have hquiet : Globals.Quiet True s (s.gwkludgeEntry p g) := Globals.gwkludgeEntry_quiet s g
      exact ih _ (hs.follows hquiet.follows)
  have hifinit : Globals.Quiet True (Globals.boot supplier now)
      ((Globals.boot supplier now).ifinit p reqs) := Globals.ifinit_quiet reqs _
  have hgateways := hfold _ (hboot.follows hifinit.follows)
  unfold Globals.startup
  dsimp only
  generalize
    gateways.foldl (Globals.gwkludgeEntry p) ((Globals.boot supplier now).ifinit p reqs) = s
    at hgateways ⊢
  have hdefault : Evolves True s.tables (rtdefault (s.env p none) s.tables) :=
    evolves_rtadd (fun _ => rfl)
  split
  · have htables := Timed.evolves hgateways.timed hdefault
    split
    · exact ⟨htables, hgateways.faketime⟩
    · exact ⟨htables, hgateways.faketime⟩
  · split
    · exact ⟨hgateways.timed, hgateways.faketime⟩
    · exact hgateways

theorem Steady.updates (h : Steady s) (h' : Globals.Updates s w)
    (hfaketime : w.faketime = s.faketime) : Steady w := by
  have hevolves : Evolves True s.tables w.tables := h'.evolves
  exact ⟨Timed.evolves h.timed hevolves, hfaketime ▸ h.faketime⟩

theorem Steady.ticks {u : Globals} (h : Steady s) (h' : Globals.Ticks p s w u) : Steady u := by
  obtain ⟨now, hquiet⟩ := h'.before
  have hw : Steady w := by
    refine Steady.follows (s := { s with now := now, faketime := s.faketime + TIMER_RATE })
      ⟨h.timed, ?_⟩ hquiet.follows
    have hfaketime := h.faketime
    change (s.faketime + TIMER_RATE) % SUPPLY_INTERVAL = 0
    unfold SUPPLY_INTERVAL at hfaketime ⊢
    unfold TIMER_RATE
    omega
  exact Steady.updates (s := { w with tables := ageTables (w.env p none) w.supplier w.tables })
    ⟨Timed.ageTables hw.timed, hw.faketime⟩ h'.updates h'.faketime

/-! ## Runs -/

def Event.isTick : Event → Bool
  | .tick _ _ => true
  | _ => false

def tickCount (es : List Event) : ℕ := es.countP Event.isTick

/-- The event does not set the timer of the route at the place `i` back. -/
def Unrefreshed (p : Platform) (i : ℕ) (s : Globals) (e : Event) : Prop :=
  ∀ x ∈ s.tables.entries, ∀ y ∈ (e.apply p s).tables.entries, x.id = i → y.id = i →
    x.timer ≤ y.timer

instance (p : Platform) (i : ℕ) (s : Globals) (e : Event) : Decidable (Unrefreshed p i s e) :=
  inferInstanceAs (Decidable (∀ _ ∈ _, ∀ _ ∈ _, _))

theorem apply_leads {ev : Event} (h : ev.isTick = false) (s : Globals) :
    Globals.Leads s (ev.apply p s) := by
  cases ev with
  | response now random r => exact Globals.ripInput_leads now random r s
  | tick now reqs => cases h
  | expired now => exact Globals.delayedUpdate_leads now s

theorem apply_ticks {ev : Event} (h : ev.isTick = true) (s : Globals) :
    ∃ w, Globals.Ticks p s w (ev.apply p s) := by
  cases ev with
  | response now random r => cases h
  | tick now reqs => exact Globals.timer_ticks p now reqs s
  | expired now => cases h

theorem step_steady {ev : Event} (h : Steady s) (hstep : step p s ev = some w) : Steady w := by
  cases hstep
  cases htick : ev.isTick with
  | false => exact h.follows (apply_leads htick s).follows
  | true =>
    obtain ⟨w, hticks⟩ := apply_ticks (p := p) htick s
    exact h.ticks hticks

theorem apply_sends (p : Platform) (ev : Event) (s : Globals) :
    Globals.Sends s (ev.apply p s) := by
  cases htick : ev.isTick with
  | false => exact (apply_leads htick s).sends
  | true =>
    obtain ⟨w, hticks⟩ := apply_ticks (p := p) htick s
    obtain ⟨now, hquiet⟩ := hticks.before
    obtain ⟨sent, hsent, hroutes⟩ := hticks.updates.sends
    exact ⟨sent, hsent.trans (congrArg (· ++ sent) hquiet.packets), hroutes⟩

/-- The route at the place `i` ages, if it is there, and `n` ticks have gone by. -/
structure Tracked (i n : ℕ) (s : Globals) : Prop where
  old : i < s.tables.next
  aged : ∀ e ∈ s.tables.entries, e.id = i → Ages s.supplier e ∧ TIMER_RATE * n ≤ e.timer

theorem Ages.touched (h : Ages s.supplier x) (hsupplier : s.supplier ≠ 0 → w.supplier ≠ 0)
    (h' : Touched reset x e) : Ages w.supplier e := by
  refine ⟨h'.passive.trans h.1, h.2.imp hsupplier (fun hinterface => ?_)⟩
  rw [Bool.eq_false_iff]
  intro hi
  rw [h'.interface hi] at hinterface
  cases hinterface

theorem Evolves.before {i : ℕ} (h : Evolves reset t u) (hi : i < t.next) (he : e ∈ u.entries)
    (hid : e.id = i) : ∃ x ∈ t.entries, x.id = i ∧ Touched reset x e := by
  rcases h.routes e he with ⟨x, hx, hxe⟩ | ⟨hnew, -⟩
  · exact ⟨x, hx, hxe.id.symm.trans hid, hxe⟩
  · omega

theorem Tracked.follows {i n : ℕ} (h : Tracked i n s) (h' : Globals.Follows reset s w)
    (htimer : ∀ x ∈ s.tables.entries, ∀ y ∈ w.tables.entries, x.id = i → y.id = i →
      x.timer ≤ y.timer) : Tracked i n w := by
  refine ⟨h.old.trans_le h'.tables.next, fun e he hid => ?_⟩
  obtain ⟨x, hx, hxid, hxe⟩ := h'.tables.before h.old he hid
  obtain ⟨hages, hlow⟩ := h.aged x hx hxid
  exact ⟨hages.touched h'.supplier hxe, hlow.trans (htimer x hx e he hxid hid)⟩

/-- What changes nothing but `told` changes no timer. -/
theorem Tracked.updates {i n : ℕ} (h : Tracked i n s) (h' : Globals.Updates s w)
    (hsupplier : w.supplier = s.supplier) : Tracked i n w := by
  obtain ⟨f, hf, hroutes⟩ := h'.routes
  refine ⟨h'.next ▸ h.old, fun e he hid => ?_⟩
  rw [hroutes] at he
  obtain ⟨x, hx, rfl⟩ := List.mem_map.mp he
  obtain ⟨told, htold⟩ := hf x
  rw [htold] at hid ⊢
  rw [hsupplier]
  exact h.aged x hx hid

theorem Tracked.ageTables {i n : ℕ} (h : Tracked i n s) (env : Env) :
    Tracked i (n + 1) { s with tables := ageTables env s.supplier s.tables } := by
  refine ⟨h.old, fun e he hid => ?_⟩
  obtain ⟨x, hx, hage⟩ := mem_ageTables he
  obtain ⟨-, hstayed, -, hinterface⟩ := stayed_of_ageEntry hage
  obtain ⟨hages, hlow⟩ := h.aged x hx (hstayed.id.symm.trans hid)
  refine ⟨⟨hstayed.passive.trans hages.1, hages.2.imp id (fun hno => ?_)⟩, ?_⟩
  · rw [Bool.eq_false_iff]
    intro hi
    rw [hinterface hi] at hno
    cases hno
  · rw [hstayed.timer, timerAfter, if_pos hages]
    unfold TIMER_RATE at hlow ⊢
    omega

theorem tracked_ticks {i n : ℕ} {u : Globals} (h : Tracked i n s)
    (h' : Globals.Ticks p s w u) : Tracked i (n + 1) u := by
  obtain ⟨now, hquiet⟩ := h'.before
  have hw : Tracked i n w := by
    refine Tracked.follows (s := { s with now := now, faketime := s.faketime + TIMER_RATE })
      ⟨h.old, h.aged⟩ hquiet.follows (fun x hx y hy hxid hyid => ?_)
    obtain ⟨x', hx', hxid', hxy⟩ := hquiet.follows.tables.before h.old hy hyid
    obtain rfl := entry_eq hx' hx (hxid'.trans hxid.symm)
    rcases hxy.timer with ⟨htimer, -⟩ | ⟨hreset, -⟩
    · exact htimer.ge
    · exact hreset.elim
  exact (hw.ageTables (w.env p none)).updates h'.updates h'.supplier

theorem tracked_step {i n : ℕ} {ev : Event} (h : Tracked i n s) (hok : Unrefreshed p i s ev) :
    Tracked i (n + tickCount [ev]) (ev.apply p s) := by
  cases htick : ev.isTick with
  | false =>
    have hcount : tickCount [ev] = 0 := by
      rw [tickCount, List.countP_singleton, htick]
      rfl
    rw [hcount]
    exact h.follows (apply_leads htick s).follows hok
  | true =>
    have hcount : tickCount [ev] = 1 := by
      rw [tickCount, List.countP_singleton, htick]
      rfl
    obtain ⟨w, hticks⟩ := apply_ticks (p := p) htick s
    rw [hcount]
    exact tracked_ticks h hticks

theorem tracked_run {i n : ℕ} {u : Globals} {es : List Event} (h : Tracked i n s)
    (hok : Steps (Unrefreshed p i) (step p) s es) (hrun : run (step p) s es = some u) :
    Tracked i (n + tickCount es) u := by
  induction es generalizing s n with
  | nil =>
    cases hrun
    exact h
  | cons ev es ih =>
    obtain ⟨w, hw, hrun⟩ := run_cons_eq_some.mp hrun
    obtain ⟨hev, hrest⟩ := hok
    cases hw
    have hcount : n + tickCount (ev :: es) =
        n + tickCount [ev] + tickCount es := by
      rw [Nat.add_assoc, tickCount, tickCount, tickCount,
        ← List.countP_append]
      rfl
    rw [hcount]
    exact ih (tracked_step h hev) (hrest _ rfl) hrun

/-- What the loops of the timer do, whatever the tables are and wherever they stand in memory: they
come to their end, use no place that has been freed, and make one tick of it. -/
def WalksOnce (env : Env) (supplier : Int) (t : Tables) : Prop :=
  Ticked supplier t (ageTables env supplier t) ∧
    (∃ m, Represents m t) ∧
    ∀ m, Represents m t → ∀ passes, (∀ k, (t.chain k).length < passes) →
      ∃ m', ageMemory env supplier passes m = some m' ∧
        Represents m' (ageTables env supplier t)

/-- As supplier we send the full update in every tick, with all routes that are left. -/
def SendsFull (p : Platform) (s : Globals) : Prop :=
  ∀ now reqs, (s.timer p now reqs).supplier ≠ 0 →
    ∃ sent, (s.timer p now reqs).packets = s.packets ++ sent ∧
      Globals.Covers false none (s.timer p now reqs).ifnet (s.timer p now reqs).tables sent

/-- The route at the place `i` is not finite in the state `u`, nor in any answer from it, nor in
what the last of the events has sent. -/
structure Unreachable (p : Platform) (s : Globals) (i : ℕ) (es : List Event) (u : Globals) :
    Prop where
  metric : ∀ e ∈ u.tables.entries, e.id = i → HOPCNT_INFINITY ≤ e.metric
  answer : ∀ e, ∀ dst, rtlookup u.ifnet u.tables dst = some e → e.id = i →
    answerMetric (rtlookup u.ifnet u.tables) dst = HOPCNT_INFINITY
  sent : ∀ fs ev w, es = fs ++ [ev] → run (step p) s fs = some w →
    ∀ packet ∈ u.packets.drop w.packets.length, ∀ n ∈ packet.nets,
      ∃ e ∈ u.tables.entries, n = e.netinfo ∧ (e.id = i → HOPCNT_INFINITY ≤ n.metric)

/-- A route that ages and is not refreshed is not finite from the tick on that makes up
`EXPIRE_TIME`. -/
def ExpiresUnrefreshed (p : Platform) (s : Globals) : Prop :=
  ∀ rt ∈ s.tables.entries, Ages s.supplier rt → ∀ es u,
    Steps (Unrefreshed p rt.id) (step p) s es → run (step p) s es = some u →
      EXPIRE_TIME ≤ TIMER_RATE * tickCount es → Unreachable p s rt.id es u

theorem walksOnce (env : Env) (supplier : Int) (t : Tables) : WalksOnce env supplier t :=
  ⟨ageTables_ticked env supplier t, exists_represents t,
    fun _ hm _ hpasses => ageMemory_represents hm hpasses⟩

theorem Steady.sendsFull (h : Steady s) : SendsFull p s := by
  intro now reqs hsupplier
  obtain ⟨w, hticks⟩ := Globals.timer_ticks p now reqs s
  obtain ⟨now', hquiet⟩ := hticks.before
  obtain ⟨sent, hsent, hcovers⟩ := hticks.full hsupplier (h.ticks hticks).faketime
  exact ⟨sent, hsent.trans (congrArg (· ++ sent) hquiet.packets), hcovers⟩

theorem Steady.expires (h : Steady s) : ExpiresUnrefreshed p s := by
  intro rt hrt hages es u hok hrun hlong
  have hstart : Tracked rt.id 0 s := by
    refine ⟨s.tables.wellFormed.fresh rt hrt, fun e he hid => ?_⟩
    obtain rfl := entry_eq he hrt hid
    exact ⟨hages, (h.timed e he).low⟩
  have htracked := tracked_run hstart hok hrun
  have hu : Steady u := run_invariant (I := Steady) (fun _ _ _ hs hstep => step_steady hs hstep)
    h hrun
  have hmetric : ∀ e ∈ u.tables.entries, e.id = rt.id → HOPCNT_INFINITY ≤ e.metric := by
    intro e he hid
    have htimer := (htracked.aged e he hid).2
    rw [Nat.zero_add] at htimer
    exact (hu.timed e he).expired (hlong.trans htimer)
  refine ⟨hmetric, fun e dst hfind hid => ?_, fun fs ev w hes hfs packet hpacket n hn => ?_⟩
  · have hinfinite := hmetric e (rtlookup_mem hfind).1 hid
    rw [answerMetric, hfind]
    dsimp only
    rw [if_neg (by omega)]
  · rw [hes, run_snoc_eq_some] at hrun
    obtain ⟨w', hw', hstep⟩ := hrun
    obtain rfl := Option.some.inj (hfs.symm.trans hw')
    cases hstep
    obtain ⟨sent, hsent, hroutes⟩ := apply_sends p ev w
    rw [hsent, List.drop_left] at hpacket
    obtain ⟨e, he, rfl⟩ := hroutes packet hpacket n hn
    exact ⟨e, he, rfl, hmetric e he⟩

/-- **Every route ages once in a tick**: the loops of the timer walk the chains to their end while
they delete from them, and do to every route what one tick is to do. In every state that is reached
a supplier sends the full update in the same tick, an internal route is passive, a passive one does
not age and is never near to its expiry, and a route that ages and is not refreshed for
`EXPIRE_TIME` is not finite afterwards. -/
theorem aging (p : Platform) (supplier : Int) (now : Timeval) (reqs : List Ifreq)
    (gateways : List Gateway) (gateway : Bool) (es : List Event) (s : Globals)
    (hrun : run (step p) (Globals.startup p supplier now reqs gateways gateway) es = some s) :
    (∀ env supplier t, WalksOnce env supplier t) ∧ SendsFull p s ∧
      (∀ rt ∈ s.tables.entries, (rt.state.internal = true → rt.state.passive = true) ∧
        (rt.state.passive = true → (∀ supplier, timerAfter supplier rt = rt.timer) ∧
          rt.timer ≤ GARBAGE_TIME - EXPIRE_TIME)) ∧
      ExpiresUnrefreshed p s := by
  have hs : Steady s := run_invariant (I := Steady) (fun _ _ _ hs hstep => step_steady hs hstep)
    (startup_steady p supplier now reqs gateways gateway) hrun
  refine ⟨walksOnce, hs.sendsFull, fun rt hrt => ⟨(hs.timed rt hrt).internal, ?_⟩, hs.expires⟩
  intro hpassive
  exact ⟨fun _ => timerAfter_passive hpassive, (hs.timed rt hrt).passive hpassive⟩

/-! ## A silent router -/

def onNetwork (supplier : Int) : Globals :=
  Globals.startup linux supplier ⟨1000, 0⟩ [ether 0x0a000001 0xff000000 0x0affffff] [] false

def quietTick (sec : Int) : Event := .tick ⟨sec, 0⟩ []

/-- A router tells of a network, and is not heard any more. After six ticks the route is not
finite. -/
theorem aging_silent :
    ∃ s, run (step linux) (onNetwork 1) [tells ⟨1001, 0⟩ 0x0a000002 0xc0a80100] = some s ∧
      ∃ rt ∈ s.tables.entries, rt.dst = sockaddrIn 0xc0a80100 ∧ rt.metric = 2 ∧
        ∃ u, run (step linux) s ([1030, 1060, 1090, 1120, 1150, 1180].map quietTick) = some u ∧
          Unreachable linux s rt.id ([1030, 1060, 1090, 1120, 1150, 1180].map quietTick) u := by
  have haging := aging linux 1 ⟨1000, 0⟩ [ether 0x0a000001 0xff000000 0x0affffff] [] false
    [tells ⟨1001, 0⟩ 0x0a000002 0xc0a80100] _ (run_step _ _ _)
  obtain ⟨rt, hrt, hdst, hmetric, hages, hok⟩ :
      ∃ rt ∈ ((onNetwork 1).ripInput linux ⟨1001, 0⟩ 0
          ⟨{ sockaddrIn 0x0a000002 with port := 520 }, 1, [⟨sockaddrIn 0xc0a80100, 1⟩]⟩
            ).tables.entries,
        rt.dst = sockaddrIn 0xc0a80100 ∧ rt.metric = 2 ∧ Ages 1 rt ∧
          Steps (Unrefreshed linux rt.id) (step linux)
            ((onNetwork 1).ripInput linux ⟨1001, 0⟩ 0
              ⟨{ sockaddrIn 0x0a000002 with port := 520 }, 1, [⟨sockaddrIn 0xc0a80100, 1⟩]⟩)
            ([1030, 1060, 1090, 1120, 1150, 1180].map quietTick) := by
    decide +kernel
  refine ⟨_, run_step _ _ _, rt, hrt, hdst, hmetric, _, run_step _ _ _, ?_⟩
  exact haging.2.2.2 rt hrt hages _ _ hok (run_step _ _ _) (by decide)

/-- Without being a supplier we do not age the route of an interface, though it is not passive. -/
theorem interface_not_aged :
    ¬ ∀ (env : Env) (supplier : Int) (t : Tables), ∀ rt ∈ t.entries, rt.state.passive = false →
      ∀ e ∈ (ageTables env supplier t).entries, e.id = rt.id → e.timer = rt.timer + TIMER_RATE := by
  intro h
  have hall := h ((onNetwork 0).env linux none) 0 (onNetwork 0).tables
  revert hall
  decide +kernel

end Netkit.Routed

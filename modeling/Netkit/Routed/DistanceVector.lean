import Netkit.Routed.Input

/-!
# What a response does to the routes

The entries of a response from the router `src` are processed one after the other. What one entry
does is said here without reference to `rtadd` and `rtchange`: which route it concerns, when that
route is replaced, and when a route is added.

* `distance_vector`: so a whole response is processed by it, and the metrics stay in their bounds.
-/

namespace Netkit.Routed

open Netkit.Foundations

/-- The values of an `int`. -/
def IsInt (m : Int) : Prop := -0x80000000 ≤ m ∧ m < 0x80000000

def MetricsOk (t : Tables) : Prop := ∀ e ∈ t.entries, 1 ≤ e.metric ∧ e.metric ≤ HOPCNT_INFINITY

/-- The metric of an entry over an interface of the cost `c`. -/
def offered (c m : Int) : Int := min (m + c) HOPCNT_INFINITY

/-- An entry that is not ignored. -/
structure Acceptable (n : Netinfo) : Prop where
  family : n.dst.family = AF_INET
  host : inetCheckhost n.dst = true
  low : 1 ≤ n.metric
  high : n.metric ≤ HOPCNT_INFINITY

/-- The offer `m` of another gateway is better, or as good while the route is getting stale. -/
def Preferred (rt : RtEntry) (m : Int) : Prop :=
  m < rt.metric ∨ m = rt.metric ∧ m < HOPCNT_INFINITY ∧ rt.timer > EXPIRE_TIME / 2

/-- The route `rt` becomes `rt'`, and all others stay what and where they are. -/
structure Replaced (t u : Tables) (rt rt' : RtEntry) : Prop where
  dst : rt'.dst = rt.dst
  entries : u.entries = t.entries.map (fun e => if e.id = rt.id then rt' else e)

/-- A route to `dst` through `src` comes in, and all others stay. -/
def Added (t u : Tables) (dst src : Sockaddr) (m : Int) : Prop :=
  ∃ rt, rt.dst = dst ∧ rt.router = src ∧ rt.metric = m ∧ rt.id = t.next ∧
    ∀ e, e ∈ u.entries ↔ e = rt ∨ e ∈ t.entries

/-- What an entry from the router `src` does to the tables. A route that is internal and for an
interface does not count as one to its destination. -/
structure Law (env : Env) (c : Int) (src : Sockaddr) (n : Netinfo) (t u : Tables) : Prop where
  ignored : ¬ Acceptable n → u = t
  /-- From the gateway of the route. -/
  gateway : Acceptable n → ∀ rt, rtlookup env.ifnet t n.dst = some rt →
    ¬ (rt.state.internal = true ∧ rt.state.interface = true) → rt.router = src →
      ∃ rt', Replaced t u rt rt' ∧ rt'.metric = offered c n.metric ∧ rt'.router = src
  /-- Its gateway says again that the destination is out of reach. -/
  unreachable : Acceptable n → ∀ rt, rtlookup env.ifnet t n.dst = some rt →
    ¬ (rt.state.internal = true ∧ rt.state.interface = true) → rt.router = src →
      offered c n.metric = HOPCNT_INFINITY → rt.metric = HOPCNT_INFINITY → u = t
  /-- From another gateway. -/
  preferred : Acceptable n → ∀ rt, rtlookup env.ifnet t n.dst = some rt →
    ¬ (rt.state.internal = true ∧ rt.state.interface = true) → rt.router ≠ src →
      Preferred rt (offered c n.metric) →
        ∃ rt', Replaced t u rt rt' ∧ rt'.metric = offered c n.metric ∧ rt'.timer = 0 ∧
          rt'.router = if rt.state.internal then rt.router else src
  rejected : Acceptable n → ∀ rt, rtlookup env.ifnet t n.dst = some rt →
    ¬ (rt.state.internal = true ∧ rt.state.interface = true) → rt.router ≠ src →
      ¬ Preferred rt (offered c n.metric) → u = t
  /-- A destination without a route. The kernel may answer that it cannot be reached. -/
  learned : Acceptable n → rtlookup env.ifnet t n.dst = none →
    offered c n.metric < HOPCNT_INFINITY →
    (∀ rt, rtfind env.ifnet t n.dst = some rt → rt.router ≠ src) →
      Added t u n.dst src (offered c n.metric) ∨
        u.entries = t.entries ∧ env.kernel u.ioctls = some .ENETUNREACH
  covered : Acceptable n → rtlookup env.ifnet t n.dst = none →
    ¬ (offered c n.metric < HOPCNT_INFINITY ∧
      ∀ rt, rtfind env.ifnet t n.dst = some rt → rt.router ≠ src) → u = t
  /-- A destination with a route that does not count. -/
  internal : Acceptable n → ∀ rt, rtlookup env.ifnet t n.dst = some rt →
    rt.state.internal = true ∧ rt.state.interface = true →
      u.entries = t.entries ∨
        offered c n.metric < HOPCNT_INFINITY ∧ Added t u n.dst src (offered c n.metric)

/-- The entries, one after the other. -/
inductive Processed (env : Env) (c : Int) (src : Sockaddr) :
    List Netinfo → Tables → Tables → Prop where
  | nil (t : Tables) : Processed env c src [] t t
  | cons {n nets t u v} (hn : Law env c src n t u) (h : Processed env c src nets u v) :
      Processed env c src (n :: nets) t v

/-! ## Metrics -/

variable {env : Env} {ifp : Interface} {src : Sockaddr} {n : Netinfo} {nets : List Netinfo}
  {t u : Tables} {c m : Int} {changes : ℕ} {rt : RtEntry}

theorem offered_bounds (hc : 1 ≤ c) (hm : 1 ≤ m) : 1 ≤ offered c m ∧ offered c m ≤ 16 := by
  have h16 : HOPCNT_INFINITY = 16 := rfl
  rw [offered, h16]
  omega

theorem unsigned_eq (hlow : 0 ≤ m) (hhigh : m < 0x100000000) : unsigned m = m :=
  Int.emod_eq_of_lt hlow hhigh

theorem toShort_eq (hlow : 0 ≤ m) (hhigh : m ≤ 16) : toShort m = m := by
  rw [toShort, Int.emod_eq_of_lt (by omega) (by omega)]
  omega

theorem adjustMetric_eq (hc : 1 ≤ ifp.metric ∧ ifp.metric ≤ 15) (hm : 1 ≤ m ∧ m ≤ 16) :
    adjustMetric ifp m = offered ifp.metric m := by
  have h16 : HOPCNT_INFINITY = 16 := rfl
  have hunsigned : unsigned m = m := unsigned_eq (by omega) (by omega)
  rw [adjustMetric, offered, h16, hunsigned]
  by_cases hlt : m < 16
  · have hsum : unsigned (m + ifp.metric) = m + ifp.metric := unsigned_eq (by omega) (by omega)
    rw [if_pos hlt, hsum]
    split
    · omega
    · omega
  · rw [if_neg hlt, hunsigned, if_neg (by omega)]
    omega

theorem unsigned_le_iff (hm : IsInt m) : unsigned m ≤ 16 ↔ 0 ≤ m ∧ m ≤ 16 := by
  obtain ⟨hlow, hhigh⟩ := hm
  rw [unsigned]
  omega

theorem isSound_iff (hn : IsInt n.metric) : isSound n = true ↔ Acceptable n := by
  have h16 : HOPCNT_INFINITY = 16 := rfl
  have hunsigned := unsigned_le_iff hn
  simp only [isSound, Bool.and_eq_true, beq_iff_eq, bne_iff_ne, decide_eq_true_eq]
  rw [h16, hunsigned]
  constructor
  · rintro ⟨⟨⟨hfamily, hhost⟩, hzero⟩, hnonneg, hle⟩
    exact ⟨hfamily, hhost, by omega, hle⟩
  · rintro ⟨hfamily, hhost, hone, hle⟩
    exact ⟨⟨⟨hfamily, hhost⟩, by omega⟩, by omega, hle⟩

theorem takesOver_iff (hm : 1 ≤ m ∧ m ≤ 16) (hrt : 1 ≤ rt.metric ∧ rt.metric ≤ 16) :
    takesOver m rt = true ↔ Preferred rt m := by
  have h16 : HOPCNT_INFINITY = 16 := rfl
  rw [takesOver, Preferred, unsigned_eq (by omega) (by omega), unsigned_eq (by omega) (by omega)]
  simp only [Bool.or_eq_true, Bool.and_eq_true, decide_eq_true_eq, beq_iff_eq]
  constructor
  · rintro (h | ⟨⟨heq, htimer⟩, hlt⟩)
    · exact Or.inl h
    · exact Or.inr ⟨heq.symm, hlt, htimer⟩
  · rintro (h | ⟨heq, hlt, htimer⟩)
    · exact Or.inl h
    · exact Or.inr ⟨⟨heq.symm, htimer⟩, hlt⟩

/-! ## One entry -/

theorem entries_setTimer (timer : RtEntry → Int) :
    (setTimer rt timer t).entries =
      t.entries.map (fun e => if e.id = rt.id then { e with timer := timer e } else e) :=
  entries_modify _ _

theorem replaced_rtchange (hrt : rt ∈ t.entries) (gate : Sockaddr) (metric : Int)
    (timer : RtEntry → Int) :
    Replaced t (setTimer rt timer (rtchange env rt gate metric t)) rt
      { changeEntry env gate metric rt with timer := timer (changeEntry env gate metric rt) } := by
  refine ⟨rfl, ?_⟩
  rw [entries_setTimer, entries_rtchange, List.map_map]
  apply List.map_congr_left
  intro e he
  by_cases hid : e.id = rt.id
  · obtain rfl := entry_eq he hrt hid
    have hid' : (changeEntry env gate metric e).id = e.id := rfl
    simp only [Function.comp_apply, if_true, hid']
  · simp only [Function.comp_apply, if_neg hid]

theorem replaced_setTimer (hrt : rt ∈ t.entries) (timer : RtEntry → Int) :
    Replaced t (setTimer rt timer t) rt { rt with timer := timer rt } := by
  refine ⟨rfl, ?_⟩
  rw [entries_setTimer]
  apply List.map_congr_left
  intro e he
  by_cases hid : e.id = rt.id
  · obtain rfl := entry_eq he hrt hid
    simp only [if_true]
  · simp only [if_neg hid]

theorem replaced_self (hrt : rt ∈ t.entries) : Replaced t t rt rt := by
  refine ⟨rfl, ?_⟩
  refine (List.map_id _).symm.trans (List.map_congr_left ?_)
  intro e he
  by_cases hid : e.id = rt.id
  · rw [if_pos hid]
    exact entry_eq he hrt hid
  · rw [if_neg hid]
    rfl

/-- `rtadd` for a route that the kernel is to have. -/
theorem added_rtadd {dst : Sockaddr} (hfamily : dst.family = AF_INET) (gate : Sockaddr)
    (metric : Int) :
    Added t (rtadd env dst gate metric {} t) dst gate metric ∨
      (rtadd env dst gate metric {} t).entries = t.entries ∧
        env.kernel (rtadd env dst gate metric {} t).ioctls = some .ENETUNREACH := by
  rw [rtadd, if_pos hfamily]
  dsimp only
  have hreal : ¬ (false || false) = true := Bool.false_ne_true
  rw [if_neg hreal]
  by_cases hkernel : env.kernel (t.ioctls ++
      [rtioctl env .add (newEntry env t.next dst gate metric {})]) = some .ENETUNREACH
  · rw [if_pos hkernel]
    exact Or.inr ⟨rfl, hkernel⟩
  · rw [if_neg hkernel]
    exact Or.inl ⟨newEntry env t.next dst gate metric {}, rfl, rfl, rfl, rfl,
      fun _ => mem_insque rfl⟩

theorem learnRoute_covered {dst : Sockaddr} (hm : 1 ≤ m ∧ m ≤ 16)
    (h : ¬ (m < HOPCNT_INFINITY ∧
      ∀ rt, rtfind env.ifnet t dst = some rt → rt.router ≠ src)) :
    learnRoute env src dst m (t, changes) = (t, changes) := by
  rw [learnRoute, unsigned_eq (by omega) (by omega)]
  by_cases hlt : m < HOPCNT_INFINITY
  · rw [if_pos hlt]
    cases hfind : rtfind env.ifnet t dst with
    | none =>
      refine absurd ⟨hlt, fun rt hrt => ?_⟩ h
      rw [hfind] at hrt
      cases hrt
    | some rt =>
      by_cases hsrc : src = rt.router
      · exact if_pos hsrc
      · refine absurd ⟨hlt, fun rt' hrt => ?_⟩ h
        rw [hfind] at hrt
        cases hrt
        exact Ne.symm hsrc
  · rw [if_neg hlt]

theorem learnRoute_learned {dst : Sockaddr} (hm : 1 ≤ m ∧ m ≤ 16) (hlt : m < HOPCNT_INFINITY)
    (h : ∀ rt, rtfind env.ifnet t dst = some rt → rt.router ≠ src) :
    learnRoute env src dst m (t, changes) = (rtadd env dst src m {} t, changes + 1) := by
  rw [learnRoute, unsigned_eq (by omega) (by omega), if_pos hlt]
  cases hfind : rtfind env.ifnet t dst with
  | none => rfl
  | some rt => exact if_neg (Ne.symm (h rt hfind))

theorem changeEntry_router (hm : 1 ≤ m ∧ m ≤ 16) (hsrc : rt.router ≠ src) :
    (changeEntry env src m rt).metric = m ∧
      (changeEntry env src m rt).router = if rt.state.internal then rt.router else src := by
  have hshort := toShort_eq (by omega) hm.2
  refine ⟨hshort, ?_⟩
  have hne : (rt.router != src) = true := bne_iff_ne.mpr hsrc
  rw [changeEntry]
  dsimp only
  rw [changeAdds, hne, Bool.true_or, Bool.and_true]
  cases rt.state.internal with
  | true => rfl
  | false => rfl

theorem changeEntry_same (hm : 1 ≤ m ∧ m ≤ 16) (hsrc : rt.router = src) :
    (changeEntry env src m rt).metric = m ∧ (changeEntry env src m rt).router = src := by
  refine ⟨toShort_eq (by omega) hm.2, ?_⟩
  rw [changeEntry]
  dsimp only
  split
  · rfl
  · exact hsrc

theorem updateRoute_gateway (hm : 1 ≤ m ∧ m ≤ 16) (hrt : rt ∈ t.entries) (hsrc : rt.router = src) :
    ∃ rt', Replaced t (updateRoute env src m rt (t, changes)).1 rt rt' ∧ rt'.metric = m ∧
      rt'.router = src := by
  rw [updateRoute, if_pos hsrc.symm]
  by_cases hmetric : m = rt.metric
  · rw [if_neg (not_not_intro hmetric)]
    split
    · exact ⟨_, replaced_setTimer hrt _, hmetric.symm, hsrc⟩
    · exact ⟨rt, replaced_self hrt, hmetric.symm, hsrc⟩
  · rw [if_pos hmetric]
    obtain ⟨hnew, hrouter⟩ := @changeEntry_same env src m rt hm hsrc
    exact ⟨_, replaced_rtchange hrt src m freshTimer, hnew, hrouter⟩

theorem updateRoute_preferred (hm : 1 ≤ m ∧ m ≤ 16) (hmetric : 1 ≤ rt.metric ∧ rt.metric ≤ 16)
    (hrt : rt ∈ t.entries) (hsrc : rt.router ≠ src) (h : Preferred rt m) :
    ∃ rt', Replaced t (updateRoute env src m rt (t, changes)).1 rt rt' ∧ rt'.metric = m ∧
      rt'.timer = 0 ∧ rt'.router = if rt.state.internal then rt.router else src := by
  rw [updateRoute, if_neg (Ne.symm hsrc), if_pos ((takesOver_iff hm hmetric).mpr h)]
  obtain ⟨hnew, hrouter⟩ := @changeEntry_router env src m rt hm hsrc
  exact ⟨_, replaced_rtchange hrt src m (fun _ => 0), hnew, rfl, hrouter⟩

theorem updateRoute_rejected (hm : 1 ≤ m ∧ m ≤ 16) (hmetric : 1 ≤ rt.metric ∧ rt.metric ≤ 16)
    (hsrc : rt.router ≠ src) (h : ¬ Preferred rt m) :
    updateRoute env src m rt (t, changes) = (t, changes) := by
  rw [updateRoute, if_neg (Ne.symm hsrc), if_neg (fun ht => h ((takesOver_iff hm hmetric).mp ht))]

theorem learnRoute_cases {dst : Sockaddr} (hfamily : dst.family = AF_INET)
    (hm : 1 ≤ m ∧ m ≤ 16) :
    (learnRoute env src dst m (t, changes)).1.entries = t.entries ∨
      m < HOPCNT_INFINITY ∧ Added t (learnRoute env src dst m (t, changes)).1 dst src m := by
  by_cases h : m < HOPCNT_INFINITY ∧ ∀ rt, rtfind env.ifnet t dst = some rt → rt.router ≠ src
  · rw [learnRoute_learned hm h.1 h.2]
    rcases @added_rtadd env t dst hfamily src m with hadded | ⟨hentries, -⟩
    · exact Or.inr ⟨h.1, hadded⟩
    · exact Or.inl hentries
  · rw [learnRoute_covered hm h]
    exact Or.inl rfl

theorem ripNetinfo_law (hc : 1 ≤ ifp.metric ∧ ifp.metric ≤ 15) (ht : MetricsOk t)
    (hn : IsInt n.metric) :
    Law env ifp.metric src n t (ripNetinfo env ifp src (t, changes) n).1 := by
  have hsound := isSound_iff hn
  by_cases hacceptable : Acceptable n
  · have hm : 1 ≤ n.metric ∧ n.metric ≤ 16 := ⟨hacceptable.low, hacceptable.high⟩
    have hbounds := offered_bounds hc.1 hm.1
    rw [ripNetinfo, if_pos (hsound.mpr hacceptable), adjustMetric_eq hc hm]
    show Law env ifp.metric src n t
      (ripEntry env src n.dst (offered ifp.metric n.metric) (t, changes)).1
    rw [ripEntry]
    cases hlookup : rtlookup env.ifnet t n.dst with
    | none =>
      dsimp only
      have hno : ∀ {P : RtEntry → Prop} (rt : RtEntry),
          rtlookup env.ifnet t n.dst = some rt → P rt := by
        intro P rt hrt
        rw [hlookup] at hrt
        cases hrt
      refine ⟨fun h => absurd hacceptable h, fun _ => hno, fun _ => hno, fun _ => hno, fun _ => hno,
        fun _ _ hlt hother => ?_, fun _ _ h => ?_, fun _ => hno⟩
      · rw [learnRoute_learned hbounds hlt hother]
        exact added_rtadd hacceptable.family src _
      · rw [learnRoute_covered hbounds h]
    | some rt =>
      dsimp only
      have hmem := (rtlookup_mem hlookup).1
      have honly : ∀ rt', rtlookup env.ifnet t n.dst = some rt' → rt' = rt := by
        intro rt' hrt'
        rw [hlookup] at hrt'
        exact (Option.some.inj hrt').symm
      have hsome : rtlookup env.ifnet t n.dst ≠ none := by
        rw [hlookup]
        exact Option.some_ne_none rt
      by_cases hinternal : rt.state.internal = true ∧ rt.state.interface = true
      · have hskip : (rt.state.internal && rt.state.interface) = true := by
          rw [hinternal.1, hinternal.2]
          rfl
        rw [if_pos hskip]
        refine ⟨fun h => absurd hacceptable h,
          fun _ rt' h hno => absurd (honly rt' h ▸ hinternal) hno,
          fun _ rt' h hno => absurd (honly rt' h ▸ hinternal) hno,
          fun _ rt' h hno => absurd (honly rt' h ▸ hinternal) hno,
          fun _ rt' h hno => absurd (honly rt' h ▸ hinternal) hno,
          fun _ h => absurd h hsome, fun _ h => absurd h hsome, fun _ rt' _ _ => ?_⟩
        split
        · exact Or.inl rfl
        · exact learnRoute_cases hacceptable.family hbounds
      · have hcounts : ¬ (rt.state.internal && rt.state.interface) = true := by
          rw [Bool.and_eq_true]
          exact hinternal
        rw [if_neg hcounts]
        refine ⟨fun h => absurd hacceptable h, ?_, ?_, ?_, ?_, fun _ h => absurd h hsome,
          fun _ h => absurd h hsome, fun _ rt' h hyes => absurd (honly rt' h ▸ hyes) hinternal⟩
        · intro _ rt' h _ hsrc
          obtain rfl := honly rt' h
          exact updateRoute_gateway hbounds hmem hsrc
        · intro _ rt' h _ hsrc hoffered hmetric
          obtain rfl := honly rt' h
          have hinfinite : ¬ rt'.metric < HOPCNT_INFINITY := by
            rw [hmetric]
            exact lt_irrefl _
          rw [updateRoute, if_pos hsrc.symm, if_neg (not_not_intro (hoffered.trans hmetric.symm)),
            if_neg hinfinite]
        · intro _ rt' h _ hsrc hpreferred
          obtain rfl := honly rt' h
          exact updateRoute_preferred hbounds (ht rt' hmem) hmem hsrc hpreferred
        · intro _ rt' h _ hsrc hnot
          obtain rfl := honly rt' h
          rw [updateRoute_rejected hbounds (ht rt' hmem) hsrc hnot]
  · rw [ripNetinfo, if_neg (fun h => hacceptable (hsound.mp h))]
    exact ⟨fun _ => rfl, fun h => absurd h hacceptable, fun h => absurd h hacceptable,
      fun h => absurd h hacceptable, fun h => absurd h hacceptable,
      fun h => absurd h hacceptable, fun h => absurd h hacceptable,
      fun h => absurd h hacceptable⟩

/-! ## A whole response -/

theorem Replaced.metricsOk {rt' : RtEntry} (h : Replaced t u rt rt') (ht : MetricsOk t)
    (hnew : 1 ≤ rt'.metric ∧ rt'.metric ≤ 16) : MetricsOk u := by
  intro e he
  rw [h.entries] at he
  obtain ⟨x, hx, rfl⟩ := List.mem_map.mp he
  split
  · exact hnew
  · exact ht x hx

theorem Added.metricsOk {dst : Sockaddr} (h : Added t u dst src m) (ht : MetricsOk t)
    (hm : 1 ≤ m ∧ m ≤ 16) : MetricsOk u := by
  obtain ⟨rt, -, -, hmetric, -, hentries⟩ := h
  intro e he
  rcases (hentries e).mp he with rfl | he
  · rw [hmetric]
    exact hm
  · exact ht e he

theorem metricsOk_of_entries (h : u.entries = t.entries) (ht : MetricsOk t) : MetricsOk u := by
  rw [MetricsOk, h]
  exact ht

theorem Law.metricsOk (h : Law env c src n t u) (hc : 1 ≤ c) (ht : MetricsOk t) :
    MetricsOk u := by
  by_cases hacceptable : Acceptable n
  · have hm := offered_bounds hc hacceptable.low
    cases hlookup : rtlookup env.ifnet t n.dst with
    | none =>
      by_cases hlearn : offered c n.metric < HOPCNT_INFINITY ∧
          ∀ rt, rtfind env.ifnet t n.dst = some rt → rt.router ≠ src
      · rcases h.learned hacceptable hlookup hlearn.1 hlearn.2 with hadded | ⟨hentries, -⟩
        · exact hadded.metricsOk ht hm
        · exact metricsOk_of_entries hentries ht
      · rw [h.covered hacceptable hlookup hlearn]
        exact ht
    | some rt =>
      by_cases hinternal : rt.state.internal = true ∧ rt.state.interface = true
      · rcases h.internal hacceptable rt hlookup hinternal with hentries | ⟨-, hadded⟩
        · exact metricsOk_of_entries hentries ht
        · exact hadded.metricsOk ht hm
      · by_cases hsrc : rt.router = src
        · obtain ⟨rt', hreplaced, hmetric, -⟩ :=
            h.gateway hacceptable rt hlookup hinternal hsrc
          exact hreplaced.metricsOk ht (hmetric ▸ hm)
        · by_cases hpreferred : Preferred rt (offered c n.metric)
          · obtain ⟨rt', hreplaced, hmetric, -⟩ :=
              h.preferred hacceptable rt hlookup hinternal hsrc hpreferred
            exact hreplaced.metricsOk ht (hmetric ▸ hm)
          · rw [h.rejected hacceptable rt hlookup hinternal hsrc hpreferred]
            exact ht
  · rw [h.ignored hacceptable]
    exact ht

theorem foldl_ripNetinfo_law (hc : 1 ≤ ifp.metric ∧ ifp.metric ≤ 15) (ht : MetricsOk t)
    (hnets : ∀ n ∈ nets, IsInt n.metric) :
    Processed env ifp.metric src nets t
        (nets.foldl (ripNetinfo env ifp src) (t, changes)).1 ∧
      MetricsOk (nets.foldl (ripNetinfo env ifp src) (t, changes)).1 := by
  induction nets generalizing t changes with
  | nil => exact ⟨.nil t, ht⟩
  | cons n nets ih =>
    have hlaw := @ripNetinfo_law env ifp src n t changes hc ht (hnets n List.mem_cons_self)
    rw [List.foldl_cons]
    generalize ripNetinfo env ifp src (t, changes) n = st at hlaw
    obtain ⟨u, changes'⟩ := st
    obtain ⟨hrest, hmetrics⟩ := @ih u changes' (hlaw.metricsOk hc.1 ht)
      fun n' hn' => hnets n' (List.mem_cons_of_mem _ hn')
    exact ⟨.cons hlaw hrest, hmetrics⟩

/-- A response is processed by the law, entry for entry, and the metrics stay in their bounds. -/
theorem distance_vector (hc : 1 ≤ ifp.metric ∧ ifp.metric ≤ 15) (ht : MetricsOk t)
    (hnets : ∀ n ∈ nets, IsInt n.metric) :
    Processed env ifp.metric src nets t (ripNets env ifp src nets t).1 ∧
      MetricsOk (ripNets env ifp src nets t).1 :=
  foldl_ripNetinfo_law hc ht hnets

/-- An interface on the network 192.168.1.0, without the requests to the kernel failing. -/
def lan : Interface where
  id := 0
  addr := sockaddrIn 0xc0a80101
  intu := sockaddrIn 0xc0a801ff
  metric := 1
  flags := { broadcast := true, interface := true }
  net := 0xc0a80100
  netmask := 0xffffff00
  subnet := 0xc0a80100
  subnetmask := 0xffffff00

def lanEnv : Env := ⟨0x020000, fun _ => none, [lan], false, inetDefault, some 0⟩

def lanTables : Tables := rtadd lanEnv (sockaddrIn 0x0a000000) (sockaddrIn 0xc0a80103) 5 {} rtinit

/-- That route is taken over by 192.168.1.2, which has a route to 11.0.0.0 too. -/
theorem distance_vector_lan :
    Processed lanEnv 1 (sockaddrIn 0xc0a80102)
        [⟨sockaddrIn 0x0a000000, 2⟩, ⟨sockaddrIn 0x0b000000, 3⟩]
        lanTables
        (ripNets lanEnv lan (sockaddrIn 0xc0a80102)
          [⟨sockaddrIn 0x0a000000, 2⟩, ⟨sockaddrIn 0x0b000000, 3⟩] lanTables).1 ∧
      MetricsOk (ripNets lanEnv lan (sockaddrIn 0xc0a80102)
        [⟨sockaddrIn 0x0a000000, 2⟩, ⟨sockaddrIn 0x0b000000, 3⟩] lanTables).1 := by
  have hcost : 1 ≤ lan.metric ∧ lan.metric ≤ 15 := by decide
  have hentries : MetricsOk lanTables := by
    unfold MetricsOk
    decide +kernel
  refine @distance_vector lanEnv lan _ _ _ hcost hentries ?_
  intro n hn
  rcases List.mem_pair.mp hn with rfl | rfl
  · exact ⟨by decide, by decide⟩
  · exact ⟨by decide, by decide⟩

/-- An internal route keeps its gateway when it is replaced, and a route can be added although
there is one through the same gateway that covers it, behind another in its chain. -/
theorem distance_vector_exceptions :
    (¬ ∀ (env : Env) (ifp : Interface) (src : Sockaddr) (n : Netinfo) (t : Tables) (rt : RtEntry),
      1 ≤ ifp.metric ∧ ifp.metric ≤ 15 → MetricsOk t → Acceptable n →
      rtlookup env.ifnet t n.dst = some rt →
      ¬ (rt.state.internal = true ∧ rt.state.interface = true) → rt.router ≠ src →
      Preferred rt (offered ifp.metric n.metric) →
        ∃ rt' ∈ (ripNets env ifp src [n] t).1.entries, rt'.dst = n.dst ∧
          rt'.metric = offered ifp.metric n.metric ∧ rt'.router = src) ∧
    ¬ ∀ (env : Env) (ifp : Interface) (src : Sockaddr) (n : Netinfo) (t : Tables) (rt : RtEntry),
      1 ≤ ifp.metric ∧ ifp.metric ≤ 15 → MetricsOk t → Acceptable n →
      rtlookup env.ifnet t n.dst = none → rt ∈ t.entries → rt.host = false →
      inetNetmatch env.ifnet rt.dst n.dst = true → rt.router = src →
        (ripNets env ifp src [n] t).1.entries = t.entries := by
  have hcost : 1 ≤ lan.metric ∧ lan.metric ≤ 15 := by decide
  constructor
  · intro h
    have hreplaced := h lanEnv lan (sockaddrIn 0xc0a80102) ⟨sockaddrIn 0x0a000000, 1⟩
      (rtadd lanEnv (sockaddrIn 0x0a000000) (sockaddrIn 0xc0a80103) 5 { internal := true } rtinit)
      (newEntry lanEnv 0 (sockaddrIn 0x0a000000) (sockaddrIn 0xc0a80103) 5 { internal := true })
      hcost (by unfold MetricsOk; decide +kernel) ⟨rfl, by decide, by decide, by decide⟩
      (by decide +kernel) (by decide) (by decide) (Or.inl (by decide))
    exact absurd hreplaced (by decide +kernel)
  · intro h
    have hcovered := h lanEnv lan (sockaddrIn 0xc0a80102) ⟨sockaddrIn 0x0a000005, 1⟩
      (rtadd lanEnv (sockaddrIn 0x0a000000) (sockaddrIn 0xc0a80103) 4 {}
        (rtadd lanEnv (sockaddrIn 0x0a000000) (sockaddrIn 0xc0a80102) 3 {} rtinit))
      (newEntry lanEnv 0 (sockaddrIn 0x0a000000) (sockaddrIn 0xc0a80102) 3 {})
      hcost (by unfold MetricsOk; decide +kernel) ⟨rfl, by decide, by decide, by decide⟩
      (by decide +kernel) (by decide +kernel) (by decide +kernel) (by decide +kernel) rfl
    exact absurd hcovered (by decide +kernel)

end Netkit.Routed

import Netkit.Routed.Main

/-!
# No triggered update is lost

A route that changes is to be sent on every interface that is not passive, with the exception of
the one through which the change was learned, before `needupdate` is cleared. The dynamic update
that `rip_input` sends at once skips the interface of the latest response only, and clears
`needupdate` for all changes that are pending. A change that had been held off and that was
learned elsewhere is then never sent on the skipped interface.

* `no_update_missed`: in a run of harmless events nothing is missed.
* `route_missed`: a route that is sent on no interface.
-/

namespace Netkit.Routed

open Netkit.Foundations

/-! ## Routes with pending changes -/

/-- A route with a pending change is marked, and it is not an external one. External routes do
not age, and no route is both external and internal. -/
structure Pending (rt : RtEntry) : Prop where
  marked : rt.told ≠ none → rt.changed = true ∧ rt.state.external = false
  inside : rt.state.internal = true → rt.state.external = false
  ageless : rt.state.external = true → rt.state.passive = true ∧ rt.timer < EXPIRE_TIME

theorem pending_kept (env : Env) : Kept env (fun state => state.external = false)
    (fun rt => rt.state.external = false) Pending where
  added := by
    intro id dst gate metric state hext
    refine ⟨fun _ => ⟨rfl, hext⟩, fun _ => hext, fun h => ?_⟩
    exact absurd (hext.symm.trans h) (by decide)
  changed := by
    intro rt gate metric hext h
    refine ⟨fun _ => ⟨rfl, hext⟩, fun _ => hext, fun h => ?_⟩
    exact absurd (hext.symm.trans h) (by decide)
  timed := by
    intro rt timer htimer h
    refine ⟨h.marked, h.inside, fun hext => ⟨(h.ageless hext).1, ?_⟩⟩
    have hlt : GARBAGE_TIME - EXPIRE_TIME < EXPIRE_TIME := by decide
    exact lt_of_le_of_lt htimer hlt

/-- Changes that are learned through the interface `i` leave nothing pending on it. -/
theorem settled_kept {env : Env} {i : ℕ} (hsource : env.source = some i) :
    Kept env (fun _ => True) (fun _ => True) (RtEntry.Settled i) where
  added := by
    intro id dst gate metric state _ told htold
    have htold' : toldAfter env.source none = some told := htold
    rw [hsource] at htold'
    cases htold'
    exact List.mem_singleton_self i
  changed := by
    intro rt gate metric _ h told htold
    have htold' : toldAfter env.source rt.told = some told := htold
    rw [hsource] at htold'
    cases hrt : rt.told with
    | none =>
      rw [hrt] at htold'
      cases htold'
      exact List.mem_singleton_self i
    | some old =>
      rw [hrt] at htold'
      cases htold'
      exact List.mem_filter.mpr ⟨h old hrt, by simp⟩
  timed := fun _ _ _ h => h

theorem okForIf_external : OkForIf (fun state => state.external = false) :=
  ⟨fun _ => rfl, fun _ _ => rfl⟩

theorem Pending.of_told_none {rt : RtEntry} (hinside : rt.state.internal = true →
    rt.state.external = false) (hageless : rt.state.external = true → rt.state.passive = true ∧
      rt.timer < EXPIRE_TIME) : Pending { rt with told := none } :=
  ⟨fun h => absurd rfl h, hinside, hageless⟩

/-! ## States -/

/-- A state of the loop: we act as supplier, the routes with pending changes are marked, no
loopback is a point-to-point link, and an interface that is not passive has someone to talk to.
Nothing has been missed. -/
structure Ready (s : Globals) : Prop where
  supplier : s.supplier ≠ 0
  faketime : s.faketime % SUPPLY_INTERVAL = 0
  routes : ∀ rt ∈ s.tables.entries, Pending rt
  loopbacks : ∀ ifp ∈ s.ifnet, ifp.flags.loopback = true →
    ifp.flags.passive = true ∧ ifp.flags.pointopoint = false
  peers : ∀ ifp ∈ s.listeners, ifp.hasPeer = true
  missed : s.missed = []

section States

variable {s u : Globals} {p : Platform}

/-- What an update and the assignments around it leave alone. -/
structure Ready.Frame (s u : Globals) : Prop where
  supplier : u.supplier = s.supplier
  faketime : u.faketime = s.faketime
  ifnet : u.ifnet = s.ifnet

theorem Ready.of_frame (h : Ready s) (hframe : Ready.Frame s u)
    (hroutes : ∀ rt ∈ u.tables.entries, Pending rt) (hmissed : u.missed = []) : Ready u where
  supplier := hframe.supplier ▸ h.supplier
  faketime := hframe.faketime ▸ h.faketime
  routes := hroutes
  loopbacks := hframe.ifnet ▸ h.loopbacks
  peers := by
    have := h.peers
    unfold Globals.listeners at this ⊢
    rw [hframe.ifnet]
    exact this
  missed := hmissed

/-- `needupdate` is cleared after an update that has settled everything. -/
theorem clear_missed (hmissed : s.missed = [])
    (h : ∀ ifp ∈ s.listeners, ∀ rt ∈ s.tables.entries, rt.Settled ifp.id) :
    s.clearNeedupdate.missed = [] := by
  have howed : s.owed = [] := Globals.owed_eq_nil
    (fun rt hrt told htold ifp hifp => h ifp hifp rt hrt told htold)
  simp [Globals.clearNeedupdate, hmissed, howed]

theorem mem_clear {e : RtEntry} (he : e ∈ s.clearNeedupdate.tables.entries) :
    ∃ rt ∈ s.tables.entries, e = { rt with told := none } := by
  simp only [Globals.clearNeedupdate, entries_map] at he
  obtain ⟨rt, hrt, rfl⟩ := List.mem_map.mp he
  exact ⟨rt, hrt, rfl⟩

/-- An update of all routes that have a change pending settles every interface, if the one that
is skipped was settled before. -/
theorem toall_all_settled {changedOnly : Bool} {skipif : Option ℕ}
    (hsend : ∀ rt ∈ s.tables.entries, rt.Sendable changedOnly)
    (hpeers : ∀ ifp ∈ s.listeners, ifp.hasPeer = true)
    (hskip : ∀ i, skipif = some i → ∀ rt ∈ s.tables.entries, rt.Settled i) :
    ∀ ifp ∈ s.listeners, ∀ rt ∈ (s.toall changedOnly skipif).tables.entries,
      rt.Settled ifp.id := by
  intro ifp hifp
  by_cases h : skipif = some ifp.id
  · exact (Globals.toall_sent changedOnly skipif s).settled (hskip ifp.id h)
  · exact Globals.toall_settled hsend hpeers ifp hifp h

theorem sendDynamic_ready {skipif : Option ℕ} (h : Ready s)
    (hskip : ∀ i, skipif = some i → ∀ rt ∈ s.tables.entries, rt.Settled i) :
    Ready (s.sendDynamic skipif) := by
  have hsent := Globals.toall_sent true skipif s
  obtain ⟨tables, packets, hrest⟩ := hsent.rest
  have hsend : ∀ rt ∈ s.tables.entries, rt.Sendable true := by
    intro rt hrt htold
    obtain ⟨hchanged, hext⟩ := (h.routes rt hrt).marked htold
    exact ⟨hext, fun _ => hchanged⟩
  have hsettled := toall_all_settled hsend h.peers hskip
  refine h.of_frame (u := s.sendDynamic skipif) ?_ ?_ ?_
  · unfold Globals.sendDynamic Globals.clearNeedupdate
    simp only [hrest]
    exact ⟨rfl, rfl, rfl⟩
  · intro e he
    obtain ⟨rt, hrt, rfl⟩ := mem_clear (s := { s.toall true skipif with
      lastbcast := (s.toall true skipif).now }) he
    obtain ⟨old, hold, told, rfl, -, -⟩ := hsent.entries rt hrt
    exact Pending.of_told_none (h.routes old hold).inside (h.routes old hold).ageless
  · refine clear_missed (s := { s.toall true skipif with
      lastbcast := (s.toall true skipif).now }) ?_ ?_
    · simp only [hrest]
      exact h.missed
    · intro ifp hifp rt hrt
      refine hsettled ifp ?_ rt hrt
      unfold Globals.listeners at hifp ⊢
      simp only [hrest] at hifp
      exact hifp

/-- After the loop of a tick the marks are gone; what is left holds for the full update. -/
structure Unmarked (rt : RtEntry) : Prop where
  pending : rt.told ≠ none → rt.state.external = false
  inside : rt.state.internal = true → rt.state.external = false
  ageless : rt.state.external = true → rt.state.passive = true ∧ rt.timer < EXPIRE_TIME

theorem sendFull_ready (h : Ready s) (hframe : Ready.Frame s u) (hu : u.missed = [])
    (hroutes : ∀ rt ∈ u.tables.entries, Unmarked rt) : Ready u.sendFull := by
  have hsent := Globals.toall_sent false none u
  obtain ⟨tables, packets, hrest⟩ := hsent.rest
  have hsend : ∀ rt ∈ u.tables.entries, rt.Sendable false := by
    intro rt hrt htold
    exact ⟨(hroutes rt hrt).pending htold, fun hf => absurd hf (by decide)⟩
  have hpeers : ∀ ifp ∈ u.listeners, ifp.hasPeer = true := by
    have := h.peers
    unfold Globals.listeners at this ⊢
    rw [hframe.ifnet]
    exact this
  have hsettled := @toall_all_settled u _ none hsend hpeers (fun i hi => absurd hi (by simp))
  refine h.of_frame (u := u.sendFull) ?_ ?_ ?_
  · unfold Globals.sendFull Globals.clearNeedupdate
    simp only [hrest]
    exact ⟨hframe.supplier, hframe.faketime, hframe.ifnet⟩
  · intro e he
    obtain ⟨rt, hrt, rfl⟩ := mem_clear (s := { u.toall false none with
      lastbcast := u.now, lastfullupdate := u.now }) he
    obtain ⟨old, hold, told, rfl, -, -⟩ := hsent.entries rt hrt
    exact Pending.of_told_none (hroutes old hold).inside (hroutes old hold).ageless
  · refine clear_missed (s := { u.toall false none with
      lastbcast := u.now, lastfullupdate := u.now }) ?_ ?_
    · simp only [hrest]
      exact hu
    · intro ifp hifp rt hrt
      refine hsettled ifp ?_ rt hrt
      unfold Globals.listeners at hifp ⊢
      simp only [hrest] at hifp
      exact hifp

theorem ageTables_unmarked {env : Env} {supplier : Int} {t : Tables}
    (h : ∀ rt ∈ t.entries, Pending rt) :
    ∀ rt ∈ (ageTables env supplier t).entries, Unmarked rt := by
  intro e he
  obtain ⟨rt, hrt, hage⟩ := mem_ageTables he
  have hrt' := h rt hrt
  have hadvanced : rt.state.external = true → advanced supplier rt = rt.timer := by
    intro hext
    simp [advanced, (hrt'.ageless hext).1]
  have haged : Pending { rt with timer := advanced supplier rt } := by
    refine ⟨hrt'.marked, hrt'.inside, fun hext => ⟨(hrt'.ageless hext).1, ?_⟩⟩
    have heq := hadvanced hext
    have hlt := (hrt'.ageless hext).2
    simp only [heq]
    exact hlt
  have hmay : advanced supplier rt ≥ EXPIRE_TIME → rt.state.external = false := by
    intro hexpired
    by_contra hext
    have hext' : rt.state.external = true := by simpa using hext
    have heq := hadvanced hext'
    have hlt := (hrt'.ageless hext').2
    omega
  obtain ⟨y, hy, rfl⟩ := ageEntry_kept (pending_kept env) haged hmay hage
  exact ⟨fun htold => (hy.marked htold).2, hy.inside, hy.ageless⟩

/-! ## New interfaces -/

/-- What the kernel reports is known already, or it is an interface with someone to talk to. -/
def IsUsual (s : Globals) (r : Ifreq) : Prop :=
  ∀ f ∈ r.flags, (s.ifnextAtHead = false ∧ s.isKnown r f = true) ∨
    (f.loopback = false ∧ (f.broadcast = true ∨ f.pointopoint = true))

def Grown (s u : Globals) : Prop :=
  s.ifnextAtHead = false → u.ifnextAtHead = false ∧ s.ifnet <+: u.ifnet

theorem isKnown_grown (h : Grown s u) {r : Ifreq} {f : KernelFlags}
    (hat : s.ifnextAtHead = false) (hknown : s.isKnown r f = true) : u.isKnown r f = true := by
  have hsub : ∀ q : Interface → Bool, (s.ifnet.find? q).isSome = true →
      (u.ifnet.find? q).isSome = true := by
    intro q hq
    rw [List.find?_isSome] at hq ⊢
    obtain ⟨x, hx, hqx⟩ := hq
    exact ⟨x, (h hat).2.subset hx, hqx⟩
  unfold Globals.isKnown at hknown ⊢
  split at hknown
  · rename_i hptp
    rw [if_pos hptp]
    split at hknown
    · exact hsub _ hknown
    · cases hknown
  · rename_i hptp
    rw [if_neg hptp]
    exact hsub _ hknown

theorem ifState_external {ifp : Interface} (h : ifp.flags.loopback = false) :
    (ifState ifp).external = false := h

theorem addrouteforif_pending {env : Env} {ifp : Interface} {t : Tables}
    (hifp : ifp.flags.loopback = false) (h : ∀ rt ∈ t.entries, Pending rt) :
    ∀ rt ∈ (addrouteforif env ifp t).entries, Pending rt :=
  addrouteforif_kept (pending_kept env) okForIf_external (fun _ he => he.inside) hifp h

theorem attach_ready {ifp : Interface} (h : Ready s) (hloop : ifp.flags.loopback = false)
    (hpeer : ifp.hasPeer = true) : Ready (s.attach p ifp) := by
  have hmem : ∀ i ∈ (if s.ifnextAtHead then [ifp] else s.ifnet ++ [ifp]), i = ifp ∨
      i ∈ s.ifnet := by
    intro i hi
    split at hi
    · exact Or.inl (List.mem_singleton.mp hi)
    · exact (List.mem_append.mp hi).symm.imp_left List.mem_singleton.mp
  refine ⟨?_, h.faketime, ?_, ?_, ?_, h.missed⟩
  · simp only [Globals.attach]
    split
    · decide
    · exact h.supplier
  · exact addrouteforif_pending hloop h.routes
  · intro i hi hloop'
    rcases hmem i hi with rfl | hi
    · exact absurd (hloop.symm.trans hloop') (by decide)
    · exact h.loopbacks i hi hloop'
  · intro i hi
    obtain ⟨hi, hpassive⟩ := List.mem_filter.mp hi
    rcases hmem i hi with rfl | hi
    · exact hpeer
    · exact h.peers i (List.mem_filter.mpr ⟨hi, hpassive⟩)

theorem ifinitEntry_ready {r : Ifreq} (h : Ready s) (hr : IsUsual s r) :
    Ready (s.ifinitEntry p r) := by
  unfold Globals.ifinitEntry
  split
  · exact h
  · rename_i f hf
    split
    · exact ⟨h.supplier, h.faketime, h.routes, h.loopbacks, h.peers, h.missed⟩
    · split
      · exact h
      · split
        · exact h
        · split
          · exact h
          · rename_i hknown
            rcases hr f hf with ⟨-, hk⟩ | ⟨hloop, hpeer⟩
            · exact absurd hk hknown
            · simp only [hloop, Bool.false_eq_true, if_false]
              split
              · exact h
              · split
                · exact h
                · refine attach_ready h hloop ?_
                  rcases hpeer with hb | hp <;> simp [Interface.hasPeer, newInterface, *]

theorem ifinitEntry_grown {r : Ifreq} : Grown s (s.ifinitEntry p r) := by
  intro hat
  unfold Globals.ifinitEntry
  split
  · exact ⟨hat, List.prefix_rfl⟩
  · split
    · exact ⟨hat, List.prefix_rfl⟩
    · split
      · exact ⟨hat, List.prefix_rfl⟩
      · split
        · exact ⟨hat, List.prefix_rfl⟩
        · split
          · exact ⟨hat, List.prefix_rfl⟩
          · have hloop : ∀ b : Bool, (if b then s.noteLoopback p (sockaddrIn r.addr) else s).ifnet =
                s.ifnet ∧ (if b then s.noteLoopback p (sockaddrIn r.addr) else s).ifnextAtHead =
                false := by
              intro b
              cases b
              · exact ⟨rfl, hat⟩
              · exact ⟨rfl, hat⟩
            simp only
            split
            · exact ⟨(hloop _).2, (hloop _).1 ▸ List.prefix_rfl⟩
            · split
              · exact ⟨(hloop _).2, (hloop _).1 ▸ List.prefix_rfl⟩
              · refine ⟨rfl, ?_⟩
                simp only [Globals.attach, (hloop _).1, (hloop _).2, Bool.false_eq_true, if_false]
                exact List.prefix_append _ _

theorem IsUsual.grown (h : Grown s u) {r : Ifreq} (hr : IsUsual s r) : IsUsual u r := by
  intro f hf
  rcases hr f hf with ⟨hat, hknown⟩ | hnew
  · exact Or.inl ⟨(h hat).1, isKnown_grown h hat hknown⟩
  · exact Or.inr hnew

theorem foldl_ifinitEntry_ready (reqs : List Ifreq) (h : Ready s)
    (hr : ∀ r ∈ reqs, IsUsual s r) : Ready (reqs.foldl (Globals.ifinitEntry p) s) := by
  induction reqs generalizing s with
  | nil => exact h
  | cons r reqs ih =>
    rw [List.foldl_cons]
    apply ih (ifinitEntry_ready h (hr r List.mem_cons_self))
    intro r' hr'
    exact (hr r' (List.mem_cons_of_mem _ hr')).grown ifinitEntry_grown

theorem ifinit_ready {reqs : List Ifreq} (h : Ready s) (hr : ∀ r ∈ reqs, IsUsual s r) :
    Ready (s.ifinit p reqs) := by
  have hstart : Ready { s with lookforinterfaces := false } :=
    ⟨h.supplier, h.faketime, h.routes, h.loopbacks, h.peers, h.missed⟩
  have hfold := foldl_ifinitEntry_ready (p := p) reqs hstart hr
  unfold Globals.ifinit
  simp only
  split
  · exact ⟨one_ne_zero, hfold.faketime, hfold.routes, hfold.loopbacks, hfold.peers, hfold.missed⟩
  · exact hfold

end States

/-! ## Events -/

/-- The interface that `rip_input` leaves out of the update that it sends at once, if it takes
that branch. -/
def Globals.skipped (p : Platform) (now : Timeval) (r : Response) (s : Globals) :
    Option Interface :=
  let s := { s with now := now }
  let src := inetCanon r.src
  let env := s.env p ((ifIflookup s.ifnet src).map Interface.id)
  if r.src.family = AF_INET ∧ r.vers ≠ 0 ∧ r.src.port = p.ripPort ∧
      (ifIfwithaddr s.ifnet src).isNone then
    (authenticated s.ifnet src).filter fun ifp =>
      decide ((ripNets env ifp src r.nets (refreshSender env src s.tables)).2 > 0) &&
        s.isDynamic && s.isOpen
  else none

/-- An event that loses no change. A response names no external route, and if the update that
follows is sent at once, then nothing is pending on the interface that it skips: every change
that had been held off was learned through this interface. A tick finds no new loopback, and no
new interface without anyone to talk to. -/
def Harmless (p : Platform) (s : Globals) : Event → Prop
  | .response now _ r =>
    (∀ n ∈ r.nets, ∀ rt ∈ s.tables.entries, rt.state.external = true → rt.dst ≠ n.dst) ∧
      ∀ ifp ∈ s.skipped p now r, ∀ rt ∈ s.tables.entries, rt.Settled ifp.id
  | .tick _ reqs => s.lookforinterfaces = true → ∀ r ∈ reqs, IsUsual s r
  | .expired _ => True

instance (rt : RtEntry) : Decidable (Pending rt) :=
  decidable_of_iff ((rt.told ≠ none → rt.changed = true ∧ rt.state.external = false) ∧
      (rt.state.internal = true → rt.state.external = false) ∧
      (rt.state.external = true → rt.state.passive = true ∧ rt.timer < EXPIRE_TIME))
    ⟨fun ⟨h₁, h₂, h₃⟩ => ⟨h₁, h₂, h₃⟩, fun ⟨h₁, h₂, h₃⟩ => ⟨h₁, h₂, h₃⟩⟩

instance (i : ℕ) (rt : RtEntry) : Decidable (rt.Settled i) :=
  decidable_of_iff (∀ told ∈ rt.told, i ∈ told) Iff.rfl

instance (s : Globals) (r : Ifreq) : Decidable (IsUsual s r) := by
  unfold IsUsual
  infer_instance

instance (p : Platform) (s : Globals) : (e : Event) → Decidable (Harmless p s e)
  | .response now _ r => inferInstanceAs (Decidable (
      (∀ n ∈ r.nets, ∀ rt ∈ s.tables.entries, rt.state.external = true → rt.dst ≠ n.dst) ∧
        ∀ ifp ∈ s.skipped p now r, ∀ rt ∈ s.tables.entries, rt.Settled ifp.id))
  | .tick _ reqs => inferInstanceAs (Decidable (
      s.lookforinterfaces = true → ∀ r ∈ reqs, IsUsual s r))
  | .expired _ => inferInstanceAs (Decidable True)

section Events

variable {s u : Globals} {p : Platform}

theorem Ready.with_tables (h : Ready s) {t : Tables} (ht : ∀ rt ∈ t.entries, Pending rt) :
    Ready { s with tables := t } :=
  ⟨h.supplier, h.faketime, ht, h.loopbacks, h.peers, h.missed⟩

theorem Ready.with_now (h : Ready s) (now : Timeval) : Ready { s with now := now } :=
  ⟨h.supplier, h.faketime, h.routes, h.loopbacks, h.peers, h.missed⟩

theorem inhibit_ready (h : Ready s) (random : ℕ) : Ready (s.inhibit random) := by
  unfold Globals.inhibit
  split
  · exact ⟨h.supplier, h.faketime, h.routes, h.loopbacks, h.peers, h.missed⟩
  · exact h

theorem dynamicUpdate_ready (h : Ready s) {ifp : Interface} {random : ℕ}
    (hskip : s.isDynamic = true → s.isOpen = true → ∀ rt ∈ s.tables.entries, rt.Settled ifp.id) :
    Ready (s.dynamicUpdate ifp random) := by
  unfold Globals.dynamicUpdate
  split
  · rename_i hdynamic
    apply inhibit_ready
    split
    · rename_i hopen
      apply sendDynamic_ready h
      intro i hi
      cases hi
      exact hskip hdynamic hopen
    · exact ⟨h.supplier, h.faketime, h.routes, h.loopbacks, h.peers, h.missed⟩
  · exact h

theorem link_external (h : Ready s) : ∀ ifp ∈ s.ifnet, ifp.flags.pointopoint = true →
    (ifState ifp).external = false := by
  intro ifp hifp hptp
  apply ifState_external
  by_contra hloop
  have := (h.loopbacks ifp hifp (by simpa using hloop)).2
  rw [hptp] at this
  cases this

theorem hearRouter_ready (h : Ready s) {random : ℕ} {src : Sockaddr} {nets : List Netinfo}
    (hext : ∀ n ∈ nets, ∀ rt ∈ s.tables.entries, rt.state.external = true → rt.dst ≠ n.dst)
    (hskip : ∀ ifp, authenticated s.ifnet src = some ifp →
      (ripNets (s.env p ((ifIflookup s.ifnet src).map Interface.id)) ifp src nets
        (refreshSender (s.env p ((ifIflookup s.ifnet src).map Interface.id)) src s.tables)).2 >
          0 → s.isDynamic = true → s.isOpen = true →
        ∀ rt ∈ s.tables.entries, rt.Settled ifp.id) :
    Ready (s.hearRouter p random src nets) := by
  -- The invariant of the loop on the entries: no external route is named by one of them.
  have hkept : Kept (s.env p ((ifIflookup s.ifnet src).map Interface.id))
      (fun state => state.external = false) (fun rt => rt.state.external = false)
      (fun rt => Pending rt ∧ (rt.state.external = true → ∀ n ∈ nets, rt.dst ≠ n.dst)) := by
    have hp := pending_kept (s.env p ((ifIflookup s.ifnet src).map Interface.id))
    refine ⟨?_, ?_, ?_⟩
    · intro id dst gate metric state hok
      refine ⟨hp.added id dst gate metric state hok, fun hext => ?_⟩
      exact absurd (hok.symm.trans hext) (by decide)
    · rintro rt gate metric hmay ⟨hrt, hdst⟩
      exact ⟨hp.changed rt gate metric hmay hrt, hdst⟩
    · rintro rt timer htimer ⟨hrt, hdst⟩
      exact ⟨hp.timed rt timer htimer hrt, hdst⟩
  have hstart : ∀ rt ∈ s.tables.entries,
      Pending rt ∧ (rt.state.external = true → ∀ n ∈ nets, rt.dst ≠ n.dst) :=
    fun rt hrt => ⟨h.routes rt hrt, fun he n hn => hext n hn rt hrt he⟩
  have hrefresh := @refreshSender_kept _ _ _ _ _ src okForIf_external
    (fun e he hint => he.1.inside hint) hkept (fun ifp hifp hptp => link_external h ifp hifp hptp)
    hstart
  unfold Globals.hearRouter
  simp only
  split
  · exact h.with_tables (fun rt hrt => (hrefresh rt hrt).1)
  · rename_i ifp hauth
    have hnets := @ripNets_kept _ _ _ _ _ ifp src hkept rfl nets
      (by
        rintro e ⟨-, hdst⟩ n hn hen
        by_contra hne
        exact hdst (by simpa using hne) n hn hen) hrefresh
    have hready := h.with_tables (fun rt hrt => (hnets rt hrt).1)
    split
    · rename_i hchanges
      apply dynamicUpdate_ready hready
      intro hdynamic hopen
      have hsettled := hskip ifp hauth hchanges hdynamic hopen
      have hsource : (ifIflookup s.ifnet src).map Interface.id = some ifp.id := by
        unfold authenticated at hauth
        split at hauth
        · rename_i i hi
          split at hauth
          · cases hauth
            rw [hi]
            rfl
          · cases hauth
        · cases hauth
      have hset := @settled_kept (s.env p ((ifIflookup s.ifnet src).map Interface.id)) _ hsource
      have htrue : OkForIf (fun _ => True) := ⟨fun _ => trivial, fun _ _ => trivial⟩
      exact ripNets_kept hset trivial (fun _ _ _ _ _ => trivial)
        (refreshSender_kept htrue (fun _ _ _ => trivial) hset (fun _ _ _ => trivial) hsettled)
    · exact hready

theorem ripInput_ready (h : Ready s) {now : Timeval} {random : ℕ} {r : Response}
    (hok : Harmless p s (.response now random r)) : Ready (s.ripInput p now random r) := by
  obtain ⟨hext, hskip⟩ := hok
  unfold Globals.ripInput
  simp only
  split
  · rename_i hguard
    split
    · rename_i ifp hifp
      split
      · exact h.with_now now
      · rename_i hpassive
        refine (h.with_now now).with_tables ?_
        apply hearOurselves_kept okForIf_external (fun _ he => he.inside) (pending_kept _) ?_
          h.routes
        apply ifState_external
        by_contra hloop
        have := (h.loopbacks ifp (ifIfwithaddr_mem hifp) (by simpa using hloop)).1
        exact hpassive this
    · rename_i hown
      apply hearRouter_ready (h.with_now now) hext
      intro ifp hauth hchanges hdynamic hopen
      apply hskip ifp
      unfold Globals.skipped
      simp only [hown, Option.isNone_none, and_true]
      rw [if_pos hguard, hauth]
      simp [Option.filter, hchanges, hdynamic, hopen]
  · exact h.with_now now

theorem timer_ready (h : Ready s) {now : Timeval} {reqs : List Ifreq}
    (hok : Harmless p s (.tick now reqs)) : Ready (s.timer p now reqs) := by
  have hfake : (s.faketime + TIMER_RATE) % SUPPLY_INTERVAL = 0 := by
    have := h.faketime
    unfold SUPPLY_INTERVAL at this ⊢
    unfold TIMER_RATE
    omega
  have hstart : Ready { s with now := now, faketime := s.faketime + TIMER_RATE } :=
    ⟨h.supplier, hfake, h.routes, h.loopbacks, h.peers, h.missed⟩
  have hcheck : Ready (Globals.checkInterfaces p reqs
      { s with now := now, faketime := s.faketime + TIMER_RATE }) := by
    unfold Globals.checkInterfaces
    split
    · rename_i hlook
      simp only [Bool.and_eq_true] at hlook
      exact ifinit_ready hstart (hok hlook.1)
    · exact hstart
  unfold Globals.timer
  simp only
  rw [if_pos ⟨hcheck.supplier, hcheck.faketime⟩]
  exact sendFull_ready hcheck ⟨rfl, rfl, rfl⟩ hcheck.missed (ageTables_unmarked hcheck.routes)

theorem step_ready {e : Event} (h : Ready s) (hok : Harmless p s e)
    (hstep : step p s e = some u) : Ready u := by
  cases hstep
  cases e with
  | response now random r => exact ripInput_ready h hok
  | tick now reqs => exact timer_ready h hok
  | expired now =>
    simp only [Event.apply, Globals.delayedUpdate]
    split
    · exact sendDynamic_ready (h.with_now now) (fun i hi => absurd hi (by simp))
    · exact h

/-- In a run of the loop whose events are all harmless, no change is missed on any interface in
any state that the run reaches. -/
theorem no_update_missed (p : Platform) (s : Globals) (h : Ready s) (es : List Event)
    (hok : Steps (Harmless p) (step p) s es) (u : Globals) (hu : Reached (step p) s es u) :
    u.missed = [] :=
  (steps_reached (fun _ _ _ hs hok hstep => step_ready hs hok hstep) h hok hu).missed

end Events

/-! ## Two networks -/

def twoNetworks : Globals :=
  Globals.startup linux (-1) ⟨1000, 0⟩
    [ether 0x0a000001 0xff000000 0x0affffff, ether 0xac100001 0xffff0000 0xac10ffff] [] false

theorem twoNetworks_ready : Ready twoNetworks where
  supplier := by decide +kernel
  faketime := by decide +kernel
  routes := by decide +kernel
  loopbacks := by decide +kernel
  peers := by decide +kernel
  missed := by decide +kernel

/-- Two routes are learned from one router, the second while updates are held off. When the
inhibition ends they have both been sent to the other network. -/
theorem no_update_missed_delayed :
    ∃ u, Reached (step linux) twoNetworks
        [.tick ⟨1030, 0⟩ [], tells ⟨1033, 0⟩ 0x0a000002 0xc0a80100,
          tells ⟨1034, 0⟩ 0x0a000002 0xc0a80200, .expired ⟨1035, 1⟩] u ∧
      u.needupdate = 0 ∧ u.missed = [] ∧
      ∃ packet ∈ u.packets, packet.ifp = some 1 ∧ ⟨sockaddrIn 0xc0a80200, 2⟩ ∈ packet.nets := by
  refine ⟨_, ⟨_, List.prefix_rfl, run_step _ _ _⟩, by decide +kernel, ?_, by decide +kernel⟩
  refine no_update_missed linux twoNetworks twoNetworks_ready _ ?_ _
    ⟨_, List.prefix_rfl, run_step _ _ _⟩
  refine ⟨by decide +kernel, ?_⟩
  rintro t ⟨⟩
  refine ⟨by decide +kernel, ?_⟩
  rintro t ⟨⟩
  refine ⟨by decide +kernel, ?_⟩
  rintro t ⟨⟩
  refine ⟨trivial, ?_⟩
  rintro t ⟨⟩
  trivial

/-- The second route is pending when a router of the other network is heard. The update that is
sent at once skips that network, and clears `needupdate`: the second route has been sent on no
interface. -/
theorem route_missed :
    ∃ u, run (step linux) twoNetworks
        [.tick ⟨1030, 0⟩ [], tells ⟨1033, 0⟩ 0x0a000002 0xc0a80100,
          tells ⟨1034, 0⟩ 0x0a000002 0xc0a80200, tells ⟨1035, 1⟩ 0xac100002 0xc0a80300] =
        some u ∧
      u.needupdate = 0 ∧ u.missed = [(sockaddrIn 0xc0a80200, 1)] ∧
      ∀ packet ∈ u.packets, ∀ n ∈ packet.nets, n.dst ≠ sockaddrIn 0xc0a80200 := by
  refine ⟨_, run_step _ _ _, ?_, ?_, ?_⟩
  · decide +kernel
  · decide +kernel
  · decide +kernel

end Netkit.Routed

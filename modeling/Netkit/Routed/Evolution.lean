import Netkit.Routed.DistanceVector
import Netkit.Routed.Main

/-!
# What becomes of the routes

Everything that routed does, with the exception of the loops of the timer, leaves a route alone, or
sets its timer anew, or takes it out; it adds routes with a new timer. What it sends are routes of
the tables.
-/

namespace Netkit.Routed

open Netkit.Foundations

/-! ## Changes of the routes -/

/-- The state of the timer of a route that is new or has been heard of. -/
structure Young (e : RtEntry) : Prop where
  low : 0 ≤ e.timer
  high : e.timer ≤ GARBAGE_TIME - EXPIRE_TIME
  internal : e.state.internal = true → e.state.passive = true

/-- The route `x` as `e`, some time later. With `reset` its timer may have been set; otherwise only
the metric of an internal route may have changed. -/
structure Touched (reset : Prop) (x e : RtEntry) : Prop where
  id : e.id = x.id
  passive : e.state.passive = x.state.passive
  internal : e.state.internal = x.state.internal
  interface : e.state.interface = true → x.state.interface = true
  timer : e.timer = x.timer ∧ (e.metric = x.metric ∨ x.state.internal = true) ∨
    reset ∧ 0 ≤ e.timer ∧ e.timer ≤ GARBAGE_TIME - EXPIRE_TIME

/-- The tables `t` as `u`, some time later: every route was there before, or is young. -/
structure Evolves (reset : Prop) (t u : Tables) : Prop where
  next : t.next ≤ u.next
  routes : ∀ e ∈ u.entries, (∃ x ∈ t.entries, Touched reset x e) ∨ t.next ≤ e.id ∧ Young e

variable {reset : Prop} {env : Env} {t u v : Tables} {rt x y e : RtEntry} {ifp : Interface}
  {dst gate src : Sockaddr} {metric : Int} {state : RtState}

theorem touched_rfl : Touched reset e e :=
  ⟨rfl, rfl, rfl, id, Or.inl ⟨rfl, Or.inl rfl⟩⟩

theorem Touched.trans (h : Touched reset x y) (h' : Touched reset y e) : Touched reset x e := by
  refine ⟨h'.id.trans h.id, h'.passive.trans h.passive, h'.internal.trans h.internal,
    fun hi => h.interface (h'.interface hi), ?_⟩
  rcases h'.timer with ⟨htimer', hmetric'⟩ | hset
  · rcases h.timer with ⟨htimer, hmetric⟩ | ⟨hreset, hlow, hhigh⟩
    · refine Or.inl ⟨htimer'.trans htimer, ?_⟩
      rcases hmetric with hmetric | hinternal
      · rcases hmetric' with hmetric' | hinternal
        · exact Or.inl (hmetric'.trans hmetric)
        · exact Or.inr (h.internal ▸ hinternal)
      · exact Or.inr hinternal
    · exact Or.inr ⟨hreset, htimer' ▸ hlow, htimer' ▸ hhigh⟩
  · exact Or.inr hset

theorem Young.touched (h : Young x) (h' : Touched reset x e) : Young e := by
  have hinternal : e.state.internal = true → e.state.passive = true := by
    rw [h'.internal, h'.passive]
    exact h.internal
  rcases h'.timer with ⟨htimer, -⟩ | ⟨-, hlow, hhigh⟩
  · exact ⟨htimer ▸ h.low, htimer ▸ h.high, hinternal⟩
  · exact ⟨hlow, hhigh, hinternal⟩

theorem Evolves.refl (reset : Prop) (t : Tables) : Evolves reset t t :=
  ⟨Nat.le_refl _, fun e he => Or.inl ⟨e, he, touched_rfl⟩⟩

theorem Evolves.trans (h : Evolves reset t u) (h' : Evolves reset u v) : Evolves reset t v := by
  refine ⟨h.next.trans h'.next, fun e he => ?_⟩
  rcases h'.routes e he with ⟨y, hy, hye⟩ | ⟨hid, hyoung⟩
  · rcases h.routes y hy with ⟨x, hx, hxy⟩ | ⟨hid, hyoung⟩
    · exact Or.inl ⟨x, hx, hxy.trans hye⟩
    · exact Or.inr ⟨hye.id.symm ▸ hid, hyoung.touched hye⟩
  · exact Or.inr ⟨h.next.trans hid, hyoung⟩

theorem evolves_map {f : RtEntry → RtEntry} (hnext : u.next = t.next)
    (hentries : u.entries = t.entries.map f) (hf : ∀ e ∈ t.entries, Touched reset e (f e)) :
    Evolves reset t u := by
  refine ⟨hnext.ge, fun e he => ?_⟩
  rw [hentries] at he
  obtain ⟨x, hx, rfl⟩ := List.mem_map.mp he
  exact Or.inl ⟨x, hx, hf x hx⟩

theorem evolves_replaced {rt' : RtEntry} (hrt : rt ∈ t.entries) (hnext : u.next = t.next)
    (h : Replaced t u rt rt') (htouched : Touched reset rt rt') : Evolves reset t u := by
  refine evolves_map hnext h.entries (fun e he => ?_)
  split
  · next hid => exact entry_eq he hrt hid ▸ htouched
  · exact touched_rfl

theorem evolves_rtadd (h : state.internal = true → state.passive = true) :
    Evolves reset t (rtadd env dst gate metric state t) := by
  refine ⟨?_, fun e he => ?_⟩
  · unfold rtadd
    split
    · have hnext : t.next ≤ (t.insque (newEntry env t.next dst gate metric state) rfl).next := by
        unfold Tables.insque
        split
        · exact Nat.le_succ _
        · exact Nat.le_succ _
      dsimp only
      split
      · exact hnext
      · split
        · exact Nat.le_refl _
        · exact hnext
    · exact Nat.le_refl _
  · rcases mem_rtadd he with rfl | he
    · exact Or.inr ⟨Nat.le_refl _, Int.le_refl 0, zero_le_freshTime, h⟩
    · exact Or.inl ⟨e, he, touched_rfl⟩

theorem evolves_rtdelete : Evolves reset t (rtdelete env rt t) :=
  ⟨Nat.le_refl _, fun e he => Or.inl ⟨e, (mem_rtdelete he).1, touched_rfl⟩⟩

theorem changeEntry_touched (h : e.state.internal = true) :
    Touched reset e (changeEntry env gate metric e) :=
  ⟨rfl, rfl, rfl, fun hi => (Bool.and_eq_true_iff.mp hi).1, Or.inl ⟨rfl, Or.inr h⟩⟩

theorem evolves_rtchange (hrt : rt ∈ t.entries) (h : rt.state.internal = true) :
    Evolves reset t (rtchange env rt gate metric t) := by
  refine evolves_map (f := fun e => if e.id = rt.id then changeEntry env gate metric e else e) rfl
    entries_rtchange (fun e he => ?_)
  split
  · next hid => exact changeEntry_touched (entry_eq he hrt hid ▸ h)
  · exact touched_rfl

theorem evolves_setTimer {timer : RtEntry → Int}
    (htimer : ∀ e, 0 ≤ timer e ∧ timer e ≤ GARBAGE_TIME - EXPIRE_TIME) :
    Evolves True t (setTimer rt timer t) := by
  refine evolves_map rfl (entries_setTimer timer) (fun e _ => ?_)
  split
  · exact ⟨rfl, rfl, rfl, id, Or.inr ⟨trivial, htimer e⟩⟩
  · exact touched_rfl

theorem evolves_changed {timer : RtEntry → Int} (hrt : rt ∈ t.entries)
    (htimer : ∀ e, 0 ≤ timer e ∧ timer e ≤ GARBAGE_TIME - EXPIRE_TIME) :
    Evolves True t (setTimer rt timer (rtchange env rt gate metric t)) :=
  evolves_replaced hrt rfl (replaced_rtchange hrt gate metric timer)
    ⟨rfl, rfl, rfl, fun hi => (Bool.and_eq_true_iff.mp hi).1, Or.inr ⟨trivial, htimer _⟩⟩

/-! ## Routes of interfaces -/

theorem evolves_addPtoptLocalrt : Evolves reset t (addPtoptLocalrt env ifp t) := by
  unfold addPtoptLocalrt
  dsimp only
  split
  · split
    · exact Evolves.refl reset t
    · exact evolves_rtdelete.trans (evolves_rtadd (fun _ => rfl))
  · exact evolves_rtadd (fun _ => rfl)

theorem evolves_addNetworkRoute : Evolves reset t (addNetworkRoute env ifp t) := by
  unfold addNetworkRoute
  split
  · dsimp only
    split
    · exact evolves_rtadd (fun _ => rfl)
    · next hfind =>
      split
      · next hcond =>
        have hinternal := (Bool.and_eq_true_iff.mp (Bool.and_eq_true_iff.mp hcond).1).1
        exact evolves_rtchange (rtfind_mem hfind) hinternal
      · exact Evolves.refl reset t
  · exact Evolves.refl reset t

theorem evolves_installRoute : Evolves reset t (installRoute env ifp t) := by
  have hroute : Evolves reset t (rtadd env (ifDestination ifp) ifp.addr ifp.metric (ifState ifp)
      (addNetworkRoute env ifp t)) :=
    evolves_addNetworkRoute.trans (evolves_rtadd (fun h => absurd h Bool.false_ne_true))
  unfold installRoute
  dsimp only
  split
  · exact hroute.trans evolves_addPtoptLocalrt
  · exact hroute

theorem evolves_addrouteforif : Evolves reset t (addrouteforif env ifp t) := by
  unfold addrouteforif
  split
  · split
    · exact Evolves.refl reset t
    · exact evolves_rtdelete.trans evolves_installRoute
  · exact evolves_installRoute

/-! ## Responses -/

theorem zero_timer (_ : RtEntry) : (0 : Int) ≤ 0 ∧ (0 : Int) ≤ GARBAGE_TIME - EXPIRE_TIME :=
  ⟨Int.le_refl 0, zero_le_freshTime⟩

theorem fresh_timer (e : RtEntry) :
    0 ≤ freshTimer e ∧ freshTimer e ≤ GARBAGE_TIME - EXPIRE_TIME := by
  refine ⟨?_, freshTimer_le e⟩
  unfold freshTimer
  split
  · exact zero_le_freshTime
  · exact Int.le_refl 0

theorem evolves_hearOurselves : Evolves True t (hearOurselves env ifp src t) := by
  unfold hearOurselves
  split
  · exact evolves_addrouteforif
  · split
    · exact evolves_addrouteforif
    · exact evolves_setTimer zero_timer

theorem evolves_restoreLink {found : Option RtEntry} :
    Evolves True t (restoreLink env src found t) := by
  unfold restoreLink
  split
  · split
    · exact evolves_addrouteforif
    · exact Evolves.refl True t
  · exact Evolves.refl True t

theorem evolves_refreshSender : Evolves True t (refreshSender env src t) := by
  unfold refreshSender
  split
  · split
    · exact evolves_setTimer zero_timer
    · exact evolves_restoreLink
  · exact evolves_restoreLink

variable {st : Tables × ℕ}

theorem evolves_learnRoute : Evolves True st.1 (learnRoute env src dst metric st).1 := by
  have hadd : Evolves True st.1 (rtadd env dst src metric {} st.1) :=
    evolves_rtadd (fun h => absurd h Bool.false_ne_true)
  unfold learnRoute
  split
  · split
    · split
      · exact Evolves.refl True st.1
      · exact hadd
    · exact hadd
  · exact Evolves.refl True st.1

theorem evolves_updateRoute (hrt : rt ∈ st.1.entries) :
    Evolves True st.1 (updateRoute env src metric rt st).1 := by
  unfold updateRoute
  split
  · split
    · exact evolves_changed hrt fresh_timer
    · split
      · exact evolves_setTimer zero_timer
      · exact Evolves.refl True st.1
  · split
    · exact evolves_changed hrt zero_timer
    · exact Evolves.refl True st.1

theorem evolves_ripNetinfo {n : Netinfo} : Evolves True st.1 (ripNetinfo env ifp src st n).1 := by
  unfold ripNetinfo ripEntry
  split
  · split
    · exact evolves_learnRoute
    · next hfind =>
      split
      · split
        · exact Evolves.refl True st.1
        · exact evolves_learnRoute
      · exact evolves_updateRoute (rtlookup_mem hfind).1
  · exact Evolves.refl True st.1

theorem evolves_ripNets (nets : List Netinfo) : Evolves True t (ripNets env ifp src nets t).1 := by
  have hfold (st : Tables × ℕ) :
      Evolves True st.1 (nets.foldl (ripNetinfo env ifp src) st).1 := by
    induction nets generalizing st with
    | nil => exact Evolves.refl True st.1
    | cons n nets ih => exact evolves_ripNetinfo.trans (ih _)
  exact hfold (t, 0)

/-! ## The kernel's interfaces -/

namespace Globals

variable {s w : Globals} {p : Platform}

/-- The state `s` as `w`, some time later, without a tick. -/
structure Follows (reset : Prop) (s w : Globals) : Prop where
  tables : Evolves reset s.tables w.tables
  supplier : s.supplier ≠ 0 → w.supplier ≠ 0
  faketime : w.faketime = s.faketime

theorem Follows.refl (reset : Prop) (s : Globals) : Follows reset s s :=
  ⟨Evolves.refl reset s.tables, id, rfl⟩

theorem Follows.trans {v : Globals} (h : Follows reset s w) (h' : Follows reset w v) :
    Follows reset s v :=
  ⟨h.tables.trans h'.tables, fun hs => h'.supplier (h.supplier hs), h'.faketime.trans h.faketime⟩

/-- The state is followed by one in which only the tables, and what no route depends on, have
changed. -/
structure Quiet (reset : Prop) (s w : Globals) : Prop where
  follows : Follows reset s w
  packets : w.packets = s.packets

theorem Quiet.refl (reset : Prop) (s : Globals) : Quiet reset s s := ⟨Follows.refl reset s, rfl⟩

theorem Quiet.trans {v : Globals} (h : Quiet reset s w) (h' : Quiet reset w v) :
    Quiet reset s v :=
  ⟨h.follows.trans h'.follows, h'.packets.trans h.packets⟩

theorem noteLoopback_quiet (addr : Sockaddr) (s : Globals) :
    Quiet reset s (s.noteLoopback p addr) := by
  have hfold (env : Env) (l : List Interface) (t : Tables) : Evolves reset t
      (l.foldl
        (fun t ifp => if ifp.flags.pointopoint then addPtoptLocalrt env ifp t else t) t) := by
    induction l generalizing t with
    | nil => exact Evolves.refl reset t
    | cons ifp l ih =>
      refine Evolves.trans ?_ (ih _)
      dsimp only
      split
      · exact evolves_addPtoptLocalrt
      · exact Evolves.refl reset t
  exact ⟨⟨hfold _ s.ifnet s.tables, id, rfl⟩, rfl⟩

theorem attach_quiet (ifp : Interface) (s : Globals) : Quiet reset s (s.attach p ifp) := by
  refine ⟨⟨evolves_addrouteforif, fun hs => ?_, rfl⟩, rfl⟩
  change (if (ifp.flags.pointopoint && decide (s.supplier < 0)) = true then (1 : Int)
    else s.supplier) ≠ 0
  split
  · exact one_ne_zero
  · exact hs

theorem ifinitEntry_quiet (s : Globals) (r : Ifreq) : Quiet reset s (s.ifinitEntry p r) := by
  unfold ifinitEntry
  split
  · exact Quiet.refl reset s
  · next f _ =>
    split
    · exact ⟨⟨Evolves.refl reset s.tables, id, rfl⟩, rfl⟩
    · split
      · exact Quiet.refl reset s
      · split
        · exact Quiet.refl reset s
        · split
          · exact Quiet.refl reset s
          · have hloop : Quiet reset s
                (if f.loopback then s.noteLoopback p (sockaddrIn r.addr) else s) := by
              split
              · exact noteLoopback_quiet _ s
              · exact Quiet.refl reset s
            dsimp only
            split
            · exact hloop
            · split
              · exact hloop
              · exact hloop.trans (attach_quiet _ _)

theorem ifinit_quiet (reqs : List Ifreq) (s : Globals) : Quiet reset s (s.ifinit p reqs) := by
  have hfold (s : Globals) : Quiet reset s (reqs.foldl (ifinitEntry p) s) := by
    induction reqs generalizing s with
    | nil => exact Quiet.refl reset s
    | cons r reqs ih => exact (ifinitEntry_quiet s r).trans (ih _)
  have h := hfold { s with lookforinterfaces := false }
  unfold ifinit
  dsimp only
  split
  · exact ⟨⟨h.follows.tables, fun _ => one_ne_zero, h.follows.faketime⟩, h.packets⟩
  · exact ⟨⟨h.follows.tables, h.follows.supplier, h.follows.faketime⟩, h.packets⟩

theorem checkInterfaces_quiet (reqs : List Ifreq) (s : Globals) :
    Quiet reset s (s.checkInterfaces p reqs) := by
  unfold checkInterfaces
  split
  · exact ifinit_quiet reqs s
  · exact Quiet.refl reset s

theorem gwkludgeEntry_quiet (s : Globals) (g : Gateway) :
    Quiet reset s (s.gwkludgeEntry p g) := by
  have hadd : Evolves reset s.tables (rtadd (s.env p none) (sockaddrIn g.dst) (sockaddrIn g.gate)
      (if g.metric = 0 then 1 else g.metric) { external := true, passive := true } s.tables) :=
    evolves_rtadd (fun h => absurd h Bool.false_ne_true)
  unfold gwkludgeEntry
  split
  · exact ⟨⟨⟨Nat.le_refl _, fun e he => Or.inl ⟨e, he, touched_rfl⟩⟩, id, rfl⟩, rfl⟩
  · exact ⟨⟨hadd, id, rfl⟩, rfl⟩
  · exact ⟨⟨evolves_addrouteforif, id, rfl⟩, rfl⟩

/-! ## Updates -/

/-- An update: only `told` of the routes changes, and what is sent are routes of the tables. -/
structure Updates (s w : Globals) : Prop where
  next : w.tables.next = s.tables.next
  routes : ∃ f : RtEntry → RtEntry, (∀ e, ∃ told, f e = { e with told := told }) ∧
    w.tables.entries = s.tables.entries.map f
  packets : ∃ sent, w.packets = s.packets ++ sent ∧
    ∀ packet ∈ sent, ∀ n ∈ packet.nets, ∃ e ∈ s.tables.entries, n = e.netinfo

theorem Updates.refl (s : Globals) : Updates s s :=
  ⟨rfl, ⟨id, fun e => ⟨e.told, rfl⟩, (List.map_id _).symm⟩, [], (List.append_nil _).symm,
    fun _ hpacket => absurd hpacket List.not_mem_nil⟩

theorem Updates.trans {v : Globals} (h : Updates s w) (h' : Updates w v) : Updates s v := by
  obtain ⟨f, hf, hroutes⟩ := h.routes
  obtain ⟨g, hg, hroutes'⟩ := h'.routes
  obtain ⟨sent, hpackets, hsent⟩ := h.packets
  obtain ⟨sent', hpackets', hsent'⟩ := h'.packets
  refine ⟨h'.next.trans h.next, ⟨g ∘ f, fun e => ?_, ?_⟩, sent ++ sent', ?_,
    fun packet hpacket => ?_⟩
  · obtain ⟨told, htold⟩ := hf e
    obtain ⟨told', htold'⟩ := hg (f e)
    exact ⟨told', htold'.trans (htold ▸ rfl)⟩
  · rw [hroutes', hroutes, List.map_map]
  · rw [hpackets', hpackets, List.append_assoc]
  · rcases List.mem_append.mp hpacket with hpacket | hpacket
    · exact hsent packet hpacket
    · intro n hn
      obtain ⟨e, he, rfl⟩ := hsent' packet hpacket n hn
      rw [hroutes] at he
      obtain ⟨x, hx, rfl⟩ := List.mem_map.mp he
      obtain ⟨told, htold⟩ := hf x
      exact ⟨x, hx, htold ▸ rfl⟩

/-- What is in a packet is one of the routes that `pack` has been given. -/
theorem mem_pack {alone changedOnly : Bool} {npackets : ℕ} {n rest packet : List RtEntry}
    (hpacket : packet ∈ pack alone changedOnly npackets n rest) :
    ∀ e ∈ packet, e ∈ n ++ rest := by
  induction rest generalizing npackets n with
  | nil =>
    unfold pack at hpacket
    split at hpacket
    · rw [List.mem_singleton.mp hpacket, List.append_nil]
      exact fun e he => he
    · exact absurd hpacket List.not_mem_nil
  | cons rt rest ih =>
    unfold pack at hpacket
    split at hpacket
    · rcases List.mem_cons.mp hpacket with rfl | hpacket
      · exact fun e he => List.mem_append_left _ he
      · split at hpacket
        · exact absurd hpacket List.not_mem_nil
        · exact fun e he => List.mem_append_right n (ih hpacket e he)
    · intro e he
      have hmem := ih hpacket e he
      rwa [List.append_assoc, List.singleton_append] at hmem

theorem mem_supplyPackets {ifp : Option Interface} {changedOnly : Bool} {packet : List RtEntry}
    (hpacket : packet ∈ supplyPackets ifp dst changedOnly t) : ∀ e ∈ packet, e ∈ t.entries := by
  intro e he
  have hmem := mem_pack hpacket e he
  rw [List.nil_append, supplied] at hmem
  rcases List.mem_append.mp hmem with hmem | hmem
  · exact mem_entries.mpr (Or.inl (List.mem_filter.mp hmem).1)
  · exact mem_entries.mpr (Or.inr (List.mem_filter.mp hmem).1)

theorem supply_updates (dontroute changedOnly : Bool) (ifp : Interface) :
    Updates s (s.supply dst dontroute (some ifp) changedOnly) := by
  refine ⟨rfl, ⟨_, fun e => ?_, entries_map _ (toldBy_inPlace ifp dst _)⟩, _, rfl,
    fun packet hpacket n hn => ?_⟩
  · obtain ⟨told, htold, -⟩ := toldBy_eq ifp dst
      (supplyPackets (some ifp) dst changedOnly s.tables).flatten e
    exact ⟨told, htold⟩
  · obtain ⟨routes, hroutes, rfl⟩ := List.mem_map.mp hpacket
    obtain ⟨e, he, rfl⟩ := List.mem_map.mp hn
    exact ⟨e, mem_supplyPackets hroutes e he, rfl⟩

theorem toallEntry_updates (changedOnly : Bool) (skipif : Option ℕ) (ifp : Interface) :
    Updates s (toallEntry changedOnly skipif s ifp) := by
  unfold toallEntry
  split
  · exact Updates.refl s
  · exact supply_updates _ changedOnly ifp

theorem foldl_updates (changedOnly : Bool) (skipif : Option ℕ) (l : List Interface) (s : Globals) :
    Updates s (l.foldl (toallEntry changedOnly skipif) s) := by
  induction l generalizing s with
  | nil => exact Updates.refl s
  | cons ifp l ih => exact (toallEntry_updates changedOnly skipif ifp).trans (ih _)

theorem clear_updates (s : Globals) : Updates s s.clearNeedupdate := by
  have hentries : s.clearNeedupdate.tables.entries =
      s.tables.entries.map (fun e => { e with told := none }) :=
    entries_map (fun e => { e with told := none }) (fun _ => ⟨rfl, rfl, rfl⟩)
  exact ⟨rfl, ⟨_, fun _ => ⟨none, rfl⟩, hentries⟩, [], (List.append_nil _).symm,
    fun _ hpacket => absurd hpacket List.not_mem_nil⟩

theorem sendDynamic_updates (skipif : Option ℕ) (s : Globals) :
    Updates s (s.sendDynamic skipif) := by
  have hsent := foldl_updates true skipif s.ifnet s
  have hnoted : Updates s { s.toall true skipif with lastbcast := s.now } :=
    ⟨hsent.next, hsent.routes, hsent.packets⟩
  have hclear := hnoted.trans (clear_updates { s.toall true skipif with lastbcast := s.now })
  exact ⟨hclear.next, hclear.routes, hclear.packets⟩

theorem sendFull_updates (s : Globals) : Updates s s.sendFull := by
  have hsent := foldl_updates false none s.ifnet s
  have hnoted : Updates s
      { s.toall false none with lastbcast := s.now, lastfullupdate := s.now } :=
    ⟨hsent.next, hsent.routes, hsent.packets⟩
  have hclear := hnoted.trans
    (clear_updates { s.toall false none with lastbcast := s.now, lastfullupdate := s.now })
  exact ⟨hclear.next, hclear.routes, hclear.packets⟩

/-- What an update sends: on every interface with someone to talk to, all routes that no filter
holds back there. -/
def Covers (changedOnly : Bool) (skipif : Option ℕ) (l : List Interface) (t : Tables)
    (sent : List Packet) : Prop :=
  ∀ ifp ∈ l, ifp.flags.passive = false → ifp.hasPeer = true → skipif ≠ some ifp.id →
    ∀ e ∈ t.entries, isSupplied (some ifp) (toallDst ifp) changedOnly (!e.host) e = true →
      ∃ packet ∈ sent, packet.ifp = some ifp.id ∧ e.netinfo ∈ packet.nets

theorem supply_covers (dst : Sockaddr) {ifp : Interface} (hpeer : ifp.hasPeer = true)
    (dontroute changedOnly : Bool) {e : RtEntry} (he : e ∈ s.tables.entries)
    (hsupplied : isSupplied (some ifp) dst changedOnly (!e.host) e = true) :
    ∃ sent, (s.supply dst dontroute (some ifp) changedOnly).packets = s.packets ++ sent ∧
      ∃ packet ∈ sent, packet.ifp = some ifp.id ∧ e.netinfo ∈ packet.nets := by
  have halone : isAlone (some ifp) = false := by
    rw [isAlone, Option.any_some, hpeer]
    rfl
  have hmem := (mem_supplied he).mpr hsupplied
  rw [← supplyPackets_flatten halone] at hmem
  obtain ⟨packet, hpacket, hep⟩ := List.mem_flatten.mp hmem
  exact ⟨_, rfl, _, List.mem_map_of_mem hpacket, rfl, List.mem_map_of_mem hep⟩

theorem foldl_covers (changedOnly : Bool) (skipif : Option ℕ) (l : List Interface) (s : Globals) :
    ∃ sent, (l.foldl (toallEntry changedOnly skipif) s).packets = s.packets ++ sent ∧
      Covers changedOnly skipif l s.tables sent := by
  induction l generalizing s with
  | nil => exact ⟨[], (List.append_nil _).symm, fun _ hifp => absurd hifp List.not_mem_nil⟩
  | cons i l ih =>
    have hupdates := toallEntry_updates (s := s) changedOnly skipif i
    obtain ⟨f, hf, hroutes⟩ := hupdates.routes
    obtain ⟨first, hfirst, -⟩ := hupdates.packets
    obtain ⟨rest, hrest, hcovers⟩ := ih (toallEntry changedOnly skipif s i)
    refine ⟨first ++ rest, ?_, fun ifp hifp hpassive hpeer hskip e he hsupplied => ?_⟩
    · rw [List.foldl_cons, hrest, hfirst, List.append_assoc]
    · rcases List.mem_cons.mp hifp with rfl | hifp
      · obtain ⟨sent, hsent, packet, hpacket, hon⟩ :=
          supply_covers (toallDst ifp) hpeer ifp.flags.interface changedOnly he hsupplied
        have hsame : toallEntry changedOnly skipif s ifp =
            s.supply (toallDst ifp) ifp.flags.interface (some ifp) changedOnly := by
          unfold toallEntry
          rw [if_neg]
          rw [hpassive, Bool.false_or, beq_iff_eq]
          exact hskip
        rw [hsame, hsent] at hfirst
        rw [← List.append_cancel_left hfirst]
        exact ⟨packet, List.mem_append_left _ hpacket, hon⟩
      · obtain ⟨told, htold⟩ := hf e
        have hmem : f e ∈ (toallEntry changedOnly skipif s i).tables.entries := by
          rw [hroutes]
          exact List.mem_map_of_mem he
        rw [htold] at hmem
        obtain ⟨packet, hpacket, hon⟩ := hcovers ifp hifp hpassive hpeer hskip _ hmem hsupplied
        exact ⟨packet, List.mem_append_right _ hpacket, hon⟩

theorem sendFull_covers (s : Globals) : ∃ sent, s.sendFull.packets = s.packets ++ sent ∧
    Covers false none s.ifnet s.tables sent :=
  foldl_covers false none s.ifnet s

/-! ## Events -/

/-- What is sent between the states are routes of the tables afterwards. -/
def Sends (s w : Globals) : Prop :=
  ∃ sent, w.packets = s.packets ++ sent ∧
    ∀ packet ∈ sent, ∀ n ∈ packet.nets, ∃ e ∈ w.tables.entries, n = e.netinfo

theorem sends_nothing (h : w.packets = s.packets) : Sends s w :=
  ⟨[], h.trans (List.append_nil _).symm, fun _ hpacket => absurd hpacket List.not_mem_nil⟩

theorem Updates.sends (h : Updates s w) : Sends s w := by
  obtain ⟨f, hf, hroutes⟩ := h.routes
  obtain ⟨sent, hpackets, hsent⟩ := h.packets
  refine ⟨sent, hpackets, fun packet hpacket n hn => ?_⟩
  obtain ⟨e, he, rfl⟩ := hsent packet hpacket n hn
  obtain ⟨told, htold⟩ := hf e
  exact ⟨f e, hroutes ▸ List.mem_map_of_mem he, htold ▸ rfl⟩

theorem Updates.evolves (h : Updates s w) : Evolves reset s.tables w.tables := by
  obtain ⟨f, hf, hroutes⟩ := h.routes
  refine evolves_map h.next hroutes (fun e _ => ?_)
  obtain ⟨told, htold⟩ := hf e
  rw [htold]
  exact ⟨rfl, rfl, rfl, id, Or.inl ⟨rfl, Or.inl rfl⟩⟩

theorem sendDynamic_follows (skipif : Option ℕ) (s : Globals) :
    Follows reset s (s.sendDynamic skipif) := by
  obtain ⟨tables, packets, hrest⟩ := (toall_sent true skipif s).rest
  refine ⟨(sendDynamic_updates skipif s).evolves, ?_, ?_⟩
  · change s.supplier ≠ 0 → (s.toall true skipif).supplier ≠ 0
    rw [hrest]
    exact id
  · change (s.toall true skipif).faketime = s.faketime
    rw [hrest]

theorem inhibit_rest (random : ℕ) (s : Globals) :
    (s.inhibit random).tables = s.tables ∧ (s.inhibit random).supplier = s.supplier ∧
      (s.inhibit random).faketime = s.faketime ∧ (s.inhibit random).packets = s.packets := by
  unfold inhibit
  split
  · exact ⟨rfl, rfl, rfl, rfl⟩
  · exact ⟨rfl, rfl, rfl, rfl⟩

/-- A state that is followed by another, with all that is sent in between. -/
structure Leads (s w : Globals) : Prop where
  follows : Follows True s w
  sends : Sends s w

theorem Leads.of_eq {v : Globals} (h : Leads s w) (htables : v.tables = w.tables)
    (hsupplier : v.supplier = w.supplier) (hfaketime : v.faketime = w.faketime)
    (hpackets : v.packets = w.packets) : Leads s v := by
  obtain ⟨⟨htables', hsupplier', hfaketime'⟩, sent, hsent, hroutes⟩ := h
  refine ⟨⟨htables ▸ htables', hsupplier ▸ hsupplier', hfaketime.trans hfaketime'⟩, sent,
    hpackets.trans hsent, ?_⟩
  rw [htables]
  exact hroutes

theorem Quiet.leads (h : Quiet True s w) : Leads s w := ⟨h.follows, sends_nothing h.packets⟩

theorem sendDynamic_leads (skipif : Option ℕ) (s : Globals) : Leads s (s.sendDynamic skipif) :=
  ⟨sendDynamic_follows skipif s, (sendDynamic_updates skipif s).sends⟩

theorem dynamicUpdate_leads (ifp : Interface) (random : ℕ) (s : Globals) :
    Leads s (s.dynamicUpdate ifp random) := by
  unfold dynamicUpdate
  split
  · split
    · obtain ⟨htables, hsupplier, hfaketime, hpackets⟩ :=
        inhibit_rest random (s.sendDynamic (some ifp.id))
      exact (sendDynamic_leads _ s).of_eq htables hsupplier hfaketime hpackets
    · obtain ⟨htables, hsupplier, hfaketime, hpackets⟩ :=
        inhibit_rest random { s with needupdate := s.needupdate + 1 }
      exact (Quiet.refl True s).leads.of_eq htables hsupplier hfaketime hpackets
  · exact (Quiet.refl True s).leads

theorem Quiet.trans_leads {v : Globals} (h : Quiet True s w) (h' : Leads w v) : Leads s v :=
  ⟨h.follows.trans h'.follows, by
    obtain ⟨sent, hsent, hroutes⟩ := h'.sends
    exact ⟨sent, hsent.trans (congrArg (· ++ sent) h.packets), hroutes⟩⟩

theorem hearRouter_leads (random : ℕ) (nets : List Netinfo) (s : Globals) :
    Leads s (s.hearRouter p random src nets) := by
  unfold hearRouter
  dsimp only
  split
  · exact Quiet.leads ⟨⟨evolves_refreshSender, id, rfl⟩, rfl⟩
  · next ifp _ =>
    have hheard : Quiet True s { s with
        tables := (ripNets (s.env p ((ifIflookup s.ifnet src).map Interface.id)) ifp src nets
          (refreshSender (s.env p ((ifIflookup s.ifnet src).map Interface.id)) src
            s.tables)).1 } :=
      ⟨⟨evolves_refreshSender.trans (evolves_ripNets nets), id, rfl⟩, rfl⟩
    split
    · exact hheard.trans_leads (dynamicUpdate_leads ifp random _)
    · exact hheard.leads

theorem ripInput_leads (now : Timeval) (random : ℕ) (r : Response) (s : Globals) :
    Leads s (s.ripInput p now random r) := by
  have hnow : Quiet True s { s with now := now } := ⟨⟨Evolves.refl True s.tables, id, rfl⟩, rfl⟩
  unfold ripInput
  dsimp only
  split
  · split
    · split
      · exact hnow.leads
      · exact Quiet.leads ⟨⟨evolves_hearOurselves, id, rfl⟩, rfl⟩
    · exact hnow.trans_leads (hearRouter_leads random r.nets _)
  · exact hnow.leads

theorem delayedUpdate_leads (now : Timeval) (s : Globals) : Leads s (s.delayedUpdate now) := by
  have hnow : Quiet True s { s with now := now } := ⟨⟨Evolves.refl True s.tables, id, rfl⟩, rfl⟩
  unfold delayedUpdate
  split
  · exact hnow.trans_leads (sendDynamic_leads none _)
  · exact (Quiet.refl True s).leads

end Globals

end Netkit.Routed

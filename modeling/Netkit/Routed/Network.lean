import Netkit.Foundations.Walks
import Netkit.Routed.DistanceVector
import Netkit.Routed.Evolution
import Netkit.Routed.External
import Netkit.Routed.InterfaceRoute
import Mathlib.Data.Set.Basic
import Mathlib.Logic.Function.Basic

/-!
# Routers that hear each other

Several routers run routed, and what one of them sends is heard by others: late, out of order, more
than once, or never. Whatever they make of it, the metric of a route is 16 or the cost of a walk
through the network, from interface to interface.

* `routes_real`: in every run, all routes of all routers are real.
-/

namespace Netkit.Routed

open Netkit.Foundations

/-! ## Destinations and metrics -/

def Known (P : Sockaddr → Int → Prop) (t : Tables) : Prop := ∀ e ∈ t.entries, P e.dst e.metric

/-- The property holds of whatever a router with these interfaces knows of itself. -/
structure Local (P : Sockaddr → Int → Prop) (S : Set Interface) : Prop where
  infinity : ∀ d, P d HOPCNT_INFINITY
  bounds : ∀ d m, P d m → 1 ≤ m ∧ m ≤ HOPCNT_INFINITY
  cost : ∀ ifp ∈ S, 1 ≤ ifp.metric ∧ ifp.metric ≤ 15
  destination : ∀ ifp ∈ S, P (ifDestination ifp) ifp.metric
  network : ∀ ifp ∈ S, ∀ ifnet : List Interface, (∀ x ∈ ifnet, x ∈ S) → ∀ d,
    inetNetmatch ifnet d (netDestination ifp) = true → P d ifp.metric
  nearEnd : ∀ ifp ∈ S, ifp.flags.pointopoint = true → P ifp.addr 1

variable {P : Sockaddr → Int → Prop} {S : Set Interface} {env : Env} {t u : Tables} {rt : RtEntry}
  {ifp : Interface} {dst gate src : Sockaddr} {metric c : Int} {state : RtState} {n : Netinfo}
  {nets : List Netinfo}

theorem known_rtadd (h : Known P t) (hdst : P dst metric) :
    Known P (rtadd env dst gate metric state t) := by
  intro e he
  rcases mem_rtadd he with rfl | he
  · exact hdst
  · exact h e he

theorem known_rtdelete (h : Known P t) : Known P (rtdelete env rt t) :=
  fun e he => h e (mem_rtdelete he).1

theorem known_rtchange (h : Known P t) (hrt : rt ∈ t.entries)
    (hmetric : P rt.dst (toShort metric)) : Known P (rtchange env rt gate metric t) := by
  intro e he
  rw [entries_rtchange] at he
  obtain ⟨x, hx, rfl⟩ := List.mem_map.mp he
  by_cases hid : x.id = rt.id
  · rw [if_pos hid, entry_eq hx hrt hid]
    exact hmetric
  · rw [if_neg hid]
    exact h x hx

theorem known_setTimer (h : Known P t) (timer : RtEntry → Int) :
    Known P (setTimer rt timer t) := by
  intro e he
  rw [entries_setTimer] at he
  obtain ⟨x, hx, rfl⟩ := List.mem_map.mp he
  split
  · exact h x hx
  · exact h x hx

theorem known_of_entries (h : Known P t) (hentries : u.entries = t.entries) : Known P u := by
  intro e he
  rw [hentries] at he
  exact h e he

theorem rtfind_netmatch {ifnet : List Interface} (h : rtfind ifnet t dst = some rt) :
    inetNetmatch ifnet rt.dst dst = true := by
  rcases rtfind_matches h with hdst | ⟨-, hmatch⟩
  · rw [hdst, inetNetmatch, beq_self_eq_true]
  · exact hmatch

theorem authenticated_mem {ifnet : List Interface} (h : authenticated ifnet src = some ifp) :
    ifp ∈ ifnet := by
  have hlookup : ifIflookup ifnet src = some ifp := by
    unfold authenticated at h
    split at h
    · next x hx =>
      split at h
      · rw [hx]
        exact h
      · cases h
    · cases h
  unfold ifIflookup at hlookup
  split at hlookup
  · dsimp only at hlookup
    split at hlookup
    · next hfound =>
      cases hlookup
      exact List.mem_of_find?_eq_some hfound
    · exact List.mem_of_find?_eq_some hlookup
  · cases hlookup

/-! ## The routes of an interface -/

theorem known_addPtoptLocalrt (hS : Local P S) (hifp : ifp ∈ S)
    (hptp : ifp.flags.pointopoint = true) (h : Known P t) :
    Known P (addPtoptLocalrt env ifp t) := by
  have hnear := hS.nearEnd ifp hifp hptp
  unfold addPtoptLocalrt
  dsimp only
  split
  · split
    · exact h
    · exact known_rtadd (known_rtdelete h) hnear
  · exact known_rtadd h hnear

theorem known_addNetworkRoute (hS : Local P S) (henv : ∀ x ∈ env.ifnet, x ∈ S) (hifp : ifp ∈ S)
    (h : Known P t) : Known P (addNetworkRoute env ifp t) := by
  have hcost := hS.cost ifp hifp
  have hnet := hS.network ifp hifp env.ifnet henv
  unfold addNetworkRoute
  split
  · dsimp only
    split
    · apply known_rtadd h
      apply hnet
      exact beq_self_eq_true _
    · next rt hrt =>
      split
      · apply known_rtchange h (rtfind_mem hrt)
        rw [toShort_eq (by omega) (by omega)]
        exact hnet rt.dst (rtfind_netmatch hrt)
      · exact h
  · exact h

theorem known_installRoute (hS : Local P S) (henv : ∀ x ∈ env.ifnet, x ∈ S) (hifp : ifp ∈ S)
    (h : Known P t) : Known P (installRoute env ifp t) := by
  have hadd := @known_rtadd P env _ (ifDestination ifp) ifp.addr ifp.metric (ifState ifp)
    (known_addNetworkRoute hS henv hifp h) (hS.destination ifp hifp)
  unfold installRoute
  dsimp only
  split
  · next hptp =>
    rw [Bool.and_eq_true] at hptp
    exact known_addPtoptLocalrt hS hifp hptp.1 hadd
  · exact hadd

theorem known_addrouteforif (hS : Local P S) (henv : ∀ x ∈ env.ifnet, x ∈ S) (hifp : ifp ∈ S)
    (h : Known P t) : Known P (addrouteforif env ifp t) := by
  unfold addrouteforif
  split
  · split
    · exact h
    · exact known_installRoute hS henv hifp (known_rtdelete h)
  · exact known_installRoute hS henv hifp h

/-! ## Responses -/

theorem known_hearOurselves (hS : Local P S) (henv : ∀ x ∈ env.ifnet, x ∈ S) (hifp : ifp ∈ S)
    (h : Known P t) : Known P (hearOurselves env ifp src t) := by
  unfold hearOurselves
  split
  · exact known_addrouteforif hS henv hifp h
  · split
    · exact known_addrouteforif hS henv hifp h
    · exact known_setTimer h _

theorem known_restoreLink (hS : Local P S) (henv : ∀ x ∈ env.ifnet, x ∈ S) (h : Known P t)
    (found : Option RtEntry) : Known P (restoreLink env src found t) := by
  unfold restoreLink
  split
  · next hfound =>
    split
    · exact known_addrouteforif hS henv (henv _ (ifIfwithdstaddr_mem hfound)) h
    · exact h
  · exact h

theorem known_refreshSender (hS : Local P S) (henv : ∀ x ∈ env.ifnet, x ∈ S) (h : Known P t) :
    Known P (refreshSender env src t) := by
  unfold refreshSender
  split
  · split
    · exact known_setTimer h _
    · exact known_restoreLink hS henv h _
  · exact known_restoreLink hS henv h _

theorem Replaced.known {rt' : RtEntry} (hreplaced : Replaced t u rt rt') (h : Known P t)
    (hnew : P rt.dst rt'.metric) : Known P u := by
  intro e he
  rw [hreplaced.entries] at he
  obtain ⟨x, hx, rfl⟩ := List.mem_map.mp he
  split
  · rw [hreplaced.dst]
    exact hnew
  · exact h x hx

theorem Added.known (hadded : Added t u dst src metric) (h : Known P t) (hnew : P dst metric) :
    Known P u := by
  obtain ⟨rt, rfl, -, rfl, -, hentries⟩ := hadded
  intro e he
  rcases (hentries e).mp he with rfl | he
  · exact hnew
  · exact h e he

theorem Law.known (hlaw : Law env c src n t u) (h : Known P t)
    (hnew : Acceptable n → P n.dst (offered c n.metric)) : Known P u := by
  by_cases hacceptable : Acceptable n
  · have hoffered := hnew hacceptable
    cases hlookup : rtlookup env.ifnet t n.dst with
    | none =>
      by_cases hlearn : offered c n.metric < HOPCNT_INFINITY ∧
          ∀ rt, rtfind env.ifnet t n.dst = some rt → rt.router ≠ src
      · rcases hlaw.learned hacceptable hlookup hlearn.1 hlearn.2 with hadded | ⟨hentries, -⟩
        · exact hadded.known h hoffered
        · exact known_of_entries h hentries
      · rw [hlaw.covered hacceptable hlookup hlearn]
        exact h
    | some rt =>
      have hdst : rt.dst = n.dst := (rtlookup_mem hlookup).2
      rw [← hdst] at hoffered
      by_cases hinternal : rt.state.internal = true ∧ rt.state.interface = true
      · rcases hlaw.internal hacceptable rt hlookup hinternal with hentries | ⟨-, hadded⟩
        · exact known_of_entries h hentries
        · exact hadded.known h (hdst ▸ hoffered)
      · by_cases hsrc : rt.router = src
        · obtain ⟨rt', hreplaced, hmetric, -⟩ :=
            hlaw.gateway hacceptable rt hlookup hinternal hsrc
          exact hreplaced.known h (hmetric ▸ hoffered)
        · by_cases hpreferred : Preferred rt (offered c n.metric)
          · obtain ⟨rt', hreplaced, hmetric, -⟩ :=
              hlaw.preferred hacceptable rt hlookup hinternal hsrc hpreferred
            exact hreplaced.known h (hmetric ▸ hoffered)
          · rw [hlaw.rejected hacceptable rt hlookup hinternal hsrc hpreferred]
            exact h
  · rw [hlaw.ignored hacceptable]
    exact h

theorem Processed.known (hprocessed : Processed env c src nets t u) (h : Known P t)
    (hnew : ∀ n ∈ nets, Acceptable n → P n.dst (offered c n.metric)) : Known P u := by
  induction hprocessed with
  | nil t => exact h
  | @cons n nets t u v hlaw _ ih =>
    apply ih
    · exact hlaw.known h (hnew n List.mem_cons_self)
    · intro n' hn'
      exact hnew n' (List.mem_cons_of_mem n hn')

theorem known_ageTables (hS : Local P S) (supplier : Int) (h : Known P t) :
    Known P (ageTables env supplier t) := by
  intro e he
  obtain ⟨rt, hrt, hage⟩ := mem_ageTables he
  unfold ageEntry at hage
  dsimp only at hage
  split at hage
  · cases hage
  · cases hage
    dsimp only
    split
    · exact hS.infinity rt.dst
    · exact h rt hrt

/-! ## States -/

namespace Globals

variable {s w : Globals} {p : Platform}

structure Grounded (P : Sockaddr → Int → Prop) (S : Set Interface) (s : Globals) : Prop where
  routes : Known P s.tables
  packets : ∀ packet ∈ s.packets, ∀ n ∈ packet.nets, P n.dst n.metric
  interfaces : ∀ ifp ∈ s.ifnet, ifp ∈ S

theorem Grounded.with_tables (h : Grounded P S s) (ht : Known P t) :
    Grounded P S { s with tables := t } :=
  ⟨ht, h.packets, h.interfaces⟩

theorem Grounded.updates (h : Grounded P S s) (hupdates : Updates s w)
    (hifnet : w.ifnet = s.ifnet) : Grounded P S w := by
  obtain ⟨f, hf, hroutes⟩ := hupdates.routes
  obtain ⟨sent, hpackets, hsent⟩ := hupdates.packets
  refine ⟨?_, ?_, ?_⟩
  · intro e he
    rw [hroutes] at he
    obtain ⟨x, hx, rfl⟩ := List.mem_map.mp he
    obtain ⟨told, htold⟩ := hf x
    rw [htold]
    exact h.routes x hx
  · intro packet hpacket n hn
    rw [hpackets] at hpacket
    rcases List.mem_append.mp hpacket with hold | hnew
    · exact h.packets packet hold n hn
    · obtain ⟨e, he, rfl⟩ := hsent packet hnew n hn
      exact h.routes e he
  · rw [hifnet]
    exact h.interfaces

theorem toall_ifnet (changedOnly : Bool) (skipif : Option ℕ) (s : Globals) :
    (s.toall changedOnly skipif).ifnet = s.ifnet := by
  obtain ⟨tables, packets, hrest⟩ := (toall_sent changedOnly skipif s).rest
  rw [hrest]

theorem Grounded.sendDynamic (h : Grounded P S s) (skipif : Option ℕ) :
    Grounded P S (s.sendDynamic skipif) :=
  h.updates (sendDynamic_updates skipif s) (toall_ifnet true skipif s)

theorem Grounded.sendFull (h : Grounded P S s) : Grounded P S s.sendFull :=
  h.updates (sendFull_updates s) (toall_ifnet false none s)

theorem Grounded.inhibit (h : Grounded P S s) (random : ℕ) : Grounded P S (s.inhibit random) := by
  unfold Globals.inhibit
  split
  · exact ⟨h.routes, h.packets, h.interfaces⟩
  · exact h

theorem Grounded.dynamicUpdate (h : Grounded P S s) (random : ℕ) :
    Grounded P S (s.dynamicUpdate ifp random) := by
  unfold Globals.dynamicUpdate
  split
  · apply Grounded.inhibit
    split
    · exact h.sendDynamic _
    · exact ⟨h.routes, h.packets, h.interfaces⟩
  · exact h

/-! ## Interfaces come in -/

theorem Grounded.noteLoopback (hS : Local P S) (h : Grounded P S s) (addr : Sockaddr) :
    Grounded P S (s.noteLoopback p addr) := by
  have hfold (env : Env) (l : List Interface) (hl : ∀ x ∈ l, x ∈ S) :
      ∀ t, Known P t → Known P (l.foldl (fun t ifp =>
        if ifp.flags.pointopoint then addPtoptLocalrt env ifp t else t) t) := by
    induction l with
    | nil => exact fun t ht => ht
    | cons x l ih =>
      intro t ht
      apply ih (fun y hy => hl y (List.mem_cons_of_mem x hy))
      dsimp only
      split
      · next hptp => exact known_addPtoptLocalrt hS (hl x List.mem_cons_self) hptp ht
      · exact ht
  exact ⟨hfold _ s.ifnet h.interfaces s.tables h.routes, h.packets, h.interfaces⟩

theorem Grounded.attach (hS : Local P S) (h : Grounded P S s) (hifp : ifp ∈ S) :
    Grounded P S (s.attach p ifp) := by
  have hifnet : ∀ x ∈ (s.attach p ifp).ifnet, x ∈ S := by
    intro x hx
    change x ∈ (if s.ifnextAtHead then [ifp] else s.ifnet ++ [ifp]) at hx
    split at hx
    · rwa [List.mem_singleton.mp hx]
    · rcases List.mem_append.mp hx with hx | hx
      · exact h.interfaces x hx
      · rwa [List.mem_singleton.mp hx]
  exact ⟨known_addrouteforif hS hifnet hifp h.routes, h.packets, hifnet⟩

end Globals

/-- The interfaces that the kernel reports are among these, wherever they come to stand. -/
def Reports (S : Set Interface) (reqs : List Ifreq) : Prop :=
  ∀ r ∈ reqs, ∀ f netmask id, r.flags = some f → r.netmask = some netmask →
    newInterface id r f netmask ∈ S

namespace Globals

variable {s : Globals} {p : Platform}

theorem Grounded.ifinitEntry (hS : Local P S) (h : Grounded P S s) {r : Ifreq}
    (hr : ∀ f netmask id, r.flags = some f → r.netmask = some netmask →
      newInterface id r f netmask ∈ S) : Grounded P S (s.ifinitEntry p r) := by
  unfold Globals.ifinitEntry
  split
  · exact h
  · next f hf =>
    split
    · exact ⟨h.routes, h.packets, h.interfaces⟩
    · split
      · exact h
      · split
        · exact h
        · split
          · exact h
          · have hloop : Grounded P S
                (if f.loopback then s.noteLoopback p (sockaddrIn r.addr) else s) := by
              split
              · exact h.noteLoopback hS _
              · exact h
            dsimp only
            split
            · exact hloop
            · split
              · exact hloop
              · next netmask hnetmask => exact hloop.attach hS (hr f netmask _ hf hnetmask)

theorem Grounded.ifinit (hS : Local P S) (h : Grounded P S s) {reqs : List Ifreq}
    (hreqs : Reports S reqs) : Grounded P S (s.ifinit p reqs) := by
  have hfold (s : Globals) (h : Grounded P S s) :
      Grounded P S (reqs.foldl (Globals.ifinitEntry p) s) := by
    induction reqs generalizing s with
    | nil => exact h
    | cons r reqs ih =>
      apply ih
      · intro r' hr'
        exact hreqs r' (List.mem_cons_of_mem r hr')
      · exact h.ifinitEntry hS (hreqs r List.mem_cons_self)
  have hfound := hfold { s with lookforinterfaces := false }
    ⟨h.routes, h.packets, h.interfaces⟩
  unfold Globals.ifinit
  dsimp only
  split
  · exact ⟨hfound.routes, hfound.packets, hfound.interfaces⟩
  · exact hfound

/-! ## Events -/

theorem Grounded.aged (hS : Local P S) (h : Grounded P S s) :
    Grounded P S { s with tables := ageTables (s.env p none) s.supplier s.tables } :=
  h.with_tables (known_ageTables hS s.supplier h.routes)

theorem Grounded.timer (hS : Local P S) (h : Grounded P S s) (now : Timeval) {reqs : List Ifreq}
    (hreqs : Reports S reqs) : Grounded P S (s.timer p now reqs) := by
  have hnow : Grounded P S { s with now := now, faketime := s.faketime + TIMER_RATE } :=
    ⟨h.routes, h.packets, h.interfaces⟩
  have hcheck : Grounded P S
      ({ s with now := now, faketime := s.faketime + TIMER_RATE }.checkInterfaces p reqs) := by
    unfold checkInterfaces
    split
    · exact hnow.ifinit hS hreqs
    · exact hnow
  unfold Globals.timer
  dsimp only
  split
  · exact (hcheck.aged hS).sendFull
  · exact hcheck.aged hS

theorem Grounded.delayedUpdate (h : Grounded P S s) (now : Timeval) :
    Grounded P S (s.delayedUpdate now) := by
  have hnow : Grounded P S { s with now := now } := ⟨h.routes, h.packets, h.interfaces⟩
  unfold Globals.delayedUpdate
  split
  · exact hnow.sendDynamic none
  · exact h

/-- A response is heard whose entries, with the cost of the interface that it comes in through, have
the property. -/
theorem Grounded.hearRouter (hS : Local P S) (h : Grounded P S s) (random : ℕ)
    (hints : ∀ n ∈ nets, IsInt n.metric)
    (hnets : ∀ ifp, authenticated s.ifnet src = some ifp → ∀ n ∈ nets,
      P n.dst (offered ifp.metric n.metric)) : Grounded P S (s.hearRouter p random src nets) := by
  have hsender : Known P (refreshSender (s.env p ((ifIflookup s.ifnet src).map Interface.id)) src
      s.tables) := known_refreshSender hS h.interfaces h.routes
  unfold Globals.hearRouter
  dsimp only
  split
  · exact h.with_tables hsender
  · next ifp hifp =>
    have hcost := hS.cost ifp (h.interfaces ifp (authenticated_mem hifp))
    have hmetrics : MetricsOk (refreshSender (s.env p ((ifIflookup s.ifnet src).map Interface.id))
        src s.tables) := fun e he => hS.bounds e.dst e.metric (hsender e he)
    have hprocessed := (@foldl_ripNetinfo_law (s.env p ((ifIflookup s.ifnet src).map Interface.id))
      ifp src nets _ 0 hcost hmetrics hints).1
    have hheard := hprocessed.known hsender (fun n hn _ => hnets ifp hifp n hn)
    split
    · exact (h.with_tables hheard).dynamicUpdate random
    · exact h.with_tables hheard

theorem Grounded.ripInput (hS : Local P S) (h : Grounded P S s) (now : Timeval) (random : ℕ)
    {r : Response} (hints : ∀ n ∈ r.nets, IsInt n.metric)
    (hnets : ∀ ifp, authenticated s.ifnet (inetCanon r.src) = some ifp → ∀ n ∈ r.nets,
      P n.dst (offered ifp.metric n.metric)) : Grounded P S (s.ripInput p now random r) := by
  have hnow : Grounded P S { s with now := now } := ⟨h.routes, h.packets, h.interfaces⟩
  unfold Globals.ripInput
  dsimp only
  split
  · split
    · next ifp hifp =>
      split
      · exact hnow
      · apply hnow.with_tables
        have hmem := h.interfaces ifp (ifIfwithaddr_mem hifp)
        exact known_hearOurselves hS h.interfaces hmem h.routes
    · exact hnow.hearRouter hS random hints hnets
  · exact hnow

end Globals

/-! ## The network -/

/-- What a router is run with: its system, all interfaces that it may come to have, and the lines of
its file of gateways. -/
structure Site where
  platform : Platform
  interfaces : Set Interface
  gateways : List Gateway
  cost : ∀ ifp ∈ interfaces, 1 ≤ ifp.metric ∧ ifp.metric ≤ 15
  remote : ∀ g ∈ gateways, g.qual = .active → ∀ ifnet id, remoteInterface ifnet id g ∈ interfaces
  external : ∀ g ∈ gateways, g.qual = .external → 0 ≤ g.metric ∧ g.metric ≤ HOPCNT_INFINITY

/-- The destinations that a router has by itself: those of its interfaces, with the networks that
these are on and the near ends of links, those of the gateways in its file, and the default. -/
inductive Own (site : Site) : Sockaddr → Int → Prop where
  | destination {ifp : Interface} (h : ifp ∈ site.interfaces) :
    Own site (ifDestination ifp) ifp.metric
  | network {ifp : Interface} (h : ifp ∈ site.interfaces) {ifnet : List Interface}
    (hifnet : ∀ x ∈ ifnet, x ∈ site.interfaces) {d : Sockaddr}
    (hd : inetNetmatch ifnet d (netDestination ifp) = true) : Own site d ifp.metric
  | nearEnd {ifp : Interface} (h : ifp ∈ site.interfaces)
    (hptp : ifp.flags.pointopoint = true) : Own site ifp.addr 1
  | gateway {g : Gateway} (h : g ∈ site.gateways) (hqual : g.qual = .external) :
    Own site (sockaddrIn g.dst) (if g.metric = 0 then 1 else g.metric)
  | default : Own site inetDefault 1

/-- `addr` is the address of an interface, without its port. -/
def Site.sendsFrom (site : Site) (addr : Sockaddr) : Prop :=
  ∃ ifp ∈ site.interfaces, inetCanon ifp.addr = addr

/-- The first router believes the second one, over an interface of this cost. -/
def Link (site other : Site) (c : Int) : Prop :=
  ∃ addr ifnet ifp, other.sendsFrom addr ∧ (∀ x ∈ ifnet, x ∈ site.interfaces) ∧
    authenticated ifnet addr = some ifp ∧ ifp.metric = c

variable {ι : Type} (net : ι → Site)

/-- The metric is that of a destination out of reach, or the cost of a walk from the router to one
that has the destination by itself. -/
def Real (i : ι) (d : Sockaddr) (m : Int) : Prop :=
  Capped (fun i => Own (net i)) (fun i j => Link (net i) (net j)) HOPCNT_INFINITY i d m

/-- What happens in the network: the clock of a router ticks, an update that it has held off is due,
or it hears one of the packets that another has ever sent, number `k`. -/
inductive NetEvent (ι : Type) where
  | tick (i : ι) (now : Timeval) (reqs : List Ifreq)
  | expired (i : ι) (now : Timeval)
  | hear (i j : ι) (k : ℕ) (src : Sockaddr) (vers : UInt8) (now : Timeval) (random : ℕ)

def netStep [DecidableEq ι] (s : ι → Globals) : NetEvent ι → Option (ι → Globals)
  | .tick i now reqs =>
    some (Function.update s i ((s i).timer (net i).platform now reqs))
  | .expired i now => some (Function.update s i ((s i).delayedUpdate now))
  | .hear i j k src vers now random =>
    (s j).packets[k]?.map fun packet => Function.update s i
      ((s i).ripInput (net i).platform now random ⟨src, vers, packet.nets⟩)

/-- The kernel reports interfaces that the router may have, and a packet comes from an address of
its sender. -/
def Allowed (_ : ι → Globals) : NetEvent ι → Prop
  | .tick i _ reqs => Reports (net i).interfaces reqs
  | .expired _ _ => True
  | .hear _ j _ src _ _ _ => (net j).sendsFrom (inetCanon src)

def Started (site : Site) (s : Globals) : Prop :=
  ∃ supplier now reqs gateway, Reports site.interfaces reqs ∧
    s = Globals.startup site.platform supplier now reqs site.gateways gateway

variable {net} {i : ι}

theorem real_local (net : ι → Site) (i : ι) : Local (Real net i) (net i).interfaces where
  infinity d := capped_cap (by decide)
  bounds d m h := ⟨h.pos, h.le_cap⟩
  cost := (net i).cost
  destination ifp h := by
    have hcost := (net i).cost ifp h
    have h16 : HOPCNT_INFINITY = 16 := rfl
    exact capped_own (.destination h) (by omega) (by omega)
  network ifp h ifnet hifnet d hd := by
    have hcost := (net i).cost ifp h
    have h16 : HOPCNT_INFINITY = 16 := rfl
    exact capped_own (.network h hifnet hd) (by omega) (by omega)
  nearEnd ifp h hptp := capped_own (.nearEnd h hptp) (by decide) (by decide)

theorem real_offered {j : ι} {src : Sockaddr} {ifnet : List Interface} {ifp : Interface}
    (hsrc : (net j).sendsFrom src) (hifnet : ∀ x ∈ ifnet, x ∈ (net i).interfaces)
    (hifp : authenticated ifnet src = some ifp) {n : Netinfo} (h : Real net j n.dst n.metric) :
    Real net i n.dst (offered ifp.metric n.metric) := by
  have hcost := (net i).cost ifp (hifnet ifp (authenticated_mem hifp))
  have hlink : Link (net i) (net j) ifp.metric := ⟨src, ifnet, ifp, hsrc, hifnet, hifp, rfl⟩
  exact capped_hop hlink (by omega) h

namespace Globals

theorem gwkludge_grounded {s : Globals} (h : Grounded (Real net i) (net i).interfaces s)
    {g : Gateway} (hg : g ∈ (net i).gateways) :
    Grounded (Real net i) (net i).interfaces (s.gwkludgeEntry (net i).platform g) := by
  unfold gwkludgeEntry
  split
  · exact ⟨h.routes, h.packets, h.interfaces⟩
  · next hqual =>
    apply h.with_tables
    apply known_rtadd h.routes
    have hmetric := (net i).external g hg hqual
    apply capped_own (.gateway hg hqual)
    · split <;> omega
    · have h16 : HOPCNT_INFINITY = 16 := rfl
      split <;> omega
  · next hqual =>
    have hmem := (net i).remote g hg hqual s.ifnet s.nextIf
    have hifnet : ∀ x ∈ remoteInterface s.ifnet s.nextIf g :: s.ifnet,
        x ∈ (net i).interfaces := by
      intro x hx
      rcases List.mem_cons.mp hx with rfl | hx
      · exact hmem
      · exact h.interfaces x hx
    exact ⟨known_addrouteforif (real_local net i) hifnet hmem h.routes, h.packets, hifnet⟩

theorem grounded_of_started {s : Globals} (h : Started (net i) s) :
    Grounded (Real net i) (net i).interfaces s := by
  obtain ⟨supplier, now, reqs, gateway, hreqs, rfl⟩ := h
  have hboot : Grounded (Real net i) (net i).interfaces (boot supplier now) := by
    refine ⟨?_, ?_, ?_⟩
    · intro e he
      simp [boot, rtinit, Tables.entries, Chains.elements_nil] at he
    · intro packet hpacket
      exact absurd hpacket List.not_mem_nil
    · intro ifp hifp
      exact absurd hifp List.not_mem_nil
  have hifinit := hboot.ifinit (p := (net i).platform) (real_local net i) hreqs
  have hdefault (s : Globals) (h : Grounded (Real net i) (net i).interfaces s) :
      Grounded (Real net i) (net i).interfaces
        { s with tables := rtdefault (s.env (net i).platform none) s.tables } :=
    h.with_tables (known_rtadd h.routes (capped_own .default (by decide) (by decide)))
  have hfold (l : List Gateway) (hl : ∀ g ∈ l, g ∈ (net i).gateways) :
      ∀ s, Grounded (Real net i) (net i).interfaces s →
        Grounded (Real net i) (net i).interfaces
          (l.foldl (gwkludgeEntry (net i).platform) s) := by
    induction l with
    | nil => exact fun s hs => hs
    | cons g l ih =>
      intro s hs
      apply ih (fun g' hg' => hl g' (List.mem_cons_of_mem g hg'))
      exact gwkludge_grounded hs (hl g List.mem_cons_self)
  have hgateways := hfold (net i).gateways (fun g hg => hg) _ hifinit
  unfold startup
  dsimp only
  split
  · have hadded := hdefault _ hgateways
    split
    · exact ⟨hadded.routes, hadded.packets, hadded.interfaces⟩
    · exact hadded
  · split
    · exact ⟨hgateways.routes, hgateways.packets, hgateways.interfaces⟩
    · exact hgateways

end Globals

variable [DecidableEq ι]

theorem grounded_step {s t : ι → Globals} {e : NetEvent ι}
    (h : ∀ i, (s i).Grounded (Real net i) (net i).interfaces) (hallowed : Allowed net s e)
    (hstep : netStep net s e = some t) :
    ∀ i, (t i).Grounded (Real net i) (net i).interfaces := by
  have hupdate (i : ι) (g : Globals) (hg : g.Grounded (Real net i) (net i).interfaces) :
      ∀ k, ((Function.update s i g) k).Grounded (Real net k) (net k).interfaces := by
    intro k
    by_cases hk : k = i
    · subst hk
      rwa [Function.update_self]
    · rw [Function.update_of_ne hk]
      exact h k
  cases e with
  | tick i now reqs =>
    cases hstep
    exact hupdate i _ ((h i).timer (real_local net i) now hallowed)
  | expired i now =>
    cases hstep
    exact hupdate i _ ((h i).delayedUpdate now)
  | hear i j k src vers now random =>
    obtain ⟨packet, hpacket, rfl⟩ := Option.map_eq_some_iff.mp hstep
    have hmem := List.mem_of_getElem? hpacket
    have hreal := (h j).packets packet hmem
    apply hupdate
    apply (h i).ripInput (real_local net i)
    · intro n hn
      have hpos := (hreal n hn).pos
      have hle := (hreal n hn).le_cap
      have h16 : HOPCNT_INFINITY = 16 := rfl
      exact ⟨by omega, by omega⟩
    · intro ifp hifp n hn
      exact real_offered hallowed (h i).interfaces hifp (hreal n hn)

/-- However the packets are lost, repeated, delayed and reordered: what the routers know and what
they tell each other are the costs of walks through the network. -/
theorem routes_real {s t : ι → Globals} {es : List (NetEvent ι)}
    (hstart : ∀ i, Started (net i) (s i)) (hallowed : Steps (Allowed net) (netStep net) s es)
    (hrun : run (netStep net) s es = some t) (i : ι) :
    (∀ rt ∈ (t i).tables.entries, Real net i rt.dst rt.metric) ∧
      ∀ packet ∈ (t i).packets, ∀ n ∈ packet.nets, Real net i n.dst n.metric := by
  have hgrounded := steps_reached (I := fun s : ι → Globals =>
    ∀ i, (s i).Grounded (Real net i) (net i).interfaces)
    (fun s e t h hok hstep => grounded_step h hok hstep)
    (fun i => Globals.grounded_of_started (hstart i)) hallowed
    ⟨es, List.prefix_refl es, hrun⟩
  exact ⟨(hgrounded i).routes, (hgrounded i).packets⟩

/-- 192.168.1.1 and 192.168.1.2 on one network, the first one on the network 10.0.0.0 too. -/
def twoReqs : Bool → List Ifreq
  | false => [ether 0xc0a80101 0xffffff00 0xc0a801ff, ether 0x0a000001 0xff000000 0x0affffff]
  | true => [ether 0xc0a80102 0xffffff00 0xc0a801ff]

def twoRouters (i : Bool) : Site where
  platform := linux
  interfaces := { ifp | ∃ r ∈ twoReqs i, ∃ f netmask id, r.flags = some f ∧
    r.netmask = some netmask ∧ ifp = newInterface id r f netmask }
  gateways := []
  cost := by
    rintro ifp ⟨r, hr, f, netmask, id, -, -, rfl⟩
    have hnone : r.metric = none := by
      cases i
      · rcases List.mem_pair.mp hr with rfl | rfl
        · rfl
        · rfl
      · rw [List.mem_singleton.mp hr]
        rfl
    change 1 ≤ r.metric.getD 0 + 1 ∧ r.metric.getD 0 + 1 ≤ 15
    rw [hnone]
    decide
  remote := fun _ hg => absurd hg List.not_mem_nil
  external := fun _ hg => absurd hg List.not_mem_nil

def twoStarted (i : Bool) : Globals := .startup linux 1 ⟨1000, 0⟩ (twoReqs i) [] false

theorem routes_real_two : ∃ t, run (netStep twoRouters) twoStarted
      [.tick false ⟨1030, 0⟩ [],
        .hear true false 0 { sockaddrIn 0xc0a80101 with port := 520 } 1 ⟨1031, 0⟩ 0] = some t ∧
    (∃ rt ∈ (t true).tables.entries, rt.dst = sockaddrIn 0x0a000000 ∧ rt.metric = 2) ∧
    (∀ rt ∈ (t true).tables.entries, Real twoRouters true rt.dst rt.metric) ∧
      ∀ packet ∈ (t true).packets, ∀ n ∈ packet.nets, Real twoRouters true n.dst n.metric := by
  have hlearned : ((run (netStep twoRouters) twoStarted
      [.tick false ⟨1030, 0⟩ [],
        .hear true false 0 { sockaddrIn 0xc0a80101 with port := 520 } 1 ⟨1031, 0⟩ 0]).any
      (fun t => (t true).tables.entries.any
        (fun rt => rt.dst == sockaddrIn 0x0a000000 && rt.metric == 2))) = true := by
    decide +kernel
  obtain ⟨t, ht, hany⟩ := (Option.any_eq_true _ _).mp hlearned
  obtain ⟨rt, hrt, hmetric⟩ := List.any_eq_true.mp hany
  have hreports (i : Bool) : Reports (twoRouters i).interfaces (twoReqs i) :=
    fun r hr f netmask id hf hnetmask => ⟨r, hr, f, netmask, id, hf, hnetmask, rfl⟩
  have hstarted (i : Bool) : Started (twoRouters i) (twoStarted i) :=
    ⟨1, ⟨1000, 0⟩, twoReqs i, false, hreports i, rfl⟩
  have hsource : (twoRouters false).sendsFrom (sockaddrIn 0xc0a80101) :=
    ⟨newInterface 0 (ether 0xc0a80101 0xffffff00 0xc0a801ff) { broadcast := true } 0xffffff00,
      ⟨_, List.mem_cons_self, _, _, 0, rfl, rfl, rfl⟩, rfl⟩
  have hallowed : Steps (Allowed twoRouters) (netStep twoRouters) twoStarted
      [.tick false ⟨1030, 0⟩ [],
        .hear true false 0 { sockaddrIn 0xc0a80101 with port := 520 } 1 ⟨1031, 0⟩ 0] :=
    ⟨fun _ hr => absurd hr List.not_mem_nil, fun _ _ => ⟨hsource, fun _ _ => trivial⟩⟩
  have hreal := routes_real hstarted hallowed ht true
  simp only [Bool.and_eq_true, beq_iff_eq] at hmetric
  exact ⟨t, ht, ⟨rt, hrt, hmetric⟩, hreal.1, hreal.2⟩

end Netkit.Routed

import Netkit.Routed.Main

/-!
# Routes that are maintained by others

A route with `RTS_EXTERNAL` is in the tables only to prevent routed from overriding it with
something else, and `rtadd` and `rtdelete` leave the kernel alone for it. `rtchange` does not:
it asks for `RTS_INTERNAL` only. So a response that offers a better metric takes the route over,
and so does one of its own gateway with another metric.

* `external_untouched`: in a run of such events the route is spared.
* `external_taken_over`: a response changes the route and the kernel's.
-/

namespace Netkit.Routed

open Netkit.Foundations

/-- A route as `gwkludge` makes it for an external gateway. -/
structure External (x : RtEntry) : Prop where
  family : x.dst.family = AF_INET
  external : x.state.external = true
  passive : x.state.passive = true
  internal : x.state.internal = false
  timer : x.timer ≤ EXPIRE_TIME / 2

def RtEntry.Remains (x e : RtEntry) : Prop :=
  ∃ timer changed told, timer ≤ EXPIRE_TIME / 2 ∧
    e = { x with timer := timer, changed := changed, told := told }

/-- The route `x` in the tables, when the requests `old` had been made before. -/
structure Spared (x : RtEntry) (old : List Ioctl) (t : Tables) : Prop where
  present : ∃ e ∈ t.entries, x.Remains e
  only : ∀ e ∈ t.entries, e.dst = x.dst → e.id = x.id
  quiet : ∃ new, t.ioctls = old ++ new ∧ ∀ i ∈ new, i.dst ≠ x.dst

/-- The search for `dst` stops at the route `x`, unless it finds another before. -/
def Matches (ifnet : List Interface) (x : RtEntry) (dst : Sockaddr) : Prop :=
  x.dst = dst ∨ (x.host = false ∧ inetNetmatch ifnet x.dst dst = true)

instance (ifnet : List Interface) (x : RtEntry) (dst : Sockaddr) :
    Decidable (Matches ifnet x dst) :=
  inferInstanceAs (Decidable (_ ∨ _))

section Tables

variable {x rt e : RtEntry} {old : List Ioctl} {t : Tables} {env : Env} {dst gate : Sockaddr}
  {metric : Int} {state : RtState}

theorem rtfind_matches {ifnet : List Interface} (h : rtfind ifnet t dst = some rt) :
    Matches ifnet rt dst := by
  unfold rtfind at h
  split at h
  · simp only at h
    split at h
    · rename_i found hfound
      cases h
      have hp := List.find?_some hfound
      simp only [Bool.and_eq_true, beq_iff_eq] at hp
      exact Or.inl hp.2
    · have hp := List.find?_some h
      simp only [Bool.and_eq_true, beq_iff_eq] at hp
      exact Or.inr ⟨t.wellFormed.nets rt (Chains.mem_elements.mpr
        ⟨_, List.mem_of_find?_eq_some h⟩), hp.2.2⟩
  · cases h

theorem Spared.entry (h : Spared x old t) (he : e ∈ t.entries) (hid : e.id = x.id) :
    x.Remains e := by
  obtain ⟨y, hy, timer, changed, told, htimer, rfl⟩ := h.present
  rw [entry_eq he hy hid]
  exact ⟨timer, changed, told, htimer, rfl⟩

theorem Spared.other {ifnet : List Interface} (h : Spared x old t)
    (hfind : rtfind ifnet t dst = some rt) (hno : ¬ Matches ifnet x dst) : rt.id ≠ x.id := by
  intro hid
  obtain ⟨timer, changed, told, -, rfl⟩ := h.entry (rtfind_mem hfind) hid
  have hmatches := rtfind_matches hfind
  exact hno hmatches

theorem Spared.dst_ne (h : Spared x old t) (he : e ∈ t.entries) (hid : e.id ≠ x.id) :
    e.dst ≠ x.dst := fun hdst => hid (h.only e he hdst)

theorem Spared.rtadd (h : Spared x old t) (hdst : dst ≠ x.dst) :
    Spared x old (rtadd env dst gate metric state t) := by
  refine ⟨?_, ?_, ?_⟩
  · obtain ⟨e, he, hremains⟩ := h.present
    exact ⟨e, entries_rtadd he, hremains⟩
  · intro e he hedst
    rcases mem_rtadd he with rfl | he
    · exact absurd hedst hdst
    · exact h.only e he hedst
  · obtain ⟨new, hnew, hquiet⟩ := h.quiet
    have hmore : ∀ i ∈ new ++ [rtioctl env .add (newEntry env t.next dst gate metric state)],
        i.dst ≠ x.dst := by
      intro i hi
      rcases List.mem_append.mp hi with hi | hi
      · exact hquiet i hi
      · rw [List.mem_singleton.mp hi]
        exact hdst
    have hinsque : ∀ {rt : RtEntry} (hid : rt.id = t.next), (t.insque rt hid).ioctls = t.ioctls := by
      intro rt hid
      unfold Tables.insque
      split <;> rfl
    unfold Routed.rtadd
    split
    · simp only
      split
      · exact ⟨new, (hinsque rfl).trans hnew, hquiet⟩
      · split
        · exact ⟨_, by rw [hnew, List.append_assoc], hmore⟩
        · exact ⟨_, by rw [hnew, List.append_assoc], hmore⟩
    · exact ⟨new, hnew, hquiet⟩

theorem Spared.rtdelete (h : Spared x old t) (hrt : rt ∈ t.entries) (hid : rt.id ≠ x.id) :
    Spared x old (rtdelete env rt t) := by
  refine ⟨?_, ?_, ?_⟩
  · obtain ⟨e, he, timer, changed, told, htimer, rfl⟩ := h.present
    refine ⟨_, ?_, timer, changed, told, htimer, rfl⟩
    rw [entries_rtdelete]
    exact List.mem_filterMap.mpr ⟨_, he, if_neg (Ne.symm hid)⟩
  · intro e he
    exact h.only e (mem_rtdelete he).1
  · obtain ⟨new, hnew, hquiet⟩ := h.quiet
    refine ⟨new ++ deleteIoctls env rt, ?_, ?_⟩
    · rw [← List.append_assoc, ← hnew]
      rfl
    · intro i hi
      rcases List.mem_append.mp hi with hi | hi
      · exact hquiet i hi
      · unfold deleteIoctls at hi
        split at hi
        · rw [List.mem_singleton.mp hi]
          exact h.dst_ne hrt hid
        · exact absurd hi List.not_mem_nil

theorem changeIoctls_dst {i : Ioctl} (hi : i ∈ changeIoctls env gate metric rt) :
    i.dst = rt.dst := by
  unfold changeIoctls at hi
  rcases List.mem_append.mp hi with hi | hi
  · split at hi
    · rw [List.mem_singleton.mp hi]
      rfl
    · exact absurd hi List.not_mem_nil
  · split at hi
    · rw [List.mem_singleton.mp hi]
      rfl
    · exact absurd hi List.not_mem_nil

theorem Spared.rtchange (h : Spared x old t) (hrt : rt ∈ t.entries) (hid : rt.id ≠ x.id) :
    Spared x old (rtchange env rt gate metric t) := by
  refine ⟨?_, ?_, ?_⟩
  · obtain ⟨e, he, timer, changed, told, htimer, rfl⟩ := h.present
    refine ⟨_, ?_, timer, changed, told, htimer, rfl⟩
    rw [entries_rtchange]
    exact List.mem_map.mpr ⟨_, he, if_neg (Ne.symm hid)⟩
  · intro e he hdst
    obtain ⟨y, hy, rfl | rfl⟩ := mem_rtchange he
    · exact h.only e hy hdst
    · exact h.only y hy hdst
  · obtain ⟨new, hnew, hquiet⟩ := h.quiet
    refine ⟨new ++ changeIoctls env gate metric rt, ?_, ?_⟩
    · rw [← List.append_assoc, ← hnew]
      rfl
    · intro i hi
      rcases List.mem_append.mp hi with hi | hi
      · exact hquiet i hi
      · rw [changeIoctls_dst hi]
        exact h.dst_ne hrt hid

theorem Spared.setTimer (h : Spared x old t) {timer : RtEntry → Int}
    (htimer : ∀ e, timer e ≤ EXPIRE_TIME / 2) : Spared x old (setTimer rt timer t) := by
  refine ⟨?_, ?_, h.quiet⟩
  · obtain ⟨e, he, time, changed, told, htime, rfl⟩ := h.present
    rw [Routed.setTimer, entries_modify]
    by_cases hid : x.id = rt.id
    · exact ⟨_, List.mem_map.mpr ⟨_, he, if_pos hid⟩, _, changed, told, htimer _, rfl⟩
    · exact ⟨_, List.mem_map.mpr ⟨_, he, if_neg hid⟩, time, changed, told, htime, rfl⟩
  · intro e he hdst
    rw [Routed.setTimer, entries_modify] at he
    obtain ⟨y, hy, rfl⟩ := List.mem_map.mp he
    split at hdst
    · rename_i hid
      rw [if_pos hid]
      exact h.only y hy hdst
    · rename_i hid
      rw [if_neg hid]
      exact h.only y hy hdst

/-! ## The routes of an interface -/

/-- The routes of the interface `ifp` keep away from the route `x`. -/
structure Clear (ifnet : List Interface) (x : RtEntry) (ifp : Interface) : Prop where
  own : ¬ Matches ifnet x (ifDestination ifp)
  network : ifp.flags.subnet = true → ifp.flags.pointopoint = false →
    ¬ Matches ifnet x (sockaddrIn (inetMakeaddr ifp.net))
  nearEnd : ifp.flags.pointopoint = true → ¬ Matches ifnet x ifp.addr

instance (ifnet : List Interface) (x : RtEntry) (ifp : Interface) :
    Decidable (Clear ifnet x ifp) :=
  decidable_of_iff (¬ Matches ifnet x (ifDestination ifp) ∧
      (ifp.flags.subnet = true → ifp.flags.pointopoint = false →
        ¬ Matches ifnet x (sockaddrIn (inetMakeaddr ifp.net))) ∧
      (ifp.flags.pointopoint = true → ¬ Matches ifnet x ifp.addr))
    ⟨fun ⟨h₁, h₂, h₃⟩ => ⟨h₁, h₂, h₃⟩, fun ⟨h₁, h₂, h₃⟩ => ⟨h₁, h₂, h₃⟩⟩

variable {ifp : Interface}

theorem ne_of_not_matches {ifnet : List Interface} (h : ¬ Matches ifnet x dst) : dst ≠ x.dst :=
  fun heq => h (Or.inl heq.symm)

theorem addPtoptLocalrt_spared (h : Spared x old t) (hno : ¬ Matches env.ifnet x ifp.addr) :
    Spared x old (addPtoptLocalrt env ifp t) := by
  have hne := ne_of_not_matches hno
  unfold addPtoptLocalrt
  simp only
  split
  · rename_i rt hrt
    split
    · exact h
    · exact (h.rtdelete (rtfind_mem hrt) (h.other hrt hno)).rtadd hne
  · exact h.rtadd hne

theorem addNetworkRoute_spared (h : Spared x old t) (hclear : Clear env.ifnet x ifp) :
    Spared x old (addNetworkRoute env ifp t) := by
  unfold addNetworkRoute
  split
  · rename_i hsubnet
    simp only [Bool.and_eq_true, Bool.not_eq_true'] at hsubnet
    have hno := hclear.network hsubnet.1 hsubnet.2
    simp only
    split
    · exact h.rtadd (ne_of_not_matches hno)
    · rename_i rt hrt
      split
      · exact h.rtchange (rtfind_mem hrt) (h.other hrt hno)
      · exact h
  · exact h

theorem installRoute_spared (h : Spared x old t) (hclear : Clear env.ifnet x ifp) :
    Spared x old (installRoute env ifp t) := by
  have hadd : Spared x old (rtadd env (ifDestination ifp) ifp.addr ifp.metric (ifState ifp)
      (addNetworkRoute env ifp t)) :=
    (addNetworkRoute_spared h hclear).rtadd (ne_of_not_matches hclear.own)
  unfold installRoute
  simp only
  split
  · rename_i hptp
    simp only [Bool.and_eq_true] at hptp
    exact addPtoptLocalrt_spared hadd (hclear.nearEnd hptp.1)
  · exact hadd

theorem addrouteforif_spared (h : Spared x old t) (hclear : Clear env.ifnet x ifp) :
    Spared x old (addrouteforif env ifp t) := by
  unfold addrouteforif
  split
  · rename_i rt hrt
    split
    · exact h
    · exact installRoute_spared (h.rtdelete (rtfind_mem hrt) (h.other hrt hclear.own)) hclear
  · exact installRoute_spared h hclear

/-! ## A response -/

/-- The key of the route is the one that a search computes. -/
structure IsFound (ifnet : List Interface) (x : RtEntry) : Prop where
  host : x.host = true → x.hash = (inetHash ifnet x.dst).hosthash
  net : x.host = false → x.hash = (inetHash ifnet x.dst).nethash

instance (ifnet : List Interface) (x : RtEntry) : Decidable (IsFound ifnet x) :=
  decidable_of_iff ((x.host = true → x.hash = (inetHash ifnet x.dst).hosthash) ∧
      (x.host = false → x.hash = (inetHash ifnet x.dst).nethash))
    ⟨fun ⟨h₁, h₂⟩ => ⟨h₁, h₂⟩, fun ⟨h₁, h₂⟩ => ⟨h₁, h₂⟩⟩

/-- An offer for the route `x` that is turned down: the gateway repeats its metric, or another
one is no better. -/
def Declined (src : Sockaddr) (x : RtEntry) (metric : Int) : Prop :=
  if src = x.router then metric = x.metric else unsigned x.metric ≤ unsigned metric

instance (src : Sockaddr) (x : RtEntry) (metric : Int) : Decidable (Declined src x metric) := by
  unfold Declined
  infer_instance

variable {src : Sockaddr} {st : Tables × ℕ}

theorem learnRoute_spared (h : Spared x old st.1) (hdst : dst ≠ x.dst) :
    Spared x old (learnRoute env src dst metric st).1 := by
  unfold learnRoute
  split
  · split
    · split
      · exact h
      · exact h.rtadd hdst
    · exact h.rtadd hdst
  · exact h

theorem freshTimer_le_half (rt : RtEntry) : freshTimer rt ≤ EXPIRE_TIME / 2 :=
  le_trans (freshTimer_le rt) (by decide)

theorem zero_le_half : (0 : Int) ≤ EXPIRE_TIME / 2 := by decide

theorem updateRoute_spared (h : Spared x old st.1) (hrt : rt ∈ st.1.entries)
    (hid : rt.id ≠ x.id) : Spared x old (updateRoute env src metric rt st).1 := by
  unfold updateRoute
  split
  · split
    · exact (h.rtchange hrt hid).setTimer freshTimer_le_half
    · split
      · exact h.setTimer (fun _ => zero_le_half)
      · exact h
  · split
    · exact (h.rtchange hrt hid).setTimer (fun _ => zero_le_half)
    · exact h

theorem updateRoute_declined (h : Spared x old st.1) (hrt : x.Remains rt)
    (hdeclined : Declined src x metric) : Spared x old (updateRoute env src metric rt st).1 := by
  obtain ⟨timer, changed, told, htimer, rfl⟩ := hrt
  unfold Declined at hdeclined
  unfold updateRoute
  split
  · rename_i hsrc
    rw [if_pos hsrc] at hdeclined
    rw [if_neg (not_not.mpr hdeclined)]
    split
    · exact h.setTimer (fun _ => zero_le_half)
    · exact h
  · rename_i hsrc
    rw [if_neg hsrc] at hdeclined
    have htakes : takesOver metric
        { x with timer := timer, changed := changed, told := told } = false := by
      have h₁ : ¬ unsigned metric < unsigned x.metric := not_lt.mpr hdeclined
      have h₂ : ¬ timer > EXPIRE_TIME / 2 := not_lt.mpr htimer
      simp [takesOver, h₁, h₂]
    rw [htakes]
    exact h

theorem ripNetinfo_spared (hx : External x) (h : Spared x old st.1) {n : Netinfo}
    (hn : isSound n = true → n.dst = x.dst →
      IsFound env.ifnet x ∧ Declined src x (adjustMetric ifp n.metric)) :
    Spared x old (ripNetinfo env ifp src st n).1 := by
  unfold ripNetinfo
  split
  · rename_i hsound
    by_cases hdst : n.dst = x.dst
    · obtain ⟨hfound, hdeclined⟩ := hn hsound hdst
      obtain ⟨e, he, hremains⟩ := h.present
      have hsome : rtlookup env.ifnet st.1 n.dst ≠ none := by
        obtain ⟨timer, changed, told, -, rfl⟩ := hremains
        rw [hdst]
        exact rtlookup_isSome
          (e := { x with timer := timer, changed := changed, told := told }) he hx.family
          hfound.host hfound.net
      obtain ⟨rt, hrt⟩ := Option.ne_none_iff_exists'.mp hsome
      obtain ⟨hmem, hrtdst⟩ := rtlookup_mem hrt
      have hrt' := h.entry hmem (h.only rt hmem (hrtdst.trans hdst))
      unfold ripEntry
      rw [hrt]
      simp only
      rw [if_neg]
      · exact updateRoute_declined h hrt' hdeclined
      · obtain ⟨timer, changed, told, -, rfl⟩ := hrt'
        simp [hx.internal]
    · unfold ripEntry
      split
      · exact learnRoute_spared h hdst
      · rename_i rt hrt
        obtain ⟨hmem, hrtdst⟩ := rtlookup_mem hrt
        have hid : rt.id ≠ x.id := by
          intro hid
          obtain ⟨timer, changed, told, -, rfl⟩ := h.entry hmem hid
          exact hdst hrtdst.symm
        split
        · split
          · exact h
          · exact learnRoute_spared h hdst
        · exact updateRoute_spared h hmem hid
  · exact h

theorem ripNets_spared (hx : External x) {nets : List Netinfo}
    (hnets : ∀ n ∈ nets, isSound n = true → n.dst = x.dst →
      IsFound env.ifnet x ∧ Declined src x (adjustMetric ifp n.metric)) (h : Spared x old t) :
    Spared x old (ripNets env ifp src nets t).1 := by
  have hfold : ∀ (nets : List Netinfo) (st : Tables × ℕ),
      (∀ n ∈ nets, isSound n = true → n.dst = x.dst →
        IsFound env.ifnet x ∧ Declined src x (adjustMetric ifp n.metric)) →
      Spared x old st.1 → Spared x old (nets.foldl (ripNetinfo env ifp src) st).1 := by
    intro nets
    induction nets with
    | nil => exact fun _ _ h => h
    | cons n nets ih =>
      intro st hnets h
      rw [List.foldl_cons]
      exact ih _ (fun m hm => hnets m (List.mem_cons_of_mem _ hm))
        (ripNetinfo_spared hx h (hnets n List.mem_cons_self))
  exact hfold nets (t, 0) hnets h

/-- The interface whose routes are put back when a response from `src` is heard. -/
def putBack (ifnet : List Interface) (t : Tables) (src : Sockaddr) : Option Interface :=
  match ifIfwithaddr ifnet src with
  | some ifp =>
    if (rtfind ifnet t src).all (fun rt => !rt.state.interface && decide (rt.metric ≥ ifp.metric))
    then some ifp else none
  | none =>
    if (rtfind ifnet t src).all (fun rt => !(rt.state.interface || rt.state.remote)) then
      (ifIfwithdstaddr ifnet src).filter (fun ifp =>
        (rtfind ifnet t src).all (fun rt => decide (rt.metric ≥ ifp.metric)))
    else none

theorem hearOurselves_spared (h : Spared x old t)
    (hifp : ifIfwithaddr env.ifnet src = some ifp)
    (hclear : ∀ i ∈ putBack env.ifnet t src, Clear env.ifnet x i) :
    Spared x old (hearOurselves env ifp src t) := by
  simp only [putBack, hifp] at hclear
  unfold hearOurselves
  split
  · rename_i hrt
    rw [hrt] at hclear
    exact addrouteforif_spared h (hclear ifp (by simp))
  · rename_i rt hrt
    rw [hrt] at hclear
    split
    · rename_i hgone
      exact addrouteforif_spared h (hclear ifp (by simpa using hgone))
    · exact h.setTimer (fun _ => zero_le_half)

theorem refreshSender_spared (h : Spared x old t) (hown : ifIfwithaddr env.ifnet src = none)
    (hclear : ∀ i ∈ putBack env.ifnet t src, Clear env.ifnet x i) :
    Spared x old (refreshSender env src t) := by
  simp only [putBack, hown] at hclear
  unfold refreshSender restoreLink
  split
  · rename_i rt hrt
    rw [hrt] at hclear
    split
    · exact h.setTimer (fun _ => zero_le_half)
    · rename_i hlost
      split
      · rename_i ifp hifp
        rw [hifp] at hclear
        split
        · rename_i hmetric
          apply addrouteforif_spared h
          apply hclear ifp
          simp only [Option.all_some] at hmetric ⊢
          simp only [Bool.not_eq_true] at hlost
          simp [hlost, hmetric, Option.filter]
        · exact h
      · exact h
  · rename_i hrt
    rw [hrt] at hclear
    split
    · rename_i ifp hifp
      rw [hifp] at hclear
      split
      · apply addrouteforif_spared h
        apply hclear ifp
        simp [Option.filter]
      · exact h
    · exact h

end Tables

/-! ## Updates and ticks -/

section Ticks

variable {x : RtEntry} {old : List Ioctl} {s : Globals} {p : Platform} {t : Tables}

theorem Spared.map (h : Spared x old t) {f : RtEntry → RtEntry} (hf : ∀ e, Stays e (f e))
    (hdst : ∀ e, (f e).dst = e.dst)
    (hx : ∀ e, x.Remains e → x.Remains (f e)) : Spared x old (t.map f hf) := by
  refine ⟨?_, ?_, h.quiet⟩
  · obtain ⟨e, he, hremains⟩ := h.present
    refine ⟨f e, ?_, hx e hremains⟩
    rw [entries_map]
    exact List.mem_map_of_mem he
  · intro e he hedst
    rw [entries_map] at he
    obtain ⟨y, hy, rfl⟩ := List.mem_map.mp he
    rw [(hf y).id]
    exact h.only y hy ((hdst y).symm.trans hedst)

theorem toall_spared (h : Spared x old s.tables) (changedOnly : Bool) (skipif : Option ℕ) :
    Spared x old (s.toall changedOnly skipif).tables := by
  have hentry : ∀ (s : Globals) (ifp : Interface), Spared x old s.tables →
      Spared x old (Globals.toallEntry changedOnly skipif s ifp).tables := by
    intro s ifp h
    unfold Globals.toallEntry
    split
    · exact h
    · apply Spared.map h (toldBy_inPlace ifp (Globals.toallDst ifp) _)
      · intro e
        unfold toldBy
        split <;> rfl
      · rintro e ⟨timer, changed, told, htimer, rfl⟩
        unfold toldBy
        split
        · exact ⟨timer, changed, _, htimer, rfl⟩
        · exact ⟨timer, changed, told, htimer, rfl⟩
  have hfold : ∀ (l : List Interface) (s : Globals), Spared x old s.tables →
      Spared x old (l.foldl (Globals.toallEntry changedOnly skipif) s).tables := by
    intro l
    induction l with
    | nil => exact fun _ h => h
    | cons ifp l ih => exact fun s h => ih _ (hentry s ifp h)
  exact hfold s.ifnet s h

theorem clear_spared (h : Spared x old s.tables) : Spared x old s.clearNeedupdate.tables := by
  apply Spared.map (f := fun rt => { rt with told := none }) h (fun _ => ⟨rfl, rfl, rfl⟩)
    (fun _ => rfl)
  rintro e ⟨timer, changed, told, htimer, rfl⟩
  exact ⟨timer, changed, none, htimer, rfl⟩

theorem sendDynamic_spared (h : Spared x old s.tables) (skipif : Option ℕ) :
    Spared x old (s.sendDynamic skipif).tables :=
  clear_spared (s := { s.toall true skipif with lastbcast := s.now })
    (toall_spared h true skipif)

theorem sendFull_spared (h : Spared x old s.tables) : Spared x old s.sendFull.tables :=
  clear_spared (s := { s.toall false none with lastbcast := s.now, lastfullupdate := s.now })
    (toall_spared h false none)

theorem inhibit_tables (s : Globals) (random : ℕ) : (s.inhibit random).tables = s.tables := by
  unfold Globals.inhibit
  split <;> rfl

theorem dynamicUpdate_spared (h : Spared x old s.tables) (ifp : Interface) (random : ℕ) :
    Spared x old (s.dynamicUpdate ifp random).tables := by
  unfold Globals.dynamicUpdate
  split
  · rw [inhibit_tables]
    split
    · exact sendDynamic_spared h _
    · exact h
  · exact h

theorem ageEntry_remains (hx : External x) {env : Env} {supplier : Int} {e : RtEntry}
    (he : x.Remains e) :
    (∃ y, ageEntry env supplier e = some y ∧ x.Remains y) ∧ ageIoctls env supplier e = [] := by
  obtain ⟨timer, changed, told, htimer, rfl⟩ := he
  have hadvanced : advanced supplier { x with timer := timer, changed := changed, told := told } =
      timer := by simp [advanced, hx.passive]
  have hhalf : EXPIRE_TIME / 2 < EXPIRE_TIME := by decide
  have hgarbage : EXPIRE_TIME / 2 < GARBAGE_TIME := by decide
  have h₁ : ¬ timer ≥ GARBAGE_TIME := by omega
  have h₂ : ¬ (timer ≥ EXPIRE_TIME ∧ x.metric < HOPCNT_INFINITY) := by omega
  constructor
  · refine ⟨{ x with timer := timer, changed := false, told := told }, ?_,
      timer, false, told, htimer, rfl⟩
    simp only [ageEntry, hadvanced, if_neg h₁, if_neg h₂]
  · simp only [ageIoctls, hadvanced, if_neg h₁, if_neg h₂]

theorem ageEntry_dst {env : Env} {supplier : Int} {e y : RtEntry}
    (h : ageEntry env supplier e = some y) : y.dst = e.dst := by
  unfold ageEntry at h
  simp only at h
  split at h
  · cases h
  · cases h
    split <;> rfl

theorem ageIoctls_dst {env : Env} {supplier : Int} {e : RtEntry} {i : Ioctl}
    (hi : i ∈ ageIoctls env supplier e) : i.dst = e.dst := by
  unfold ageIoctls deleteIoctls at hi
  simp only at hi
  split at hi
  · split at hi
    · rw [List.mem_singleton.mp hi]
      rfl
    · exact absurd hi List.not_mem_nil
  · split at hi
    · exact changeIoctls_dst hi
    · exact absurd hi List.not_mem_nil

theorem ageTables_spared (hx : External x) {env : Env} {supplier : Int} (h : Spared x old t) :
    Spared x old (ageTables env supplier t) := by
  refine ⟨?_, ?_, ?_⟩
  · obtain ⟨e, he, hremains⟩ := h.present
    obtain ⟨⟨y, hy, hremains'⟩, -⟩ := @ageEntry_remains _ hx env supplier _ hremains
    refine ⟨y, ?_, hremains'⟩
    rw [entries_ageTables]
    exact List.mem_filterMap.mpr ⟨e, he, hy⟩
  · intro y hy hdst
    obtain ⟨e, he, hey⟩ := mem_ageTables hy
    rw [(ageEntry_inPlace env supplier e y hey).id]
    exact h.only e he ((ageEntry_dst hey).symm.trans hdst)
  · obtain ⟨new, hnew, hquiet⟩ := h.quiet
    refine ⟨new ++ t.entries.flatMap (ageIoctls env supplier), ?_, ?_⟩
    · rw [← List.append_assoc, ← hnew]
      rfl
    · intro i hi
      rcases List.mem_append.mp hi with hi | hi
      · exact hquiet i hi
      · obtain ⟨e, he, hi⟩ := List.mem_flatMap.mp hi
        intro hdst
        have hedst := (ageIoctls_dst hi).symm.trans hdst
        have hremains := h.entry he (h.only e he hedst)
        rw [(@ageEntry_remains _ hx env supplier _ hremains).2] at hi
        exact List.not_mem_nil hi

/-! ## New interfaces -/

def Globals.withInterface (s : Globals) (ifp : Interface) : List Interface :=
  if s.ifnextAtHead then [ifp] else s.ifnet ++ [ifp]

/-- If what the kernel reports is a new interface, then its routes keep away from the route `x`,
and if it is a loopback, so do the routes to the near ends of the links. -/
def ClearIfreq (x : RtEntry) (s : Globals) (r : Ifreq) : Prop :=
  ∀ f ∈ r.flags, f.up = true → s.isKnown r f = false →
    (f.loopback = true → ∀ ifp ∈ s.ifnet, ifp.flags.pointopoint = true →
      ¬ Matches s.ifnet x ifp.addr) ∧
    ∀ netmask ∈ r.netmask, Clear (s.withInterface (newInterface s.nextIf r f netmask)) x
      (newInterface s.nextIf r f netmask)

theorem noteLoopback_spared (h : Spared x old s.tables) {addr : Sockaddr}
    (hclear : ∀ ifp ∈ s.ifnet, ifp.flags.pointopoint = true → ¬ Matches s.ifnet x ifp.addr) :
    Spared x old (s.noteLoopback p addr).tables := by
  have hfold : ∀ (env : Env) (l : List Interface) (t : Tables),
      (∀ ifp ∈ l, ifp.flags.pointopoint = true → ¬ Matches env.ifnet x ifp.addr) →
      Spared x old t → Spared x old (l.foldl (fun t ifp =>
        if ifp.flags.pointopoint then addPtoptLocalrt env ifp t else t) t) := by
    intro env l
    induction l with
    | nil => exact fun _ _ h => h
    | cons ifp l ih =>
      intro t hl ht
      rw [List.foldl_cons]
      apply ih _ (fun i hi => hl i (List.mem_cons_of_mem _ hi))
      split
      · rename_i hptp
        exact addPtoptLocalrt_spared ht (hl ifp List.mem_cons_self hptp)
      · exact ht
  exact hfold (Globals.env p none { s with foundloopback := true, loopaddr := addr }) s.ifnet
    s.tables hclear h

theorem ifinitEntry_spared {r : Ifreq} (h : Spared x old s.tables) (hr : ClearIfreq x s r) :
    Spared x old (s.ifinitEntry p r).tables := by
  unfold Globals.ifinitEntry
  split
  · exact h
  · rename_i f hf
    split
    · exact h
    · rename_i hup
      simp only [Bool.or_eq_true, not_or, Bool.not_eq_true, Bool.not_eq_false',
        decide_eq_true_eq] at hup
      split
      · exact h
      · split
        · exact h
        · split
          · exact h
          · rename_i hknown
            obtain ⟨hloop, hnew⟩ := hr f hf hup.1 (by simpa using hknown)
            have hnoted : ∀ u, u = (if f.loopback then s.noteLoopback p (sockaddrIn r.addr)
                else s) → Spared x old u.tables ∧ u.ifnet = s.ifnet ∧
                  u.ifnextAtHead = s.ifnextAtHead ∧ u.nextIf = s.nextIf := by
              rintro u rfl
              split
              · rename_i hl
                exact ⟨noteLoopback_spared h (hloop hl), rfl, rfl, rfl⟩
              · exact ⟨h, rfl, rfl, rfl⟩
            generalize hu : (if f.loopback then s.noteLoopback p (sockaddrIn r.addr)
              else s) = u at hnoted ⊢
            obtain ⟨hspared, hifnet, hat, hnext⟩ := hnoted u rfl
            simp only
            split
            · exact hspared
            · split
              · exact hspared
              · rename_i netmask hnetmask
                have hclear := hnew netmask hnetmask
                rw [← hnext] at hclear
                unfold Globals.withInterface at hclear
                rw [← hifnet, ← hat] at hclear
                exact @addrouteforif_spared _ _ _ (Globals.env p none { u with
                  ifnet := if u.ifnextAtHead then [newInterface u.nextIf r f netmask]
                    else u.ifnet ++ [newInterface u.nextIf r f netmask] }) _ hspared hclear

theorem ifinit_spared {reqs : List Ifreq} (h : Spared x old s.tables)
    (hreqs : Steps (ClearIfreq x) (fun s r => some (s.ifinitEntry p r))
      { s with lookforinterfaces := false } reqs) :
    Spared x old (s.ifinit p reqs).tables := by
  have hfold : ∀ (reqs : List Ifreq) (s : Globals), Spared x old s.tables →
      Steps (ClearIfreq x) (fun s r => some (s.ifinitEntry p r)) s reqs →
      Spared x old (reqs.foldl (Globals.ifinitEntry p) s).tables := by
    intro reqs
    induction reqs with
    | nil => exact fun _ h _ => h
    | cons r reqs ih =>
      rintro s h ⟨hr, hrest⟩
      exact ih _ (ifinitEntry_spared h hr) (hrest _ rfl)
  have hspared := hfold reqs { s with lookforinterfaces := false } h hreqs
  unfold Globals.ifinit
  simp only
  split <;> exact hspared

end Ticks

/-! ## Events -/

def Globals.believes (p : Platform) (r : Response) (s : Globals) : Option Interface :=
  if r.src.family = AF_INET ∧ r.vers ≠ 0 ∧ r.src.port = p.ripPort ∧
      (ifIfwithaddr s.ifnet (inetCanon r.src)).isNone then
    authenticated s.ifnet (inetCanon r.src)
  else none

/-- An event that does not reach the route `x`. A response that is believed names its
destination only with an offer that is turned down; the interfaces whose routes are put back or
that come up have routes that keep away from it. -/
def Spares (p : Platform) (x : RtEntry) (s : Globals) : Event → Prop
  | .response _ _ r =>
    (∀ ifp ∈ putBack s.ifnet s.tables (inetCanon r.src), Clear s.ifnet x ifp) ∧
      ∀ ifp ∈ s.believes p r, ∀ n ∈ r.nets, isSound n = true → n.dst = x.dst →
        IsFound s.ifnet x ∧ Declined (inetCanon r.src) x (adjustMetric ifp n.metric)
  | .tick now reqs =>
    (s.lookforinterfaces && (s.faketime + TIMER_RATE) % CHECK_INTERVAL = 0) = true →
      Steps (ClearIfreq x) (fun s r => some (s.ifinitEntry p r))
        { s with now := now, faketime := s.faketime + TIMER_RATE, lookforinterfaces := false }
        reqs
  | .expired _ => True

section Events

variable {x : RtEntry} {old : List Ioctl} {s u : Globals} {p : Platform}

theorem ripInput_spared (hx : External x) (h : Spared x old s.tables) {now : Timeval}
    {random : ℕ} {r : Response} (hok : Spares p x s (.response now random r)) :
    Spared x old (s.ripInput p now random r).tables := by
  obtain ⟨hback, hnets⟩ := hok
  unfold Globals.ripInput
  simp only
  split
  · rename_i hguard
    split
    · rename_i ifp hifp
      split
      · exact h
      · exact @hearOurselves_spared _ _ _ (Globals.env p (some ifp.id) { s with now := now }) _ _
          h hifp hback
    · rename_i hown
      have hrefresh := @refreshSender_spared _ _ _ (Globals.env p
        ((ifIflookup s.ifnet (inetCanon r.src)).map Interface.id) { s with now := now })
        _ h hown hback
      have hbelieves : s.believes p r = authenticated s.ifnet (inetCanon r.src) := by
        unfold Globals.believes
        simp only [hown, Option.isNone_none, and_true]
        rw [if_pos hguard]
      unfold Globals.hearRouter
      simp only
      split
      · exact hrefresh
      · rename_i ifp hauth
        have hspared := @ripNets_spared _ _ _ (Globals.env p
          ((ifIflookup s.ifnet (inetCanon r.src)).map Interface.id) { s with now := now }) _ _
          hx _ (hnets ifp (hbelieves.trans hauth)) hrefresh
        split
        · exact dynamicUpdate_spared hspared ifp random
        · exact hspared
  · exact h

theorem timer_spared (hx : External x) (h : Spared x old s.tables) {now : Timeval}
    {reqs : List Ifreq} (hok : Spares p x s (.tick now reqs)) :
    Spared x old (s.timer p now reqs).tables := by
  have hcheck : Spared x old (Globals.checkInterfaces p reqs
      { s with now := now, faketime := s.faketime + TIMER_RATE }).tables := by
    unfold Globals.checkInterfaces
    split
    · rename_i hlook
      exact ifinit_spared h (hok hlook)
    · exact h
  unfold Globals.timer
  simp only
  split
  · exact sendFull_spared (ageTables_spared hx hcheck)
  · exact ageTables_spared hx hcheck

theorem step_spared (hx : External x) {e : Event} (h : Spared x old s.tables)
    (hok : Spares p x s e) (hstep : step p s e = some u) : Spared x old u.tables := by
  cases hstep
  cases e with
  | response now random r => exact ripInput_spared hx h hok
  | tick now reqs => exact timer_spared hx h hok
  | expired now =>
    simp only [Event.apply, Globals.delayedUpdate]
    split
    · exact sendDynamic_spared (s := { s with now := now }) h none
    · exact h

/-- In a run of events that do not reach an external route, the only one to its destination, the
route keeps its gateway and its metric, and the kernel is not asked to add or delete a route to
its destination. -/
theorem external_untouched (p : Platform) (s : Globals) (x : RtEntry) (hx : External x)
    (hmem : x ∈ s.tables.entries) (honly : ∀ e ∈ s.tables.entries, e.dst = x.dst → e = x)
    (es : List Event) (hok : Steps (Spares p x) (step p) s es) (u : Globals)
    (hu : Reached (step p) s es u) :
    (∃ e ∈ u.tables.entries, e.id = x.id ∧ e.dst = x.dst ∧ e.state = x.state ∧
      e.router = x.router ∧ e.metric = x.metric) ∧
    ∃ new, u.tables.ioctls = s.tables.ioctls ++ new ∧ ∀ i ∈ new, i.dst ≠ x.dst := by
  have hstart : Spared x s.tables.ioctls s.tables := by
    refine ⟨⟨x, hmem, x.timer, x.changed, x.told, hx.timer, rfl⟩, ?_, [], by simp, by simp⟩
    intro e he hdst
    rw [honly e he hdst]
  have hspared : Spared x s.tables.ioctls u.tables :=
    steps_reached (I := fun u => Spared x s.tables.ioctls u.tables)
      (fun _ _ _ hs hok hstep => step_spared hx hs hok hstep) hstart hok hu
  refine ⟨?_, hspared.quiet⟩
  obtain ⟨e, he, timer, changed, told, -, rfl⟩ := hspared.present
  exact ⟨_, he, rfl, rfl, rfl, rfl, rfl⟩

end Events

/-! ## A network with an external route -/

/-- routed has started on the network 10.0.0.0, and the file of gateways has a line for the
network 192.168.5.0. -/
def withExternal : Globals :=
  Globals.startup linux (-1) ⟨1000, 0⟩ [ether 0x0a000001 0xff000000 0x0affffff]
    [⟨false, 0xc0a80500, 0x0a000009, 3, .external⟩] false

def externalEntry : RtEntry where
  id := 1
  hash := 0x00c0a805
  dst := sockaddrIn 0xc0a80500
  router := sockaddrIn 0x0a000009
  host := false
  gateway := true
  state := { external := true, passive := true }
  changed := true
  timer := 0
  metric := 3
  ifp := some 0
  told := some []

/-- An offer with a longer way is turned down, and a tick passes. -/
theorem external_untouched_longer :
    ∃ u, Reached (step linux) withExternal
        [.response ⟨1003, 0⟩ 0 ⟨{ sockaddrIn 0x0a000002 with port := 520 }, 1,
          [⟨sockaddrIn 0xc0a80500, 4⟩]⟩, .tick ⟨1030, 0⟩ []] u ∧
      ∃ e ∈ u.tables.entries, e.id = 1 ∧ e.router = sockaddrIn 0x0a000009 ∧ e.metric = 3 := by
  refine ⟨_, ⟨_, List.prefix_rfl, run_step _ _ _⟩, ?_⟩
  have huntouched := external_untouched linux withExternal externalEntry
    ⟨rfl, rfl, rfl, rfl, by decide⟩ (by decide +kernel) (by decide +kernel)
    [.response ⟨1003, 0⟩ 0 ⟨{ sockaddrIn 0x0a000002 with port := 520 }, 1,
      [⟨sockaddrIn 0xc0a80500, 4⟩]⟩, .tick ⟨1030, 0⟩ []] (by
      refine ⟨⟨by decide +kernel, by decide +kernel⟩, ?_⟩
      rintro t ⟨⟩
      refine ⟨fun _ => trivial, ?_⟩
      rintro t ⟨⟩
      trivial) _ ⟨_, List.prefix_rfl, run_step _ _ _⟩
  obtain ⟨⟨e, he, hid, -, -, hrouter, hmetric⟩, -⟩ := huntouched
  exact ⟨e, he, hid, hrouter, hmetric⟩

/-- A router of the network offers a shorter way: the external route is changed, and the kernel
is asked to add the new route and to delete the old one. -/
theorem external_taken_over :
    externalEntry ∈ withExternal.tables.entries ∧
    ∃ u, run (step linux) withExternal [tells ⟨1003, 0⟩ 0x0a000002 0xc0a80500] = some u ∧
      (∃ e ∈ u.tables.entries, e.id = 1 ∧ e.state.external = true ∧
        e.router = sockaddrIn 0x0a000002 ∧ e.metric = 2) ∧
      ((u.tables.ioctls.drop withExternal.tables.ioctls.length).map (fun i => (i.action, i.dst)) =
        [(.add, sockaddrIn 0xc0a80500), (.delete, sockaddrIn 0xc0a80500)]) := by
  refine ⟨by decide +kernel, _, run_step _ _ _, ?_, ?_⟩
  · decide +kernel
  · decide +kernel

end Netkit.Routed

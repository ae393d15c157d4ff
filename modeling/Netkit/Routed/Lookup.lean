import Mathlib.Data.List.Find
import Netkit.Routed.Main

/-!
# Every route is found

The hash key of a route to a network is computed through the list of interfaces as it was when
the route was added. A later search uses the list as it is then. The two keys agree as long as
the subnet mask of every interface on this machine includes the mask of its class, and no remote
interface has the network number 0: a route in `nethash` is then to an address that is its own
network number, and it stays one when interfaces come up.

* `lookup_complete`: in every run that meets the conditions, `rtlookup` finds a destination
  exactly if there is a route to it.
-/

namespace Netkit.Routed

open Netkit.Foundations

/-! ## Network numbers -/

/-- A hardware interface has the mask of its class as its `int_netmask`, and a subnet mask that
includes it. A remote interface has no mask, and a network number. Their addresses have no
port. -/
structure IfOk (ifp : Interface) : Prop where
  hardware : ifp.flags.remote = false → ∃ i, ifp.netmask = classMask i ∧
    ifp.net = classNet i ∧ ifp.subnetmask &&& classMask i = classMask i
  remote : ifp.flags.remote = true → ifp.netmask = 0 ∧ ifp.subnetmask = 0 ∧ ifp.net ≠ 0 ∧
    ifp.flags.subnet = false
  addr : ifp.addr = sockaddrIn ifp.addr.addr
  dstaddr : ifp.flags.pointopoint = true → ifp.dstaddr = sockaddrIn ifp.dstaddr.addr

def hardware (ifnet : List Interface) : List Interface :=
  ifnet.filter (fun ifp => !ifp.flags.remote)

theorem find?_netmask {ifnet : List Interface} (h : ∀ ifp ∈ ifnet, IfOk ifp) (i : UInt32) :
    ifnet.find? (fun ifp => ifp.netmask &&& classNet i == ifp.net) =
      (hardware ifnet).find? (fun ifp => classNet i == ifp.net) := by
  rw [hardware, List.find?_filter]
  apply List.find?_congr
  intro ifp hifp
  cases hremote : ifp.flags.remote with
  | true =>
    obtain ⟨hmask, -, hnet, -⟩ := (h ifp hifp).remote hremote
    rw [hmask]
    simpa using Ne.symm hnet
  | false =>
    obtain ⟨j, hmask, hnet, -⟩ := (h ifp hifp).hardware hremote
    rw [hmask, hnet]
    rw [Bool.eq_iff_iff]
    simpa [hremote] using classMask_and_classNet_eq_iff i j

theorem inetNetofSubnet_eq {ifnet : List Interface} (h : ∀ ifp ∈ ifnet, IfOk ifp) (i : UInt32) :
    inetNetofSubnet ifnet i =
      match (hardware ifnet).find? (fun ifp => classNet i == ifp.net) with
      | some ifp => i &&& ifp.subnetmask
      | none => classNet i := by
  rw [← find?_netmask h]
  rfl

def Named (ifnet : List Interface) (i : UInt32) : Prop := inetNetofSubnet ifnet i = i

theorem and_of_classNet {i m c : UInt32} (hm : m &&& c = c) (h : i &&& c = i) :
    i &&& m = i := by
  rw [← h, UInt32.and_assoc, UInt32.and_comm c m, hm]

theorem and_of_host {i m c : UInt32} (hm : m &&& c = c) (h : i &&& ~~~c &&& ~~~m = 0) :
    i &&& m = i := by
  apply UInt32.toBitVec_inj.mp
  have hm' := congrArg UInt32.toBitVec hm
  have h' := congrArg UInt32.toBitVec h
  simp only [UInt32.toBitVec_and, UInt32.toBitVec_not] at hm' h' ⊢
  ext k hk
  have h₁ := congrArg (fun x => BitVec.getLsbD x k) hm'
  have h₂ := congrArg (fun x => BitVec.getLsbD x k) h'
  simp [hk] at h₁ h₂ ⊢
  grind

theorem and_classMask_of_host {i c : UInt32} (h : i &&& ~~~c = 0) : i &&& c = i := by
  apply and_of_host (c := c) (UInt32.and_self)
  rw [UInt32.and_assoc, UInt32.and_self, h]

/-- A hardware interface on the network of an address has a subnet mask that includes the mask
of the address's class. -/
theorem IfOk.subnetmask {ifp : Interface} (h : IfOk ifp) (hremote : ifp.flags.remote = false)
    {i : UInt32} (hnet : classNet i = ifp.net) : ifp.subnetmask &&& classMask i = classMask i := by
  obtain ⟨j, -, hnet', hmask⟩ := h.hardware hremote
  have hclass : classMask i = classMask j := by
    rw [← classMask_classNet i, hnet, hnet', classMask_classNet]
  rw [hclass, hmask]

theorem mem_hardware {ifnet : List Interface} {ifp : Interface} :
    ifp ∈ hardware ifnet ↔ ifp ∈ ifnet ∧ ifp.flags.remote = false := by
  simp [hardware]

theorem named_of_classNet {ifnet : List Interface} (h : ∀ ifp ∈ ifnet, IfOk ifp) {i : UInt32}
    (hi : classNet i = i) : Named ifnet i := by
  rw [Named, inetNetofSubnet_eq h]
  split
  · rename_i ifp hifp
    obtain ⟨hmem, hremote⟩ := mem_hardware.mp (List.mem_of_find?_eq_some hifp)
    have hnet := List.find?_some hifp
    simp only [beq_iff_eq] at hnet
    exact and_of_classNet ((h ifp hmem).subnetmask hremote hnet) hi
  · exact hi

/-- What `inet_rtflags` takes for a network is its own network number. -/
theorem named_of_rtflags {ifnet : List Interface} (h : ∀ ifp ∈ ifnet, IfOk ifp) {i : UInt32}
    (hflags : inetRtflags ifnet i ≠ .host) : Named ifnet i := by
  unfold inetRtflags at hflags
  simp only at hflags
  split at hflags
  · rename_i ifp hifp
    have hmem := List.mem_of_find?_eq_some hifp
    have hnet := List.find?_some hifp
    simp only [beq_iff_eq] at hnet
    split at hflags
    · exact absurd rfl hflags
    · rename_i hhost
      simp only [bne_iff_ne, ne_eq, not_not] at hhost
      cases hremote : ifp.flags.remote with
      | true =>
        obtain ⟨-, hsub, -, -⟩ := (h ifp hmem).remote hremote
        apply named_of_classNet h
        apply and_classMask_of_host
        rw [hsub] at hhost
        simpa using hhost
      | false =>
        -- The first interface on the network is also the first hardware interface on it.
        have hfirst : (hardware ifnet).find? (fun ifp => classNet i == ifp.net) = some ifp := by
          rw [hardware, List.find?_filter]
          obtain ⟨hq, as, bs, rfl, has⟩ := List.find?_eq_some_iff_append.mp hifp
          refine List.find?_eq_some_iff_append.mpr ⟨?_, as, bs, rfl, ?_⟩
          · simp [hremote, hnet]
          · intro x hx
            have := has x hx
            simp only [Bool.not_eq_true', beq_eq_false_iff_ne] at this
            simp [this]
        rw [Named, inetNetofSubnet_eq h, hfirst]
        exact and_of_host ((h ifp hmem).subnetmask hremote hnet) hhost
  · split at hflags
    · rename_i hhost
      exact named_of_classNet h (and_classMask_of_host (by simpa using hhost))
    · exact absurd rfl hflags

theorem named_append {ifnet ifnet' : List Interface} {ifp : Interface}
    (h : ∀ ifp ∈ ifnet, IfOk ifp) (h' : ∀ ifp ∈ ifnet', IfOk ifp)
    (hlist : hardware ifnet' = hardware ifnet ++ [ifp]) {i : UInt32} (hi : Named ifnet i) :
    Named ifnet' i := by
  rw [Named, inetNetofSubnet_eq h] at hi
  cases hfind : (hardware ifnet).find? (fun ifp => classNet i == ifp.net) with
  | some q =>
    rw [hfind] at hi
    rw [Named, inetNetofSubnet_eq h', hlist, List.find?_append, hfind]
    exact hi
  | none =>
    rw [hfind] at hi
    exact named_of_classNet h' hi

theorem named_congr {ifnet ifnet' : List Interface} (h : ∀ ifp ∈ ifnet, IfOk ifp)
    (h' : ∀ ifp ∈ ifnet', IfOk ifp) (hlist : hardware ifnet' = hardware ifnet) {i : UInt32}
    (hi : Named ifnet i) : Named ifnet' i := by
  rw [Named, inetNetofSubnet_eq h] at hi
  rw [Named, inetNetofSubnet_eq h', hlist]
  exact hi

theorem rtflags_classNet (ifnet : List Interface) (i : UInt32) :
    inetRtflags ifnet (classNet i) ≠ .host := by
  have hhost : classNet i &&& ~~~classMask (classNet i) = 0 := by
    rw [classMask_classNet, classNet, UInt32.and_assoc, UInt32.and_not_self, UInt32.and_zero]
  unfold inetRtflags
  simp only [hhost]
  split
  · simp
    split <;> decide
  · decide

/-! ## Routes where they are looked for -/

/-- The tables under the list of interfaces `ifnet`. -/
structure Keyed (ifnet : List Interface) (t : Tables) : Prop where
  canonical : ∀ rt ∈ t.entries, rt.dst = sockaddrIn rt.dst.addr
  hosts : ∀ rt ∈ t.hosthash.elements,
    rt.hash = hosthashOf rt.dst.addr ∧ rt.state.internal = false
  nets : ∀ rt ∈ t.nethash.elements, rt.hash = nethashOf rt.dst.addr ∧ Named ifnet rt.dst.addr
  order : t.entries.Pairwise (fun a b => a.dst = b.dst → b.state.internal = true)

/-- All routes to `dst` are internal, so that a route to it may be added. -/
def Vacant (t : Tables) (dst : Sockaddr) : Prop :=
  ∀ rt ∈ t.entries, rt.dst = dst → rt.state.internal = true

theorem keyed_rtinit (ifnet : List Interface) : Keyed ifnet rtinit := by
  have hnil : rtinit.entries = [] := by
    rw [Tables.entries, rtinit, Chains.elements_nil, List.append_nil]
  have hhost : rtinit.hosthash.elements = [] := Chains.elements_nil
  have hnet : rtinit.nethash.elements = [] := Chains.elements_nil
  refine ⟨?_, ?_, ?_, ?_⟩
  · rw [hnil]
    exact fun _ h => absurd h List.not_mem_nil
  · rw [hhost]
    exact fun _ h => absurd h List.not_mem_nil
  · rw [hnet]
    exact fun _ h => absurd h List.not_mem_nil
  · rw [hnil]
    exact List.Pairwise.nil

section Search

variable {ifnet : List Interface} {t : Tables} {dst : Sockaddr} {rt e : RtEntry}

theorem Keyed.hostPlace (h : Keyed ifnet t) :
    t.hosthash.Placed (fun rt => bucket (hosthashOf rt.dst.addr)) := by
  intro b rt hrt
  have hkey := (h.hosts rt (Chains.mem_elements.mpr ⟨b, hrt⟩)).1
  have hplace : bucket rt.hash = b := t.wellFormed.hostChains b rt hrt
  rwa [hkey] at hplace

theorem Keyed.netPlace (h : Keyed ifnet t) :
    t.nethash.Placed (fun rt => bucket (nethashOf rt.dst.addr)) := by
  intro b rt hrt
  have hkey := (h.nets rt (Chains.mem_elements.mpr ⟨b, hrt⟩)).1
  have hplace : bucket rt.hash = b := t.wellFormed.netChains b rt hrt
  rwa [hkey] at hplace

theorem host_find (h : Keyed ifnet t) (dst : Sockaddr) :
    (t.hosthash (bucket (inetHash ifnet dst).hosthash)).find?
        (fun rt => rt.hash == (inetHash ifnet dst).hosthash && rt.dst == dst) =
      t.hosthash.elements.find? (fun rt => rt.dst == dst) := by
  have hplace := Chains.find?_elements (p := fun rt => rt.dst == dst)
    (b := bucket (inetHash ifnet dst).hosthash) h.hostPlace (by
      intro rt hrt
      simp only [beq_iff_eq] at hrt
      rw [hrt]
      rfl)
  rw [hplace]
  apply List.find?_congr
  intro rt hrt
  have hkey := (h.hosts rt (Chains.mem_elements.mpr ⟨_, hrt⟩)).1
  by_cases hdst : rt.dst = dst
  · simp [hkey, hdst, inetHash]
  · simp [hdst]

/-- A route to `dst` in `nethash` is in the chain in which `dst` is looked for. -/
theorem net_chain (h : Keyed ifnet t) (hrt : rt ∈ t.nethash.elements) (hdst : rt.dst = dst) :
    rt ∈ t.nethash (bucket (inetHash ifnet dst).nethash) ∧
      rt.hash = (inetHash ifnet dst).nethash := by
  obtain ⟨hkey, hnamed⟩ := h.nets rt hrt
  have hhash : (inetHash ifnet dst).nethash = nethashOf rt.dst.addr := by
    rw [inetHash, ← hdst]
    exact congrArg nethashOf hnamed
  obtain ⟨b, hb⟩ := Chains.mem_elements.mp hrt
  have hplace : bucket (nethashOf rt.dst.addr) = b := h.netPlace b rt hb
  rw [hhash, hplace]
  exact ⟨hb, hkey⟩

theorem net_find (h : Keyed ifnet t) (dst : Sockaddr) :
    (t.nethash (bucket (inetHash ifnet dst).nethash)).find?
        (fun rt => rt.hash == (inetHash ifnet dst).nethash && rt.dst == dst) =
      t.nethash.elements.find? (fun rt => rt.dst == dst) := by
  by_cases hnamed : Named ifnet dst.addr
  · have hplace := Chains.find?_elements (p := fun rt => rt.dst == dst)
      (b := bucket (inetHash ifnet dst).nethash) h.netPlace (by
        intro rt hrt
        simp only [beq_iff_eq] at hrt
        rw [hrt, inetHash, hnamed])
    rw [hplace]
    apply List.find?_congr
    intro rt hrt
    by_cases hdst : rt.dst = dst
    · have hkey := (net_chain h (Chains.mem_elements.mpr ⟨_, hrt⟩) hdst).2
      simp [hkey, hdst]
    · simp [hdst]
  · have hno : ∀ rt ∈ t.nethash.elements, rt.dst ≠ dst := by
      rintro rt hrt rfl
      exact hnamed (h.nets rt hrt).2
    rw [List.find?_eq_none.mpr, List.find?_eq_none.mpr]
    · intro rt hrt
      simpa using hno rt hrt
    · intro rt hrt
      simp [hno rt (Chains.mem_elements.mpr ⟨_, hrt⟩)]

theorem rtlookup_eq (h : Keyed ifnet t) (hfamily : dst.family = AF_INET) :
    rtlookup ifnet t dst = t.entries.find? (fun rt => rt.dst == dst) := by
  rw [rtlookup, if_pos hfamily]
  simp only
  rw [host_find h dst, net_find h dst, Tables.entries, List.find?_append]
  cases t.hosthash.elements.find? (fun rt => rt.dst == dst) with
  | some rt => rfl
  | none => rfl

theorem rtlookup_none (h : Keyed ifnet t) (hfamily : dst.family = AF_INET)
    (hnone : rtlookup ifnet t dst = none) : Vacant t dst := by
  rw [rtlookup_eq h hfamily, List.find?_eq_none] at hnone
  intro rt hrt hdst
  exact absurd (by simpa using hdst) (hnone rt hrt)

theorem others_internal {l : List RtEntry}
    (horder : l.Pairwise (fun a b => a.dst = b.dst → b.state.internal = true))
    (hfind : l.find? (fun rt => rt.dst == dst) = some rt) (he : e ∈ l) (hdst : e.dst = dst) :
    e = rt ∨ e.state.internal = true := by
  obtain ⟨hrt, as, bs, rfl, has⟩ := List.find?_eq_some_iff_append.mp hfind
  simp only [beq_iff_eq] at hrt
  rcases List.mem_append.mp he with he | he
  · have := has e he
    simp [hdst] at this
  · rcases List.mem_cons.mp he with rfl | he
    · exact Or.inl rfl
    · have hpair := (List.pairwise_append.mp horder).2.1
      exact Or.inr ((List.pairwise_cons.mp hpair).1 e he (hrt.trans hdst.symm))

theorem rtlookup_internal (h : Keyed ifnet t) (hfamily : dst.family = AF_INET)
    (hsome : rtlookup ifnet t dst = some rt) (hinternal : rt.state.internal = true) :
    Vacant t dst := by
  rw [rtlookup_eq h hfamily] at hsome
  intro e he hdst
  rcases others_internal h.order hsome he hdst with rfl | he
  · exact hinternal
  · exact he

/-- What `rtfind` returns is the only route to `dst` that may not be internal. -/
theorem rtfind_some (h : Keyed ifnet t) (hdst : dst = sockaddrIn dst.addr)
    (hsome : rtfind ifnet t dst = some rt) :
    ∀ e ∈ t.entries, e.dst = dst → e = rt ∨ e.state.internal = true := by
  intro e he hedst
  have hhost := host_find h dst
  unfold rtfind at hsome
  rw [if_pos (by rw [hdst]; rfl)] at hsome
  simp only at hsome
  split at hsome
  · rename_i found hfound
    cases hsome
    have hfirst : t.entries.find? (fun rt => rt.dst == dst) = some rt := by
      rw [Tables.entries, List.find?_append, ← hhost, hfound]
      rfl
    exact others_internal h.order hfirst he hedst
  · rename_i hnone
    rw [hhost, List.find?_eq_none] at hnone
    have hnet : e ∈ t.nethash.elements := by
      rcases mem_entries.mp he with he | he
      · exact absurd (by simpa using hedst) (hnone e he)
      · exact he
    -- All routes that match are in one chain, and they have the destination itself.
    have hchain : (t.nethash (bucket (inetHash ifnet dst).nethash)).find?
        (fun rt => rt.dst == dst) = some rt := by
      rw [← hsome]
      apply List.find?_congr
      intro x hx
      have hxnet := Chains.mem_elements.mpr ⟨_, hx⟩
      have hnamed : inetNetofSubnet ifnet dst.addr = dst.addr := by
        have := (h.nets e hnet).2
        rwa [hedst] at this
      by_cases hxdst : x.dst = dst
      · have hkey := (net_chain h hxnet hxdst).2
        simp [hxdst, hkey, inetNetmatch]
      · have hne : inetNetmatch ifnet x.dst dst = false := by
          have hxnamed : inetNetofSubnet ifnet x.dst.addr = x.dst.addr := (h.nets x hxnet).2
          rw [inetNetmatch, hxnamed, hnamed, beq_eq_false_iff_ne]
          intro haddr
          apply hxdst
          rw [h.canonical x (mem_entries.mpr (Or.inr hxnet)), haddr, ← hdst]
        simp [hxdst, hne]
    have hsub : (t.nethash (bucket (inetHash ifnet dst).nethash)).Sublist t.entries := by
      refine List.Sublist.trans ?_ (List.sublist_append_right _ _)
      exact List.sublist_flatten_of_mem (List.mem_map_of_mem (List.mem_finRange _))
    exact others_internal (h.order.sublist hsub) hchain (net_chain h hnet hedst).1 hedst

theorem rtfind_none (h : Keyed ifnet t) (hfamily : dst.family = AF_INET)
    (hnone : rtfind ifnet t dst = none) : Vacant t dst := by
  intro e he hedst
  exfalso
  unfold rtfind at hnone
  rw [if_pos hfamily] at hnone
  simp only [host_find h dst] at hnone
  split at hnone
  · cases hnone
  · rename_i hhost
    rw [List.find?_eq_none] at hhost hnone
    rcases mem_entries.mp he with he | he
    · exact hhost e he (by simpa using hedst)
    · obtain ⟨hchain, hkey⟩ := net_chain h he hedst
      exact hnone e hchain (by simp [hkey, hedst, inetNetmatch])

end Search

/-! ## The operations keep the routes where they are looked for -/

section Operations

variable {ifnet : List Interface} {t : Tables} {dst gate : Sockaddr} {rt e : RtEntry}
  {metric : Int} {state : RtState} {env : Env}

def SameKey (f : RtEntry → Option RtEntry) : Prop :=
  ∀ e y, f e = some y → y.dst = e.dst ∧ y.hash = e.hash ∧ y.state.internal = e.state.internal

theorem Keyed.filterMap (h : Keyed ifnet t) {f : RtEntry → Option RtEntry} {hf : InPlace f}
    (hkey : SameKey f) : Keyed ifnet (t.filterMap f hf) := by
  refine ⟨?_, ?_, ?_, ?_⟩
  · rw [entries_filterMap]
    intro y hy
    obtain ⟨e, he, hey⟩ := List.mem_filterMap.mp hy
    rw [(hkey e y hey).1]
    exact h.canonical e he
  · intro y hy
    rw [Tables.filterMap, Chains.elements_filterMap] at hy
    obtain ⟨e, he, hey⟩ := List.mem_filterMap.mp hy
    obtain ⟨hdst, hhash, hint⟩ := hkey e y hey
    rw [hdst, hhash, hint]
    exact h.hosts e he
  · intro y hy
    rw [Tables.filterMap, Chains.elements_filterMap] at hy
    obtain ⟨e, he, hey⟩ := List.mem_filterMap.mp hy
    obtain ⟨hdst, hhash, -⟩ := hkey e y hey
    rw [hdst, hhash]
    exact h.nets e he
  · rw [entries_filterMap]
    refine h.order.filterMap f (fun a b hab y hy z hz hyz => ?_)
    obtain ⟨hya, -, -⟩ := hkey a y hy
    obtain ⟨hzb, -, hint⟩ := hkey b z hz
    rw [hint]
    exact hab (by rw [← hya, ← hzb, hyz])

theorem Keyed.modify (h : Keyed ifnet t) {f : RtEntry → RtEntry}
    {hf : ∀ e, Stays e (f e)}
    (hkey : ∀ e, (f e).dst = e.dst ∧ (f e).hash = e.hash ∧
      (f e).state.internal = e.state.internal) : Keyed ifnet (t.modify rt f hf) := by
  unfold Tables.modify Tables.map
  apply h.filterMap
  rintro e y ⟨⟩
  simp only
  split
  · exact hkey e
  · exact ⟨rfl, rfl, rfl⟩

theorem Keyed.with_ioctls (h : Keyed ifnet t) (ioctls : List Ioctl) :
    Keyed ifnet { t with ioctls := ioctls } :=
  ⟨h.canonical, h.hosts, h.nets, h.order⟩

theorem Keyed.rtchange (h : Keyed ifnet t) : Keyed ifnet (rtchange env rt gate metric t) :=
  (h.modify (f := changeEntry env gate metric) (fun _ => ⟨rfl, rfl, rfl⟩)).with_ioctls _

theorem Keyed.rtdelete (h : Keyed ifnet t) : Keyed ifnet (rtdelete env rt t) := by
  refine Keyed.with_ioctls (h.filterMap ?_) _
  intro e y hey
  simp only at hey
  split at hey
  · cases hey
  · cases hey
    exact ⟨rfl, rfl, rfl⟩

theorem Keyed.setTimer (h : Keyed ifnet t) {timer : RtEntry → Int} :
    Keyed ifnet (setTimer rt timer t) :=
  h.modify (fun _ => ⟨rfl, rfl, rfl⟩)

theorem Vacant.rtchange (h : Vacant t dst) : Vacant (rtchange env rt gate metric t) dst := by
  intro e he hdst
  obtain ⟨x, hx, rfl | rfl⟩ := mem_rtchange he
  · exact h e hx hdst
  · exact h x hx hdst

/-- When a search has found `rt`, a route may take its place. -/
theorem Vacant.rtdelete (h : ∀ e ∈ t.entries, e.dst = dst → e = rt ∨ e.state.internal = true) :
    Vacant (rtdelete env rt t) dst := by
  intro e he hdst
  obtain ⟨he, hid⟩ := mem_rtdelete he
  rcases h e he hdst with rfl | h
  · exact absurd rfl hid
  · exact h

/-- A new route goes to the head of its chain. The routes to its destination are behind it, and
they are internal. -/
theorem Keyed.insque (h : Keyed ifnet t) (hid : rt.id = t.next) (hdst : rt.dst = sockaddrIn rt.dst.addr)
    (hhost : rt.host = true → rt.hash = hosthashOf rt.dst.addr ∧ rt.state.internal = false)
    (hnet : rt.host = false → rt.hash = nethashOf rt.dst.addr ∧ Named ifnet rt.dst.addr)
    (hvacant : Vacant t rt.dst) : Keyed ifnet (t.insque rt hid) := by
  have hnohost : ∀ e ∈ t.hosthash.elements, e.dst ≠ rt.dst := by
    intro e he hedst
    have h₁ := hvacant e (mem_entries.mpr (Or.inl he)) hedst
    rw [(h.hosts e he).2] at h₁
    cases h₁
  have hbehind : ∀ e ∈ t.entries, rt.dst = e.dst → e.state.internal = true :=
    fun e he hedst => hvacant e he hedst.symm
  obtain ⟨horder₁, horder₂, hcross⟩ := List.pairwise_append.mp h.order
  unfold Tables.insque
  split
  · rename_i hrt
    obtain ⟨hhash, hint⟩ := hhost hrt
    refine ⟨?_, ?_, h.nets, ?_⟩
    · intro e he
      rcases mem_entries.mp he with he | he
      · rcases Chains.mem_elements_push.mp he with rfl | he
        · exact hdst
        · exact h.canonical e (mem_entries.mpr (Or.inl he))
      · exact h.canonical e (mem_entries.mpr (Or.inr he))
    · intro e he
      rcases Chains.mem_elements_push.mp he with rfl | he
      · exact ⟨hhash, hint⟩
      · exact h.hosts e he
    · refine List.pairwise_append.mpr ⟨Chains.push_pairwise horder₁ ?_ ?_, horder₂, ?_⟩
      · intro e he
        exact hbehind e (mem_entries.mpr (Or.inl (Chains.mem_elements.mpr ⟨_, he⟩)))
      · intro i _ e he
        have hmem := Chains.mem_elements.mpr ⟨i, he⟩
        exact ⟨hbehind e (mem_entries.mpr (Or.inl hmem)),
          fun hedst => absurd hedst (hnohost e hmem)⟩
      · intro x hx y hy
        rcases Chains.mem_elements_push.mp hx with rfl | hx
        · exact hbehind y (mem_entries.mpr (Or.inr hy))
        · exact hcross x hx y hy
  · rename_i hrt
    have hrt' : rt.host = false := by simpa using hrt
    obtain ⟨hhash, hnamed⟩ := hnet hrt'
    refine ⟨?_, h.hosts, ?_, ?_⟩
    · intro e he
      rcases mem_entries.mp he with he | he
      · exact h.canonical e (mem_entries.mpr (Or.inl he))
      · rcases Chains.mem_elements_push.mp he with rfl | he
        · exact hdst
        · exact h.canonical e (mem_entries.mpr (Or.inr he))
    · intro e he
      rcases Chains.mem_elements_push.mp he with rfl | he
      · exact ⟨hhash, hnamed⟩
      · exact h.nets e he
    · refine List.pairwise_append.mpr ⟨horder₁, Chains.push_pairwise horder₂ ?_ ?_, ?_⟩
      · intro e he
        exact hbehind e (mem_entries.mpr (Or.inr (Chains.mem_elements.mpr ⟨_, he⟩)))
      · intro i hi e he
        have hmem := Chains.mem_elements.mpr ⟨i, he⟩
        refine ⟨hbehind e (mem_entries.mpr (Or.inr hmem)), fun hedst => ?_⟩
        -- A route to the same destination would be in the same chain.
        have hplace : bucket (nethashOf e.dst.addr) = i := h.netPlace i e he
        rw [hedst, ← hhash] at hplace
        exact absurd hplace.symm hi
      · intro x hx y hy
        rcases Chains.mem_elements_push.mp hy with rfl | hy
        · exact fun hxdst => absurd hxdst (hnohost x hx)
        · exact hcross x hx y hy

theorem Keyed.rtadd (h : Keyed env.ifnet t) (hifs : ∀ ifp ∈ env.ifnet, IfOk ifp)
    (hdst : dst = sockaddrIn dst.addr)
    (hint : state.internal = true → inetRtflags env.ifnet dst.addr ≠ .host)
    (hvacant : Vacant t dst) : Keyed env.ifnet (rtadd env dst gate metric state t) := by
  have hinsque : Keyed env.ifnet (t.insque (newEntry env t.next dst gate metric state) rfl) := by
    apply h.insque rfl hdst ?_ ?_ hvacant
    · intro hhost
      have hflags : inetRtflags env.ifnet dst.addr = .host := by simpa [newEntry] using hhost
      refine ⟨by simp [newEntry, hflags, inetHash], ?_⟩
      by_contra hinternal
      exact hint (by simpa [newEntry] using hinternal) hflags
    · intro hhost
      have hflags : inetRtflags env.ifnet dst.addr ≠ .host := by simpa [newEntry] using hhost
      have hnamed : Named env.ifnet dst.addr := named_of_rtflags hifs hflags
      refine ⟨?_, hnamed⟩
      simp only [newEntry, hflags, if_false, inetHash]
      exact congrArg nethashOf hnamed
  unfold Routed.rtadd
  split
  · simp only
    split
    · exact hinsque
    · split
      · exact h.with_ioctls _
      · exact hinsque.with_ioctls _
  · exact h

/-! ## The routes of an interface -/

theorem vacant_of_rtfind (h : Keyed ifnet t) (hdst : dst = sockaddrIn dst.addr)
    (hfind : rtfind ifnet t dst = some rt) : Vacant (rtdelete env rt t) dst :=
  Vacant.rtdelete (rtfind_some h hdst hfind)

theorem vacant_of_none (h : Keyed ifnet t) (hdst : dst = sockaddrIn dst.addr)
    (hfind : rtfind ifnet t dst = none) : Vacant t dst :=
  rtfind_none h (by rw [hdst]; rfl) hfind

variable {ifp : Interface}

theorem addNetworkRoute_vacant (h : Vacant t dst) : Vacant (addNetworkRoute env ifp t) dst := by
  unfold addNetworkRoute
  split
  · simp only
    split
    · intro e he hdst
      rcases mem_rtadd he with rfl | he
      · rfl
      · exact h e he hdst
    · split
      · exact h.rtchange
      · exact h
  · exact h

theorem ifDestination_canonical (hifp : IfOk ifp) :
    ifDestination ifp = sockaddrIn (ifDestination ifp).addr := by
  unfold ifDestination
  split
  · rename_i hptp
    exact hifp.dstaddr hptp
  · rfl

variable (hifs : ∀ ifp ∈ env.ifnet, IfOk ifp)

include hifs

theorem addPtoptLocalrt_keyed (h : Keyed env.ifnet t) (hifp : IfOk ifp) :
    Keyed env.ifnet (addPtoptLocalrt env ifp t) := by
  unfold addPtoptLocalrt
  simp only
  split
  · rename_i rt hrt
    split
    · exact h
    · exact h.rtdelete.rtadd hifs hifp.addr (fun hint => absurd hint (by simp))
        (vacant_of_rtfind h hifp.addr hrt)
  · rename_i hrt
    exact h.rtadd hifs hifp.addr (fun hint => absurd hint (by simp))
      (vacant_of_none h hifp.addr hrt)

theorem addNetworkRoute_keyed (h : Keyed env.ifnet t) (hifp : IfOk ifp) :
    Keyed env.ifnet (addNetworkRoute env ifp t) := by
  unfold addNetworkRoute
  split
  · rename_i hsubnet
    have hremote : ifp.flags.remote = false := by
      by_contra hremote
      have := (hifp.remote (by simpa using hremote)).2.2.2
      simp [this] at hsubnet
    obtain ⟨i, -, hnet, -⟩ := hifp.hardware hremote
    simp only
    split
    · rename_i hrt
      refine h.rtadd hifs rfl (fun _ => ?_) (vacant_of_none h rfl hrt)
      have hflags := rtflags_classNet env.ifnet i
      rwa [← hnet] at hflags
    · split
      · exact h.rtchange
      · exact h
  · exact h

theorem installRoute_keyed (h : Keyed env.ifnet t) (hifp : IfOk ifp)
    (hvacant : Vacant t (ifDestination ifp)) : Keyed env.ifnet (installRoute env ifp t) := by
  have hadd : Keyed env.ifnet (Routed.rtadd env (ifDestination ifp) ifp.addr ifp.metric
      (ifState ifp) (addNetworkRoute env ifp t)) := by
    apply (addNetworkRoute_keyed hifs h hifp).rtadd hifs (ifDestination_canonical hifp)
    · intro hint
      cases hint
    · exact addNetworkRoute_vacant hvacant
  unfold installRoute
  simp only
  split
  · exact addPtoptLocalrt_keyed hifs hadd hifp
  · exact hadd

theorem addrouteforif_keyed (h : Keyed env.ifnet t) (hifp : IfOk ifp) :
    Keyed env.ifnet (addrouteforif env ifp t) := by
  have hdst := ifDestination_canonical hifp
  unfold addrouteforif
  split
  · rename_i rt hrt
    split
    · exact h
    · exact installRoute_keyed hifs h.rtdelete hifp (vacant_of_rtfind h hdst hrt)
  · rename_i hrt
    exact installRoute_keyed hifs h hifp (vacant_of_none h hdst hrt)

/-! ## A response -/

variable {src : Sockaddr} {st : Tables × ℕ}

theorem learnRoute_keyed (h : Keyed env.ifnet st.1) (hdst : dst = sockaddrIn dst.addr)
    (hvacant : Vacant st.1 dst) : Keyed env.ifnet (learnRoute env src dst metric st).1 := by
  have hadd : Keyed env.ifnet (Routed.rtadd env dst src metric {} st.1) :=
    h.rtadd hifs hdst (fun hint => absurd hint (by simp)) hvacant
  unfold learnRoute
  split
  · split
    · split
      · exact h
      · exact hadd
    · exact hadd
  · exact h

omit hifs in
theorem updateRoute_keyed (h : Keyed ifnet st.1) :
    Keyed ifnet (updateRoute env src metric rt st).1 := by
  unfold updateRoute
  split
  · split
    · exact h.rtchange.setTimer
    · split
      · exact h.setTimer
      · exact h
  · split
    · exact h.rtchange.setTimer
    · exact h

theorem ripNetinfo_keyed (h : Keyed env.ifnet st.1) (n : Netinfo) :
    Keyed env.ifnet (ripNetinfo env ifp src st n).1 := by
  unfold ripNetinfo
  split
  · rename_i hsound
    simp only [isSound, Bool.and_eq_true, beq_iff_eq] at hsound
    obtain ⟨⟨⟨hfamily, hcheck⟩, -⟩, -⟩ := hsound
    have hdst := inetCheckhost_canonical hfamily hcheck
    unfold ripEntry
    split
    · rename_i hnone
      exact learnRoute_keyed hifs h hdst (rtlookup_none h hfamily hnone)
    · rename_i rt hrt
      split
      · rename_i hinternal
        simp only [Bool.and_eq_true] at hinternal
        split
        · exact h
        · exact learnRoute_keyed hifs h hdst (rtlookup_internal h hfamily hrt hinternal.1)
      · exact updateRoute_keyed h
  · exact h

theorem ripNets_keyed (nets : List Netinfo) (h : Keyed env.ifnet t) :
    Keyed env.ifnet (ripNets env ifp src nets t).1 := by
  have hfold : ∀ (nets : List Netinfo) (st : Tables × ℕ), Keyed env.ifnet st.1 →
      Keyed env.ifnet (nets.foldl (ripNetinfo env ifp src) st).1 := by
    intro nets
    induction nets with
    | nil => exact fun _ h => h
    | cons n nets ih => exact fun st h => ih _ (ripNetinfo_keyed hifs h n)
  exact hfold nets (t, 0) h

theorem hearOurselves_keyed (h : Keyed env.ifnet t) (hifp : IfOk ifp) :
    Keyed env.ifnet (hearOurselves env ifp src t) := by
  unfold hearOurselves
  split
  · exact addrouteforif_keyed hifs h hifp
  · split
    · exact addrouteforif_keyed hifs h hifp
    · exact h.setTimer

theorem refreshSender_keyed (h : Keyed env.ifnet t) :
    Keyed env.ifnet (refreshSender env src t) := by
  have hlink : ∀ rt, Keyed env.ifnet (restoreLink env src rt t) := by
    intro rt
    unfold restoreLink
    split
    · rename_i ifp hifp
      split
      · exact addrouteforif_keyed hifs h (hifs ifp (ifIfwithdstaddr_mem hifp))
      · exact h
    · exact h
  unfold refreshSender
  split
  · split
    · exact h.setTimer
    · exact hlink _
  · exact hlink _

end Operations

/-! ## States -/

/-- A state of the daemon whose routes are all found. Only hardware interfaces move `ifnext`. -/
structure Found (s : Globals) : Prop where
  ifs : ∀ ifp ∈ s.ifnet, IfOk ifp
  atHead : s.ifnextAtHead = true → hardware s.ifnet = []
  keyed : Keyed s.ifnet s.tables

/-- The subnet mask of every interface that the kernel reports includes the mask of the class. -/
def MasksOk (reqs : List Ifreq) : Prop :=
  ∀ r ∈ reqs, ∀ netmask ∈ r.netmask, netmask &&& classMask r.addr = classMask r.addr

instance (reqs : List Ifreq) : Decidable (MasksOk reqs) :=
  decidable_of_iff (∀ r ∈ reqs, r.netmask.all
    (fun netmask => netmask &&& classMask r.addr == classMask r.addr) = true) (by
      simp [MasksOk, Option.all_eq_true])

section States

variable {s u : Globals} {p : Platform}

theorem Found.with_tables (h : Found s) {t : Tables} (ht : Keyed s.ifnet t) :
    Found { s with tables := t } :=
  ⟨h.ifs, h.atHead, ht⟩

theorem Found.of_eq (h : Found s) (hifnet : u.ifnet = s.ifnet)
    (hat : u.ifnextAtHead = s.ifnextAtHead) (ht : Keyed s.ifnet u.tables) : Found u :=
  ⟨hifnet ▸ h.ifs, by rw [hat, hifnet]; exact h.atHead, hifnet ▸ ht⟩

theorem Keyed.mono {ifnet ifnet' : List Interface} {t : Tables} (h : Keyed ifnet t)
    (hnamed : ∀ i, Named ifnet i → Named ifnet' i) : Keyed ifnet' t :=
  ⟨h.canonical, h.hosts, fun rt hrt => (h.nets rt hrt).imp_right (hnamed _), h.order⟩

theorem newInterface_ok {id : ℕ} {r : Ifreq} {f : KernelFlags} {netmask : UInt32}
    (hmask : netmask &&& classMask r.addr = classMask r.addr)
    (hbroad : f.broadcast = true → r.broadaddr.isSome = true)
    (hptp : f.pointopoint = true → r.dstaddr.isSome = true) :
    IfOk (newInterface id r f netmask) := by
  refine ⟨fun _ => ⟨r.addr, rfl, rfl, hmask⟩, fun h => ?_, rfl, fun h => ?_⟩
  · cases h
  · simp only [Interface.dstaddr, newInterface] at h ⊢
    by_cases hb : f.broadcast = true
    · obtain ⟨a, ha⟩ := Option.isSome_iff_exists.mp (hbroad hb)
      simp only [hb, if_true, ha]
      rfl
    · obtain ⟨a, ha⟩ := Option.isSome_iff_exists.mp (hptp h)
      simp only [hb, h, if_true, ha]
      rfl

theorem noteLoopback_found (h : Found s) (addr : Sockaddr) : Found (s.noteLoopback p addr) := by
  have hfold : ∀ (env : Env) (l : List Interface) (t : Tables),
      (∀ ifp ∈ env.ifnet, IfOk ifp) → (∀ ifp ∈ l, IfOk ifp) → Keyed env.ifnet t →
      Keyed env.ifnet (l.foldl (fun t ifp =>
        if ifp.flags.pointopoint then addPtoptLocalrt env ifp t else t) t) := by
    intro env l
    induction l with
    | nil => exact fun _ _ _ h => h
    | cons ifp l ih =>
      intro t hifs hl ht
      rw [List.foldl_cons]
      apply ih _ hifs (fun i hi => hl i (List.mem_cons_of_mem _ hi))
      split
      · exact addPtoptLocalrt_keyed hifs ht (hl ifp List.mem_cons_self)
      · exact ht
  exact h.of_eq rfl rfl (hfold (Globals.env p none { s with
    foundloopback := true, loopaddr := addr }) s.ifnet s.tables h.ifs h.ifs h.keyed)

theorem attach_found (h : Found s) {ifp : Interface} (hifp : IfOk ifp)
    (hremote : ifp.flags.remote = false) : Found (s.attach p ifp) := by
  have hifs : ∀ i ∈ (if s.ifnextAtHead then [ifp] else s.ifnet ++ [ifp]), IfOk i := by
    intro i hi
    split at hi
    · rw [List.mem_singleton.mp hi]
      exact hifp
    · rcases List.mem_append.mp hi with hi | hi
      · exact h.ifs i hi
      · rw [List.mem_singleton.mp hi]
        exact hifp
  have hlist : hardware (if s.ifnextAtHead then [ifp] else s.ifnet ++ [ifp]) =
      hardware s.ifnet ++ [ifp] := by
    split
    · rename_i hat
      rw [h.atHead hat]
      simp [hardware, hremote]
    · simp [hardware, hremote]
  refine ⟨hifs, fun hat => absurd hat (by simp [Globals.attach]), ?_⟩
  apply @addrouteforif_keyed _ (Globals.env p none { s with
    ifnet := if s.ifnextAtHead then [ifp] else s.ifnet ++ [ifp] }) _ hifs ?_ hifp
  exact h.keyed.mono (fun i hi => named_append h.ifs hifs hlist hi)

theorem ifinitEntry_found {r : Ifreq} (h : Found s)
    (hmask : ∀ netmask ∈ r.netmask, netmask &&& classMask r.addr = classMask r.addr) :
    Found (s.ifinitEntry p r) := by
  unfold Globals.ifinitEntry
  split
  · exact h
  · rename_i f hf
    split
    · exact ⟨h.ifs, h.atHead, h.keyed⟩
    · split
      · exact h
      · split
        · exact h
        · rename_i hptp
          split
          · exact h
          · have hloop : Found (if f.loopback then s.noteLoopback p (sockaddrIn r.addr)
                else s) := by
              split
              · exact noteLoopback_found h _
              · exact h
            simp only
            split
            · exact hloop
            · rename_i hbroad
              split
              · exact hloop
              · rename_i netmask hnetmask
                refine attach_found hloop (newInterface_ok (hmask netmask hnetmask) ?_ ?_) rfl
                · intro hb
                  simpa [hb, ← Option.isSome_iff_ne_none] using hbroad
                · intro hp
                  simpa [hp, ← Option.isSome_iff_ne_none] using hptp

theorem ifinit_found {reqs : List Ifreq} (h : Found s) (hmasks : MasksOk reqs) :
    Found (s.ifinit p reqs) := by
  have hfold : ∀ (reqs : List Ifreq) (s : Globals), Found s → MasksOk reqs →
      Found (reqs.foldl (Globals.ifinitEntry p) s) := by
    intro reqs
    induction reqs with
    | nil => exact fun _ h _ => h
    | cons r reqs ih =>
      intro s h hmasks
      rw [List.foldl_cons]
      exact ih _ (ifinitEntry_found h (hmasks r List.mem_cons_self))
        (fun r' hr' => hmasks r' (List.mem_cons_of_mem _ hr'))
  have hfound := hfold reqs { s with lookforinterfaces := false }
    ⟨h.ifs, h.atHead, h.keyed⟩ hmasks
  unfold Globals.ifinit
  simp only
  split
  · exact ⟨hfound.ifs, hfound.atHead, hfound.keyed⟩
  · exact hfound

theorem active_found (h : Found s) {g : Gateway} (hnet : inetNetofSubnet s.ifnet g.dst ≠ 0)
    (hqual : g.qual = .active) : Found (s.gwkludgeEntry p g) := by
  have hok : IfOk (remoteInterface s.ifnet s.nextIf g) := by
    refine ⟨fun h => ?_, fun _ => ⟨rfl, rfl, hnet, rfl⟩, rfl, fun h => ?_⟩
    · cases h
    · have hhost : g.host = true := h
      simp only [Interface.dstaddr, remoteInterface, hhost, if_true]
      rfl
  have hifs : ∀ ifp ∈ remoteInterface s.ifnet s.nextIf g :: s.ifnet, IfOk ifp := by
    intro ifp hifp
    rcases List.mem_cons.mp hifp with rfl | hifp
    · exact hok
    · exact h.ifs ifp hifp
  have hlist : hardware (remoteInterface s.ifnet s.nextIf g :: s.ifnet) = hardware s.ifnet := by
    simp [hardware, remoteInterface]
  unfold Globals.gwkludgeEntry
  rw [hqual]
  refine ⟨hifs, fun hat => hlist.trans (h.atHead hat), ?_⟩
  apply @addrouteforif_keyed _ (Globals.env p none { s with
    ifnet := remoteInterface s.ifnet s.nextIf g :: s.ifnet }) _ hifs ?_ hok
  exact h.keyed.mono (fun i hi => named_congr h.ifs hifs hlist hi)

/-! ## Updates and ticks -/

theorem Keyed.map {ifnet : List Interface} {t : Tables} (h : Keyed ifnet t)
    {f : RtEntry → RtEntry} (hf : ∀ e, Stays e (f e))
    (hkey : ∀ e, (f e).dst = e.dst ∧ (f e).hash = e.hash ∧
      (f e).state.internal = e.state.internal) : Keyed ifnet (t.map f hf) := by
  unfold Tables.map
  apply h.filterMap
  rintro e y ⟨⟩
  exact hkey e

theorem toall_found (h : Found s) (changedOnly : Bool) (skipif : Option ℕ) :
    Found (s.toall changedOnly skipif) := by
  have hentry : ∀ (s : Globals) (ifp : Interface), Found s →
      Found (Globals.toallEntry changedOnly skipif s ifp) := by
    intro s ifp h
    unfold Globals.toallEntry
    split
    · exact h
    · refine h.of_eq rfl rfl (h.keyed.map (toldBy_inPlace ifp (Globals.toallDst ifp) _) ?_)
      intro e
      unfold toldBy
      split <;> exact ⟨rfl, rfl, rfl⟩
  have hfold : ∀ (l : List Interface) (s : Globals), Found s →
      Found (l.foldl (Globals.toallEntry changedOnly skipif) s) := by
    intro l
    induction l with
    | nil => exact fun _ h => h
    | cons ifp l ih => exact fun s h => ih _ (hentry s ifp h)
  exact hfold s.ifnet s h

theorem clear_found (h : Found s) : Found s.clearNeedupdate :=
  h.of_eq rfl rfl (h.keyed.map (f := fun rt => { rt with told := none })
    (fun _ => ⟨rfl, rfl, rfl⟩) (fun _ => ⟨rfl, rfl, rfl⟩))

theorem sendDynamic_found (h : Found s) (skipif : Option ℕ) :
    Found (s.sendDynamic skipif) := by
  have hsent := toall_found h true skipif
  have hclear : Found ({ s.toall true skipif with lastbcast := s.now } : Globals).clearNeedupdate :=
    clear_found ⟨hsent.ifs, hsent.atHead, hsent.keyed⟩
  exact ⟨hclear.ifs, hclear.atHead, hclear.keyed⟩

theorem sendFull_found (h : Found s) : Found s.sendFull := by
  have hsent := toall_found h false none
  have hclear : Found ({ s.toall false none with
      lastbcast := s.now, lastfullupdate := s.now } : Globals).clearNeedupdate :=
    clear_found ⟨hsent.ifs, hsent.atHead, hsent.keyed⟩
  exact ⟨hclear.ifs, hclear.atHead, hclear.keyed⟩

theorem dynamicUpdate_found (h : Found s) (ifp : Interface) (random : ℕ) :
    Found (s.dynamicUpdate ifp random) := by
  have hinhibit : ∀ s : Globals, Found s → Found (s.inhibit random) := by
    intro s h
    unfold Globals.inhibit
    split
    · exact ⟨h.ifs, h.atHead, h.keyed⟩
    · exact h
  unfold Globals.dynamicUpdate
  split
  · apply hinhibit
    split
    · exact sendDynamic_found h _
    · exact ⟨h.ifs, h.atHead, h.keyed⟩
  · exact h

theorem ripInput_found (h : Found s) (now : Timeval) (random : ℕ) (r : Response) :
    Found (s.ripInput p now random r) := by
  have hnow : Found { s with now := now } := ⟨h.ifs, h.atHead, h.keyed⟩
  unfold Globals.ripInput
  simp only
  split
  · split
    · rename_i ifp hifp
      split
      · exact hnow
      · apply hnow.with_tables
        exact @hearOurselves_keyed _ (Globals.env p (some ifp.id) { s with now := now }) _
          h.ifs _ h.keyed (h.ifs ifp (ifIfwithaddr_mem hifp))
    · unfold Globals.hearRouter
      have hrefresh := @refreshSender_keyed _ (Globals.env p
        ((ifIflookup s.ifnet (inetCanon r.src)).map Interface.id) { s with now := now })
        h.ifs (inetCanon r.src) h.keyed
      simp only
      split
      · exact hnow.with_tables hrefresh
      · rename_i ifp hifp
        have hnets := hnow.with_tables (@ripNets_keyed _ _ ifp h.ifs (inetCanon r.src)
          r.nets hrefresh)
        split
        · exact dynamicUpdate_found hnets ifp random
        · exact hnets
  · exact hnow

theorem ageEntry_sameKey (env : Env) (supplier : Int) : SameKey (ageEntry env supplier) := by
  intro e y hy
  unfold ageEntry at hy
  simp only at hy
  split at hy
  · cases hy
  · cases hy
    split <;> exact ⟨rfl, rfl, rfl⟩

theorem timer_found (h : Found s) (now : Timeval) {reqs : List Ifreq} (hmasks : MasksOk reqs) :
    Found (s.timer p now reqs) := by
  have hcheck : Found (Globals.checkInterfaces p reqs
      { s with now := now, faketime := s.faketime + TIMER_RATE }) := by
    have hstart : Found { s with now := now, faketime := s.faketime + TIMER_RATE } :=
      ⟨h.ifs, h.atHead, h.keyed⟩
    unfold Globals.checkInterfaces
    split
    · exact ifinit_found hstart hmasks
    · exact hstart
  have haged : ∀ (env : Env) (u : Globals), Found u →
      Found { u with tables := ageTables env u.supplier u.tables } :=
    fun env u hu => hu.with_tables
      ((hu.keyed.filterMap (ageEntry_sameKey env u.supplier)).with_ioctls _)
  unfold Globals.timer
  simp only
  split
  · exact sendFull_found (haged _ _ hcheck)
  · exact haged _ _ hcheck

end States

/-! ## Runs -/

/-- What changes the tables or the list of interfaces: `ifinit` and the lines of the file of
gateways, the default route, and the events of the loop. -/
inductive TableEvent where
  | interfaces (reqs : List Ifreq)
  | gateway (g : Gateway)
  | default
  | loop (e : Event)
  deriving DecidableEq

def TableEvent.apply (p : Platform) (s : Globals) : TableEvent → Globals
  | .interfaces reqs => s.ifinit p reqs
  | .gateway g => s.gwkludgeEntry p g
  | .default => { s with tables := rtdefault (s.env p none) s.tables }
  | .loop e => e.apply p s

def tableStep (p : Platform) (s : Globals) (e : TableEvent) : Option Globals := some (e.apply p s)

/-- The conditions on an event: subnet masks include the mask of the class, a remote interface
has a network number other than 0, and a route from outside is the first one to its
destination. -/
def Classful (s : Globals) : TableEvent → Prop
  | .interfaces reqs => MasksOk reqs
  | .gateway g => (g.qual = .active → inetNetofSubnet s.ifnet g.dst ≠ 0) ∧
      (g.qual = .external → Vacant s.tables (sockaddrIn g.dst))
  | .default => Vacant s.tables inetDefault
  | .loop (.tick _ reqs) => MasksOk reqs
  | .loop _ => True

theorem boot_found (supplier : Int) (now : Timeval) : Found (Globals.boot supplier now) :=
  ⟨fun _ h => absurd h List.not_mem_nil, fun _ => rfl, keyed_rtinit []⟩

theorem tableStep_found {p : Platform} {s u : Globals} {e : TableEvent} (h : Found s)
    (hok : Classful s e) (hstep : tableStep p s e = some u) : Found u := by
  cases hstep
  cases e with
  | interfaces reqs => exact ifinit_found h hok
  | gateway g =>
    obtain ⟨hactive, hexternal⟩ := hok
    cases hqual : g.qual with
    | active => exact active_found h (hactive hqual) hqual
    | passive =>
      simp only [TableEvent.apply, Globals.gwkludgeEntry, hqual]
      exact h.with_tables (h.keyed.with_ioctls _)
    | external =>
      simp only [TableEvent.apply, Globals.gwkludgeEntry, hqual]
      apply h.with_tables
      exact @Keyed.rtadd _ _ _ _ _ (s.env p none) h.keyed h.ifs rfl
        (fun hint => absurd hint (by simp)) (hexternal hqual)
  | default =>
    apply h.with_tables
    exact @Keyed.rtadd _ _ _ _ _ (s.env p none) h.keyed h.ifs rfl
      (fun _ => rtflags_classNet s.ifnet 0) hok
  | loop e =>
    cases e with
    | response now random r => exact ripInput_found h now random r
    | tick now reqs => exact timer_found h now hok
    | expired now =>
      simp only [TableEvent.apply, Event.apply, Globals.delayedUpdate]
      split
      · exact sendDynamic_found (s := { s with now := now }) ⟨h.ifs, h.atHead, h.keyed⟩ none
      · exact h

/-- In every state that such a run reaches, a search for a destination finds a route to it
exactly if there is one, and of two routes with one destination at least one is internal. -/
theorem lookup_complete (p : Platform) (supplier : Int) (now : Timeval) (es : List TableEvent)
    (hok : Steps Classful (tableStep p) (Globals.boot supplier now) es) (u : Globals)
    (hu : Reached (tableStep p) (Globals.boot supplier now) es u) :
    (∀ dst, (∃ rt, rtlookup u.ifnet u.tables dst = some rt ∧ rt.dst = dst) ↔
      ∃ rt ∈ u.tables.entries, rt.dst = dst) ∧
    u.tables.entries.Pairwise (fun a b => a.dst = b.dst →
      a.state.internal = true ∨ b.state.internal = true) := by
  have hfound : Found u := steps_reached (fun _ _ _ hs hok hstep => tableStep_found hs hok hstep)
    (boot_found supplier now) hok hu
  refine ⟨fun dst => ⟨?_, ?_⟩, hfound.keyed.order.imp (fun h heq => Or.inr (h heq))⟩
  · rintro ⟨rt, hrt, hdst⟩
    exact ⟨rt, (rtlookup_mem hrt).1, hdst⟩
  · rintro ⟨rt, hrt, rfl⟩
    have hfamily : rt.dst.family = AF_INET := by
      rw [hfound.keyed.canonical rt hrt]
      rfl
    cases hfind : rtlookup u.ifnet u.tables rt.dst with
    | some found => exact ⟨found, rfl, (rtlookup_mem hfind).2⟩
    | none =>
      rw [rtlookup_eq hfound.keyed hfamily, List.find?_eq_none] at hfind
      exact absurd (by simp) (hfind rt hrt)

theorem run_tableStep (p : Platform) (s : Globals) (es : List TableEvent) :
    run (tableStep p) s es = some (es.foldl (TableEvent.apply p) s) := by
  induction es generalizing s with
  | nil => rfl
  | cons e es ih => exact ih (e.apply p s)

/-- A subnetted network, a gateway to a remote network, and a route that is learned. -/
theorem lookup_complete_subnet :
    ∃ u, Reached (tableStep linux) (Globals.boot (-1) ⟨1000, 0⟩)
        [.interfaces [ether 0x0a010001 0xffff0000 0x0a01ffff],
          .gateway ⟨false, 0xac100000, 0x0a010002, 1, .active⟩,
          .loop (tells ⟨1003, 0⟩ 0x0a010002 0xc0a80500)] u ∧
      ∃ rt, rtlookup u.ifnet u.tables (sockaddrIn 0xc0a80500) = some rt ∧
        rt.dst = sockaddrIn 0xc0a80500 := by
  refine ⟨_, ⟨_, List.prefix_rfl, run_tableStep _ _ _⟩, ?_⟩
  refine ((lookup_complete linux (-1) ⟨1000, 0⟩ _ ?_ _
    ⟨_, List.prefix_rfl, run_tableStep _ _ _⟩).1 (sockaddrIn 0xc0a80500)).mpr ?_
  · refine ⟨show MasksOk _ by decide +kernel, ?_⟩
    rintro t ⟨⟩
    refine ⟨⟨fun _ => by decide +kernel, fun h => by cases h⟩, ?_⟩
    rintro t ⟨⟩
    refine ⟨trivial, ?_⟩
    rintro t ⟨⟩
    trivial
  · decide +kernel

/-- Without the conditions a route is lost, and destinations are not unique. The network route
of a subnetted interface does not keep out a route that is learned. A remote gateway with the
network number 0 makes all networks alike. A mask that does not include the mask of the class
gives the network of the interface another key, and its route is learned a second time. -/
theorem lookup_incomplete :
    (∃ u, run (tableStep linux) (Globals.boot (-1) ⟨1000, 0⟩)
        [.interfaces [ether 0x0a010001 0xffff0000 0x0a01ffff],
          .loop (tells ⟨1003, 0⟩ 0x0a010002 0x0a000000)] = some u ∧
      ¬ u.tables.entries.Pairwise (fun a b => a.dst ≠ b.dst)) ∧
    (∃ u, run (tableStep linux) (Globals.boot (-1) ⟨1000, 0⟩)
        [.interfaces [ether 0x0a000001 0xff000000 0x0affffff],
          .gateway ⟨false, 0, 0x0a000002, 1, .active⟩] = some u ∧
      (∃ rt ∈ u.tables.entries, rt.dst = sockaddrIn 0x0a000000) ∧
      rtlookup u.ifnet u.tables (sockaddrIn 0x0a000000) = none) ∧
    (∃ u, run (tableStep linux) (Globals.boot (-1) ⟨1000, 0⟩)
        [.interfaces [ether 0x0a000001 0xff000000 0x0affffff],
          .loop (tells ⟨1003, 0⟩ 0x0a000002 0xc0a80500),
          .interfaces [ether 0xc0a80501 0xffff0000 0xc0a8ffff],
          .loop (tells ⟨1006, 0⟩ 0xc0a80502 0xc0a80500)] = some u ∧
      ¬ u.tables.entries.Pairwise (fun a b => a.dst = b.dst →
        a.state.internal = true ∨ b.state.internal = true)) := by
  refine ⟨⟨_, run_tableStep _ _ _, ?_⟩, ⟨_, run_tableStep _ _ _, ?_, ?_⟩,
    ⟨_, run_tableStep _ _ _, ?_⟩⟩
  · decide +kernel
  · decide +kernel
  · decide +kernel
  · decide +kernel

end Netkit.Routed

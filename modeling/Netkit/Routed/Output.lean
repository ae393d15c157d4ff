import Netkit.Routed.Startup

/-!
# routed sends its routes

`output.c`, with the rule of `inet.c` on the spread of subnet routes. An update goes to all
interfaces that are not passive, with the exception of one; it holds the whole table, or only
the routes that are marked as changed.
-/

namespace Netkit.Routed

def MAXPACKETSIZE : ℕ := 512

def inetSendroute (rt : RtEntry) (dst : Sockaddr) : Bool :=
  let r := rt.dst.addr
  let host := r &&& ~~~classMask r
  if classNet r == dst.addr &&& classMask r then
    if host == 0 then !rt.state.internal else true
  else if host != 0 then false
  else rt.state.internal

/-! ## The filters of `supply` -/

def splitHorizon (ifp : Option Interface) (rt : RtEntry) : Bool :=
  match ifp with
  | some ifp => rt.ifp == some ifp.id && !rt.state.interface
  | none => false

/-- The route is to a subnet that `dst` has no interest in. -/
def subnetFilter (dst : Sockaddr) (rt : RtEntry) : Bool :=
  rt.state.subnet && (rt.dst.family != dst.family || !inetSendroute rt dst)

/-- The tests of the loop of `supply`. The last one is made for `nethash` only. -/
def isSupplied (ifp : Option Interface) (dst : Sockaddr) (changedOnly doingnet : Bool)
    (rt : RtEntry) : Bool :=
  !splitHorizon ifp rt && !rt.state.external && (!changedOnly || rt.changed) &&
    !(doingnet && subnetFilter dst rt)

/-- The routes that `supply` has to send. -/
def supplied (ifp : Option Interface) (dst : Sockaddr) (changedOnly : Bool) (t : Tables) :
    List RtEntry :=
  t.hosthash.elements.filter (isSupplied ifp dst changedOnly false) ++
    t.nethash.elements.filter (isSupplied ifp dst changedOnly true)

/-! ## Packets -/

/-- `(char *)n - packet` when the packet holds the routes `n`: a header of 4 bytes, and 20 bytes
for every `struct netinfo`. -/
def packetSize (n : List RtEntry) : ℕ := 4 + 20 * n.length

/-- The loop of `supply` on the routes that are left, with the routes `n` in the packet and
`npackets` packets sent. With `alone` it stops after the first packet. -/
def pack (alone changedOnly : Bool) : ℕ → List RtEntry → List RtEntry → List (List RtEntry)
  | npackets, n, [] =>
    if n ≠ [] ∨ (npackets = 0 ∧ changedOnly = false) then [n] else []
  | npackets, n, rt :: rest =>
    if packetSize n > MAXPACKETSIZE - 20 then
      n :: (if alone then [] else pack alone changedOnly (npackets + 1) [rt] rest)
    else pack alone changedOnly npackets (n ++ [rt]) rest

/-- If we send to ourselves only, one packet is enough to monitor the interface. -/
def isAlone (ifp : Option Interface) : Bool := ifp.any (fun ifp => !ifp.hasPeer)

/-- The contents of the packets that `supply` sends. -/
def supplyPackets (ifp : Option Interface) (dst : Sockaddr) (changedOnly : Bool) (t : Tables) :
    List (List RtEntry) :=
  pack (isAlone ifp) changedOnly 0 [] (supplied ifp dst changedOnly t)

def RtEntry.netinfo (rt : RtEntry) : Netinfo := ⟨rt.dst, rt.metric⟩

/-- `told` after `supply` on the interface `ifp`: the route has been sent, or one of the filters
says that it is not to be sent there. -/
def toldBy (ifp : Interface) (dst : Sockaddr) (sent : List RtEntry) (rt : RtEntry) : RtEntry :=
  if sent.any (fun e => e.id == rt.id) || splitHorizon (some ifp) rt ||
      (!rt.host && subnetFilter dst rt) then
    { rt with told := rt.told.map (ifp.id :: ·) }
  else rt

theorem toldBy_inPlace (ifp : Interface) (dst : Sockaddr) (sent : List RtEntry) (rt : RtEntry) :
    Stays rt (toldBy ifp dst sent rt) := by
  unfold toldBy
  split <;> exact ⟨rfl, rfl, rfl⟩

namespace Globals

def supply (dst : Sockaddr) (dontroute : Bool) (ifp : Option Interface) (changedOnly : Bool)
    (s : Globals) : Globals :=
  let packets := supplyPackets ifp dst changedOnly s.tables
  { s with
    packets := s.packets ++ packets.map (fun n =>
      { ifp := ifp.map Interface.id, dst := dst, dontroute := dontroute
        nets := n.map RtEntry.netinfo })
    tables := match ifp with
      | some ifp =>
        s.tables.map (toldBy ifp dst packets.flatten) (toldBy_inPlace ifp dst packets.flatten)
      | none => s.tables }

/-- The address that `toall` sends to on an interface. -/
def toallDst (ifp : Interface) : Sockaddr :=
  if ifp.flags.broadcast then ifp.broadaddr
  else if ifp.flags.pointopoint then ifp.dstaddr
  else ifp.addr

/-- The body of the loop of `toall(supply, rtstate, skipif)`. -/
def toallEntry (changedOnly : Bool) (skipif : Option ℕ) (s : Globals) (ifp : Interface) :
    Globals :=
  if ifp.flags.passive || skipif == some ifp.id then s
  else s.supply (toallDst ifp) ifp.flags.interface (some ifp) changedOnly

/-- `toall(supply, rtstate, skipif)`. -/
def toall (changedOnly : Bool) (skipif : Option ℕ) (s : Globals) : Globals :=
  s.ifnet.foldl (toallEntry changedOnly skipif) s

end Globals

/-! ## What the packets hold -/

theorem pack_flatten (changedOnly : Bool) (npackets : ℕ) (n rest : List RtEntry) :
    (pack false changedOnly npackets n rest).flatten = n ++ rest := by
  induction rest generalizing npackets n with
  | nil =>
    unfold pack
    split
    · simp
    · rename_i h
      have hn : n = [] := by
        by_contra hne
        exact h (Or.inl hne)
      simp [hn]
  | cons rt rest ih =>
    unfold pack
    split
    · simp [ih]
    · rw [ih, List.append_assoc, List.singleton_append]

/-- On an interface with someone to talk to, or in answer to a query, the packets hold the routes
that pass the filters, in the order of the tables. -/
theorem supplyPackets_flatten {ifp : Option Interface} (h : isAlone ifp = false)
    (dst : Sockaddr) (changedOnly : Bool) (t : Tables) :
    (supplyPackets ifp dst changedOnly t).flatten = supplied ifp dst changedOnly t := by
  rw [supplyPackets, h, pack_flatten, List.nil_append]

theorem mem_supplied {ifp : Option Interface} {dst : Sockaddr} {changedOnly : Bool}
    {t : Tables} {rt : RtEntry} (hrt : rt ∈ t.entries) :
    rt ∈ supplied ifp dst changedOnly t ↔ isSupplied ifp dst changedOnly (!rt.host) rt = true := by
  have hmem : rt ∈ supplied ifp dst changedOnly t ↔
      (rt ∈ t.hosthash.elements ∧ isSupplied ifp dst changedOnly false rt = true) ∨
        (rt ∈ t.nethash.elements ∧ isSupplied ifp dst changedOnly true rt = true) := by
    simp [supplied]
  rw [hmem]
  rcases mem_entries.mp hrt with hhost | hnet
  · have hh := t.wellFormed.hosts rt hhost
    have hno : rt ∉ t.nethash.elements := by
      intro hnet
      have := t.wellFormed.nets rt hnet
      rw [hh] at this
      cases this
    simp [hhost, hno, hh]
  · have hh := t.wellFormed.nets rt hnet
    have hno : rt ∉ t.hosthash.elements := by
      intro hhost
      have := t.wellFormed.hosts rt hhost
      rw [hh] at this
      cases this
    simp [hnet, hno, hh]

/-! ## What an update leaves owed -/

/-- The changes of a route need not be sent on the interface `i` any more. -/
def RtEntry.Settled (i : ℕ) (rt : RtEntry) : Prop := ∀ told, rt.told = some told → i ∈ told

/-- `supply` does not hold the route back for a reason other than split horizon and the filter
on subnets. -/
def RtEntry.Sendable (changedOnly : Bool) (rt : RtEntry) : Prop :=
  rt.told ≠ none → rt.state.external = false ∧ (changedOnly = true → rt.changed = true)

variable {ifp : Interface} {dst : Sockaddr} {changedOnly : Bool} {sent : List RtEntry}
  {rt : RtEntry} {t : Tables}

/-- What `toldBy` leaves as it is: everything but `told`, which it only adds to. -/
theorem toldBy_eq (ifp : Interface) (dst : Sockaddr) (sent : List RtEntry) (rt : RtEntry) :
    ∃ told, toldBy ifp dst sent rt = { rt with told := told } ∧
      (told = none ↔ rt.told = none) ∧
      ∀ i, rt.Settled i → ({ rt with told := told } : RtEntry).Settled i := by
  unfold toldBy
  split
  · refine ⟨_, rfl, by simp, ?_⟩
    intro i h told htold
    obtain ⟨old, hold, rfl⟩ := Option.map_eq_some_iff.mp htold
    exact List.mem_cons_of_mem _ (h old hold)
  · exact ⟨rt.told, rfl, Iff.rfl, fun i h => h⟩

theorem toldBy_settled (hpeer : ifp.hasPeer = true) (hrt : rt ∈ t.entries)
    (h : rt.Sendable changedOnly) :
    (toldBy ifp dst (supplyPackets (some ifp) dst changedOnly t).flatten rt).Settled ifp.id := by
  rw [supplyPackets_flatten (by simp [isAlone, hpeer])]
  unfold toldBy
  split
  · intro told htold
    obtain ⟨old, -, rfl⟩ := Option.map_eq_some_iff.mp htold
    exact List.mem_cons_self
  · rename_i hno
    intro told htold
    simp only [Bool.or_eq_true, not_or, Bool.not_eq_true, List.any_eq_false,
      beq_iff_eq] at hno
    obtain ⟨⟨hsent, hhorizon⟩, hsubnet⟩ := hno
    obtain ⟨hext, hchanged⟩ := h (by rw [htold]; exact Option.some_ne_none told)
    have hmem : rt ∈ supplied (some ifp) dst changedOnly t := by
      rw [mem_supplied hrt]
      have hch : (!changedOnly || rt.changed) = true := by
        cases hc : changedOnly with
        | false => rfl
        | true => simp [hchanged hc]
      simp [isSupplied, hhorizon, hext, hch, hsubnet]
    exact absurd rfl (hsent rt hmem)

namespace Globals

variable {s : Globals} {skipif : Option ℕ}

/-- What `toall` changes: the packets that have been sent, and `told` in the routes. -/
structure Sent (s u : Globals) : Prop where
  entries : ∀ e ∈ u.tables.entries, ∃ rt ∈ s.tables.entries, ∃ told,
    e = { rt with told := told } ∧ (told = none ↔ rt.told = none) ∧
      ∀ i, rt.Settled i → e.Settled i
  rest : ∃ tables packets, u = { s with tables := tables, packets := packets }

theorem Sent.refl (s : Globals) : Sent s s :=
  ⟨fun e he => ⟨e, he, e.told, rfl, Iff.rfl, fun _ h => h⟩, s.tables, s.packets, rfl⟩

theorem Sent.trans {u v : Globals} (h : Sent s u) (h' : Sent u v) : Sent s v := by
  refine ⟨?_, ?_⟩
  · intro e he
    obtain ⟨rt, hrt, told, rfl, hnone, hsettled⟩ := h'.entries e he
    obtain ⟨rt', hrt', told', rfl, hnone', hsettled'⟩ := h.entries rt hrt
    exact ⟨rt', hrt', told, rfl, hnone.trans hnone', fun i hi => hsettled i (hsettled' i hi)⟩
  · obtain ⟨t, p, rfl⟩ := h.rest
    obtain ⟨t', p', rfl⟩ := h'.rest
    exact ⟨t', p', rfl⟩

theorem supply_sent (dontroute : Bool) (ifp : Interface) :
    Sent s (s.supply dst dontroute (some ifp) changedOnly) := by
  refine ⟨?_, ⟨_, _, rfl⟩⟩
  intro e he
  simp only [supply, entries_map] at he
  obtain ⟨rt, hrt, rfl⟩ := List.mem_map.mp he
  obtain ⟨told, htold, hnone, hsettled⟩ := toldBy_eq ifp dst
    (supplyPackets (some ifp) dst changedOnly s.tables).flatten rt
  exact ⟨rt, hrt, told, htold, hnone, fun i hi => htold ▸ hsettled i hi⟩

theorem toallEntry_sent (ifp : Interface) : Sent s (toallEntry changedOnly skipif s ifp) := by
  unfold toallEntry
  split
  · exact Sent.refl s
  · exact supply_sent _ ifp

theorem foldl_sent (l : List Interface) (s : Globals) :
    Sent s (l.foldl (toallEntry changedOnly skipif) s) := by
  induction l generalizing s with
  | nil => exact Sent.refl s
  | cons ifp l ih => exact (toallEntry_sent ifp).trans (ih _)

theorem toall_sent (changedOnly : Bool) (skipif : Option ℕ) (s : Globals) :
    Sent s (s.toall changedOnly skipif) :=
  foldl_sent s.ifnet s

theorem Sent.sendable {u : Globals} (h : Sent s u)
    (hs : ∀ rt ∈ s.tables.entries, rt.Sendable changedOnly) :
    ∀ rt ∈ u.tables.entries, rt.Sendable changedOnly := by
  intro e he htold
  obtain ⟨rt, hrt, told, rfl, hnone, -⟩ := h.entries e he
  exact hs rt hrt (fun h => htold (hnone.mpr h))

theorem Sent.settled {u : Globals} (h : Sent s u) {i : ℕ}
    (hs : ∀ rt ∈ s.tables.entries, rt.Settled i) : ∀ rt ∈ u.tables.entries, rt.Settled i := by
  intro e he
  obtain ⟨rt, hrt, told, -, -, hsettled⟩ := h.entries e he
  exact hsettled i (hs rt hrt)

theorem supply_settled (dontroute : Bool) (hpeer : ifp.hasPeer = true)
    (h : ∀ rt ∈ s.tables.entries, rt.Sendable changedOnly) :
    ∀ rt ∈ (s.supply dst dontroute (some ifp) changedOnly).tables.entries,
      rt.Settled ifp.id := by
  intro e he
  simp only [supply, entries_map] at he
  obtain ⟨rt, hrt, rfl⟩ := List.mem_map.mp he
  exact toldBy_settled hpeer hrt (h rt hrt)

theorem toall_settled (h : ∀ rt ∈ s.tables.entries, rt.Sendable changedOnly)
    (hpeer : ∀ ifp ∈ s.listeners, ifp.hasPeer = true) :
    ∀ ifp ∈ s.listeners, skipif ≠ some ifp.id →
      ∀ rt ∈ (s.toall changedOnly skipif).tables.entries, rt.Settled ifp.id := by
  have hfold : ∀ l : List Interface, ∀ s : Globals,
      (∀ rt ∈ s.tables.entries, rt.Sendable changedOnly) →
      ∀ ifp ∈ l, ifp.flags.passive = false → ifp.hasPeer = true → skipif ≠ some ifp.id →
        ∀ rt ∈ (l.foldl (toallEntry changedOnly skipif) s).tables.entries,
          rt.Settled ifp.id := by
    intro l
    induction l with
    | nil => intro _ _ ifp hifp; cases hifp
    | cons i l ih =>
      intro s hs ifp hifp hpassive hp hskip
      rw [List.foldl_cons]
      rcases List.mem_cons.mp hifp with rfl | hifp
      · apply (foldl_sent l _).settled
        rw [toallEntry, if_neg (by simp [hpassive, hskip])]
        exact supply_settled _ hp hs
      · exact ih _ ((toallEntry_sent i).sendable hs) ifp hifp hpassive hp hskip
  intro ifp hifp hskip
  have hmem := List.mem_filter.mp hifp
  exact hfold s.ifnet s h ifp hmem.1 (by simpa using hmem.2) (hpeer ifp hifp) hskip

end Globals

end Netkit.Routed

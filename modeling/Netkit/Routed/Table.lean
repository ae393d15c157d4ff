import Netkit.Foundations.Chains
import Netkit.Routed.Interface

/-!
# The routing tables of routed

`table.h` and `tables.c`. Routes to hosts and routes to networks stand in two hash tables, each
with a key of its own. A route is changed in place, and the kernel is told by `rtioctl`.
-/

namespace Netkit.Routed

open Netkit.Foundations

def HOPCNT_INFINITY : Int := 16
def EXPIRE_TIME : Int := 180
def GARBAGE_TIME : Int := 240
def ROUTEHASHSIZ : ℕ := 32

/-! ## Routes -/

/-- The bits of `rt_state` other than `RTS_CHANGED`. -/
structure RtState where
  external : Bool := false
  internal : Bool := false
  passive : Bool := false
  interface : Bool := false
  remote : Bool := false
  subnet : Bool := false
  deriving DecidableEq

/-- `struct rt_entry`. Its place in memory is `id`. `RTF_HOST` and `RTF_GATEWAY` of `rt_flags`
are `host` and `gateway`, and `RTS_CHANGED` of `rt_state` is `changed`. The field `told` is no
part of the program, which never reads it: it is `none` while no change of the route waits to
be sent, and otherwise the interfaces that need not be sent the route any more. -/
structure RtEntry where
  id : ℕ
  hash : UInt32
  dst : Sockaddr
  router : Sockaddr
  host : Bool
  gateway : Bool
  state : RtState
  changed : Bool
  timer : Int
  metric : Int
  ifp : Option ℕ
  told : Option (List ℕ)
  deriving DecidableEq

/-- `told` after a change that was learned through `source`. The interfaces that need not be
sent this change are `source` only; the changes before it wait for theirs. -/
def toldAfter (source : Option ℕ) : Option (List ℕ) → Option (List ℕ)
  | none => some source.toList
  | some told => some (told.filter (fun i => source == some i))

/-! ## The kernel -/

inductive Action where
  | add
  | delete
  deriving DecidableEq

/-- The request that `rtioctl` makes of the kernel. -/
structure Ioctl where
  action : Action
  dst : Sockaddr
  gateway : Sockaddr
  viaGateway : Bool
  host : Bool
  metric : Int
  genmask : UInt32
  deriving DecidableEq

inductive Errno where
  | ENETUNREACH
  | other
  deriving DecidableEq

/-- What the operations on the tables read: the kernel and its answer to the last of the
requests made so far, the interfaces, and the address that `ifinit` has found on the loopback.
The interface `source`, through which the message that is being processed was received, is no
part of the program: it is kept for `RtEntry.told`. -/
structure Env where
  kernelVersion : ℕ
  kernel : List Ioctl → Option Errno
  ifnet : List Interface
  foundloopback : Bool
  loopaddr : Sockaddr
  source : Option ℕ

/-- The mask that `rtioctl` puts into a request. -/
def genmask (ifnet : List Interface) (host : Bool) (addr : UInt32) : UInt32 :=
  if host then 0xffffffff else inetMaskof ifnet addr

/-- `rtioctl`: the request for the route `rt`. -/
def rtioctl (env : Env) (action : Action) (rt : RtEntry) : Ioctl where
  action := action
  dst := rt.dst
  gateway := rt.router
  viaGateway := rt.gateway
  host := rt.host
  metric := rt.metric
  genmask := genmask env.ifnet rt.host rt.dst.addr

/-! ## The tables -/

/-- `hash & ROUTEHASHMASK`. -/
def bucket (hash : UInt32) : Fin ROUTEHASHSIZ :=
  ⟨hash.toNat % ROUTEHASHSIZ, Nat.mod_lt _ (by decide)⟩

/-- Two tables of routes: no two routes stand in the same place, the place `next` is free, the
routes to hosts stand in the first table and the others in the second, and every route stands in
the chain of its key. -/
structure WellFormed (hosthash nethash : Chains RtEntry ROUTEHASHSIZ) (next : ℕ) : Prop where
  distinct : (hosthash.elements ++ nethash.elements).Pairwise (fun a b => a.id ≠ b.id)
  fresh : ∀ e ∈ hosthash.elements ++ nethash.elements, e.id < next
  hosts : ∀ e ∈ hosthash.elements, e.host = true
  nets : ∀ e ∈ nethash.elements, e.host = false
  hostChains : hosthash.Placed (fun e => bucket e.hash)
  netChains : nethash.Placed (fun e => bucket e.hash)

/-- `hosthash` and `nethash`, the next free place in memory and the requests made of the
kernel. -/
structure Tables where
  hosthash : Chains RtEntry ROUTEHASHSIZ
  nethash : Chains RtEntry ROUTEHASHSIZ
  next : ℕ
  ioctls : List Ioctl
  wellFormed : WellFormed hosthash nethash next

/-- The routes in the order in which every loop of the program visits them. -/
def Tables.entries (t : Tables) : List RtEntry := t.hosthash.elements ++ t.nethash.elements

theorem wellFormed_nil : WellFormed (fun _ => []) (fun _ => []) 0 := by
  have hno : ∀ b : Fin ROUTEHASHSIZ, ∀ e ∈ (fun _ => [] : Chains RtEntry ROUTEHASHSIZ) b,
      bucket e.hash = b := fun _ _ he => absurd he List.not_mem_nil
  refine ⟨?_, ?_, ?_, ?_, hno, hno⟩ <;> rw [Chains.elements_nil]
  · exact List.Pairwise.nil
  · exact fun _ he => absurd he List.not_mem_nil
  · exact fun _ he => absurd he List.not_mem_nil
  · exact fun _ he => absurd he List.not_mem_nil

def rtinit : Tables where
  hosthash := fun _ => []
  nethash := fun _ => []
  next := 0
  ioctls := []
  wellFormed := wellFormed_nil

section WellFormed

variable {hosthash nethash : Chains RtEntry ROUTEHASHSIZ} {next : ℕ} {rt : RtEntry}

/-- What every change of a route leaves alone: its place, which table it stands in, and its
key. -/
structure Stays (e y : RtEntry) : Prop where
  id : y.id = e.id
  host : y.host = e.host
  hash : y.hash = e.hash

theorem stays_rfl {e : RtEntry} : Stays e e := ⟨rfl, rfl, rfl⟩

def InPlace (f : RtEntry → Option RtEntry) : Prop := ∀ e y, f e = some y → Stays e y

theorem WellFormed.filterMap {f : RtEntry → Option RtEntry} (hf : InPlace f)
    (h : WellFormed hosthash nethash next) :
    WellFormed (hosthash.filterMap f) (nethash.filterMap f) next := by
  refine ⟨?_, ?_, ?_, ?_, ?_, ?_⟩
  · rw [Chains.elements_filterMap, Chains.elements_filterMap, ← List.filterMap_append]
    refine h.distinct.filterMap f (fun a b hab y hy z hz => ?_)
    rw [(hf a y hy).id, (hf b z hz).id]
    exact hab
  · rw [Chains.elements_filterMap, Chains.elements_filterMap, ← List.filterMap_append]
    intro e he
    obtain ⟨x, hx, hxe⟩ := List.mem_filterMap.mp he
    rw [(hf x e hxe).id]
    exact h.fresh x hx
  · rw [Chains.elements_filterMap]
    intro e he
    obtain ⟨x, hx, hxe⟩ := List.mem_filterMap.mp he
    rw [(hf x e hxe).host]
    exact h.hosts x hx
  · rw [Chains.elements_filterMap]
    intro e he
    obtain ⟨x, hx, hxe⟩ := List.mem_filterMap.mp he
    rw [(hf x e hxe).host]
    exact h.nets x hx
  · exact h.hostChains.filterMap (fun x _ e hxe => by rw [(hf x e hxe).hash])
  · exact h.netChains.filterMap (fun x _ e hxe => by rw [(hf x e hxe).hash])

theorem distinct_push {c : Chains RtEntry ROUTEHASHSIZ} {b : Fin ROUTEHASHSIZ}
    (hc : c.elements.Pairwise (fun a b => a.id ≠ b.id)) (hrt : ∀ e ∈ c.elements, e.id ≠ rt.id) :
    (c.push b rt).elements.Pairwise (fun a b => a.id ≠ b.id) := by
  apply Chains.push_pairwise hc
  · intro x hx
    exact Ne.symm (hrt x (Chains.mem_elements.mpr ⟨b, hx⟩))
  · intro i _ x hx
    have hne := hrt x (Chains.mem_elements.mpr ⟨i, hx⟩)
    exact ⟨Ne.symm hne, hne⟩

theorem WellFormed.id_ne (h : WellFormed hosthash nethash next) (hid : rt.id = next) :
    ∀ e ∈ hosthash.elements ++ nethash.elements, e.id ≠ rt.id := by
  intro e he
  have := h.fresh e he
  omega

theorem WellFormed.pushHost (h : WellFormed hosthash nethash next) (hid : rt.id = next)
    (hhost : rt.host = true) :
    WellFormed (hosthash.push (bucket rt.hash) rt) nethash (next + 1) := by
  have hne := h.id_ne hid
  obtain ⟨hhosts, hnets, hboth⟩ := List.pairwise_append.mp h.distinct
  refine ⟨List.pairwise_append.mpr ⟨?_, hnets, ?_⟩, ?_, ?_, h.nets, h.hostChains.push rfl,
    h.netChains⟩
  · exact distinct_push hhosts (fun e he => hne e (List.mem_append_left _ he))
  · intro x hx y hy
    rcases Chains.mem_elements_push.mp hx with rfl | hx
    · exact Ne.symm (hne y (List.mem_append_right _ hy))
    · exact hboth x hx y hy
  · intro e he
    rcases List.mem_append.mp he with he | he
    · rcases Chains.mem_elements_push.mp he with rfl | he
      · omega
      · exact Nat.lt_succ_of_lt (h.fresh e (List.mem_append_left _ he))
    · exact Nat.lt_succ_of_lt (h.fresh e (List.mem_append_right _ he))
  · intro e he
    rcases Chains.mem_elements_push.mp he with rfl | he
    · exact hhost
    · exact h.hosts e he

theorem WellFormed.pushNet (h : WellFormed hosthash nethash next) (hid : rt.id = next)
    (hhost : rt.host = false) :
    WellFormed hosthash (nethash.push (bucket rt.hash) rt) (next + 1) := by
  have hne := h.id_ne hid
  obtain ⟨hhosts, hnets, hboth⟩ := List.pairwise_append.mp h.distinct
  refine ⟨List.pairwise_append.mpr ⟨hhosts, ?_, ?_⟩, ?_, h.hosts, ?_, h.hostChains,
    h.netChains.push rfl⟩
  · exact distinct_push hnets (fun e he => hne e (List.mem_append_right _ he))
  · intro x hx y hy
    rcases Chains.mem_elements_push.mp hy with rfl | hy
    · exact hne x (List.mem_append_left _ hx)
    · exact hboth x hx y hy
  · intro e he
    rcases List.mem_append.mp he with he | he
    · exact Nat.lt_succ_of_lt (h.fresh e (List.mem_append_left _ he))
    · rcases Chains.mem_elements_push.mp he with rfl | he
      · omega
      · exact Nat.lt_succ_of_lt (h.fresh e (List.mem_append_right _ he))
  · intro e he
    rcases Chains.mem_elements_push.mp he with rfl | he
    · exact hhost
    · exact h.nets e he

end WellFormed

def Tables.filterMap (f : RtEntry → Option RtEntry) (hf : InPlace f) (t : Tables) : Tables :=
  { t with
    hosthash := t.hosthash.filterMap f
    nethash := t.nethash.filterMap f
    wellFormed := t.wellFormed.filterMap hf }

theorem inPlace_some {f : RtEntry → RtEntry} (hf : ∀ e, Stays e (f e)) :
    InPlace (fun e => some (f e)) := by
  intro e y hy
  cases hy
  exact hf e

theorem inPlace_drop (rt : RtEntry) :
    InPlace (fun e => if e.id = rt.id then none else some e) := by
  intro e y hy
  simp only at hy
  split at hy
  · cases hy
  · cases hy
    exact stays_rfl

theorem inPlace_at {f : RtEntry → RtEntry} (hf : ∀ e, Stays e (f e)) (rt e : RtEntry) :
    Stays e (if e.id = rt.id then f e else e) := by
  split
  · exact hf e
  · exact stays_rfl

def Tables.map (f : RtEntry → RtEntry) (hf : ∀ e, Stays e (f e)) (t : Tables) : Tables :=
  t.filterMap (fun e => some (f e)) (inPlace_some hf)

/-- The program writes through a pointer to `rt`. -/
def Tables.modify (rt : RtEntry) (f : RtEntry → RtEntry) (hf : ∀ e, Stays e (f e))
    (t : Tables) : Tables :=
  t.map (fun e => if e.id = rt.id then f e else e) (inPlace_at hf rt)

/-- `remque` and `free`. -/
def Tables.remque (rt : RtEntry) (t : Tables) : Tables :=
  t.filterMap (fun e => if e.id = rt.id then none else some e) (inPlace_drop rt)

/-- `malloc` and `insque`, into the table that `rtadd` has chosen. -/
def Tables.insque (t : Tables) (rt : RtEntry) (hid : rt.id = t.next) : Tables :=
  if h : rt.host = true then
    { t with
      hosthash := t.hosthash.push (bucket rt.hash) rt
      next := t.next + 1
      wellFormed := t.wellFormed.pushHost hid h }
  else
    { t with
      nethash := t.nethash.push (bucket rt.hash) rt
      next := t.next + 1
      wellFormed := t.wellFormed.pushNet hid (Bool.not_eq_true _ ▸ h) }

def rtlookup (ifnet : List Interface) (t : Tables) (dst : Sockaddr) : Option RtEntry :=
  if dst.family = AF_INET then
    let h := inetHash ifnet dst
    match (t.hosthash (bucket h.hosthash)).find?
        (fun rt => rt.hash == h.hosthash && rt.dst == dst) with
    | some rt => some rt
    | none => (t.nethash (bucket h.nethash)).find?
        (fun rt => rt.hash == h.nethash && rt.dst == dst)
  else none

def rtfind (ifnet : List Interface) (t : Tables) (dst : Sockaddr) : Option RtEntry :=
  if dst.family = AF_INET then
    let h := inetHash ifnet dst
    match (t.hosthash (bucket h.hosthash)).find?
        (fun rt => rt.hash == h.hosthash && rt.dst == dst) with
    | some rt => some rt
    | none => (t.nethash (bucket h.nethash)).find?
        (fun rt => rt.hash == h.nethash &&
          (rt.dst.family == dst.family && inetNetmatch ifnet rt.dst dst))
  else none

/-- The interface that `rtadd` and `rtchange` note in a route: the link to `peer` or an
interface on the network of `router`. -/
def routeInterface (ifnet : List Interface) (peer router : Sockaddr) : Option ℕ :=
  match ifIfwithdstaddr ifnet peer with
  | some ifp => some ifp.id
  | none => (ifIfwithnet ifnet router).map Interface.id

/-- The route that `rtadd` makes. -/
def newEntry (env : Env) (id : ℕ) (dst gate : Sockaddr) (metric : Int) (state : RtState) :
    RtEntry :=
  let h := inetHash env.ifnet dst
  let flags := inetRtflags env.ifnet dst.addr
  { id := id
    hash := if flags = .host then h.hosthash else h.nethash
    dst := dst
    router := gate
    host := decide (flags = .host)
    gateway := !state.interface
    state := { state with subnet := state.subnet || decide (flags = .subnet) }
    changed := true
    timer := 0
    metric := metric
    ifp := routeInterface env.ifnet dst gate
    told := toldAfter env.source none }

/-- `rtadd`. A route that the kernel cannot reach is taken out again. -/
def rtadd (env : Env) (dst gate : Sockaddr) (metric : Int) (state : RtState) (t : Tables) :
    Tables :=
  if dst.family = AF_INET then
    let rt := newEntry env t.next dst gate metric state
    let added := t.insque rt rfl
    if state.internal || state.external then added
    else
      let ioctls := t.ioctls ++ [rtioctl env .add rt]
      if env.kernel ioctls = some .ENETUNREACH then { t with ioctls := ioctls }
      else { added with ioctls := ioctls }
  else t

/-- The conversion of an argument of type `int` to the parameter `short metric`. -/
def toShort (metric : Int) : Int := (metric + 0x8000) % 0x10000 - 0x8000

/-- Whether `rtchange` adds a route to the kernel. -/
def changeAdds (rt : RtEntry) (gate : Sockaddr) (metric : Int) : Bool :=
  !rt.state.internal &&
    (rt.router != gate || (metric != HOPCNT_INFINITY && rt.metric == HOPCNT_INFINITY))

/-- Whether `rtchange` deletes a route of the kernel. From Linux 1.3.12 on the new route does
not replace the old one, unless they have the same metric. -/
def changeDeletes (env : Env) (rt : RtEntry) (gate : Sockaddr) (metric : Int) : Bool :=
  !rt.state.internal &&
    (if rt.router != gate then rt.metric != HOPCNT_INFINITY else metric == HOPCNT_INFINITY) &&
    !(changeAdds rt gate metric &&
      (if env.kernelVersion ≥ 0x01030b then rt.metric == metric else true))

/-- `rtchange`: the route afterwards. -/
def changeEntry (env : Env) (gate : Sockaddr) (metric : Int) (rt : RtEntry) : RtEntry :=
  let metric := toShort metric
  let add := changeAdds rt gate metric
  let timedOut := rt.state.interface && changeDeletes env rt gate metric
  { rt with
    state := { rt.state with interface := rt.state.interface && !timedOut }
    gateway := rt.gateway || timedOut
    router := if add then gate else rt.router
    ifp := if add then routeInterface env.ifnet gate gate else rt.ifp
    metric := metric
    changed := true
    told := toldAfter env.source rt.told }

/-- `rtchange`: the requests made of the kernel. -/
def changeIoctls (env : Env) (gate : Sockaddr) (metric : Int) (rt : RtEntry) : List Ioctl :=
  (if changeAdds rt gate (toShort metric) then
    [rtioctl env .add (changeEntry env gate metric rt)] else []) ++
  (if changeDeletes env rt gate (toShort metric) then [rtioctl env .delete rt] else [])

def rtchange (env : Env) (rt : RtEntry) (gate : Sockaddr) (metric : Int) (t : Tables) : Tables :=
  { t.modify rt (changeEntry env gate metric) (fun _ => ⟨rfl, rfl, rfl⟩) with
    ioctls := t.ioctls ++ changeIoctls env gate metric rt }

/-- The request that `rtdelete` makes of the kernel. -/
def deleteIoctls (env : Env) (rt : RtEntry) : List Ioctl :=
  if rt.metric < HOPCNT_INFINITY ∧ rt.state.internal = false ∧ rt.state.external = false then
    [rtioctl env .delete rt]
  else []

def rtdelete (env : Env) (rt : RtEntry) (t : Tables) : Tables :=
  { t.remque rt with ioctls := t.ioctls ++ deleteIoctls env rt }

def rtdefault (env : Env) (t : Tables) : Tables :=
  rtadd env inetDefault inetDefault 1 { passive := true, internal := true } t

/-! ## The routes after an operation -/

variable {env : Env} {t : Tables} {rt e : RtEntry} {dst gate : Sockaddr} {metric : Int}
  {state : RtState}

theorem mem_entries :
    e ∈ t.entries ↔ e ∈ t.hosthash.elements ∨ e ∈ t.nethash.elements :=
  List.mem_append

theorem entry_eq (ha : e ∈ t.entries) (hb : rt ∈ t.entries) (hid : e.id = rt.id) : e = rt := by
  have hnodup : (t.entries.map RtEntry.id).Nodup :=
    List.pairwise_map.mpr t.wellFormed.distinct
  exact List.inj_on_of_nodup_map hnodup ha hb hid

@[simp] theorem entries_filterMap (f : RtEntry → Option RtEntry) (hf) :
    (t.filterMap f hf).entries = t.entries.filterMap f := by
  simp [Tables.entries, Tables.filterMap, Chains.elements_filterMap]

theorem entries_rtdelete :
    (rtdelete env rt t).entries = t.entries.filterMap (fun e =>
      if e.id = rt.id then none else some e) := by
  change (t.remque rt).entries = _
  rw [Tables.remque, entries_filterMap]

theorem mem_rtdelete (h : e ∈ (rtdelete env rt t).entries) :
    e ∈ t.entries ∧ e.id ≠ rt.id := by
  rw [entries_rtdelete] at h
  obtain ⟨x, hx, hxe⟩ := List.mem_filterMap.mp h
  by_cases hid : x.id = rt.id
  · rw [if_pos hid] at hxe
    cases hxe
  · rw [if_neg hid] at hxe
    cases hxe
    exact ⟨hx, hid⟩

@[simp] theorem entries_map (f : RtEntry → RtEntry) (hf) :
    (t.map f hf).entries = t.entries.map f := by
  rw [Tables.map, entries_filterMap, List.filterMap_eq_map']

theorem entries_modify (f : RtEntry → RtEntry) (hf) :
    (t.modify rt f hf).entries = t.entries.map (fun e => if e.id = rt.id then f e else e) :=
  entries_map _ _

theorem mem_modify {f : RtEntry → RtEntry} {hf} (hrt : rt ∈ t.entries)
    (h : e ∈ (t.modify rt f hf).entries) : e ∈ t.entries ∨ e = f rt := by
  rw [entries_modify] at h
  obtain ⟨x, hx, rfl⟩ := List.mem_map.mp h
  by_cases hid : x.id = rt.id
  · rw [if_pos hid, entry_eq hx hrt hid]
    exact Or.inr rfl
  · rw [if_neg hid]
    exact Or.inl hx

theorem entries_rtchange : (rtchange env rt gate metric t).entries = t.entries.map (fun e =>
    if e.id = rt.id then changeEntry env gate metric e else e) :=
  entries_modify (f := changeEntry env gate metric) (fun _ => ⟨rfl, rfl, rfl⟩)

theorem mem_rtchange (h : e ∈ (rtchange env rt gate metric t).entries) :
    ∃ x ∈ t.entries, e = x ∨ e = changeEntry env gate metric x := by
  rw [entries_rtchange] at h
  obtain ⟨x, hx, rfl⟩ := List.mem_map.mp h
  by_cases hid : x.id = rt.id
  · exact ⟨x, hx, Or.inr (if_pos hid)⟩
  · exact ⟨x, hx, Or.inl (if_neg hid)⟩

theorem mem_insque (hid : rt.id = t.next) :
    e ∈ (t.insque rt hid).entries ↔ e = rt ∨ e ∈ t.entries := by
  rw [mem_entries, mem_entries]
  unfold Tables.insque
  split
  · rw [Chains.mem_elements_push, or_assoc]
  · rw [Chains.mem_elements_push, or_left_comm]

theorem mem_rtadd (h : e ∈ (rtadd env dst gate metric state t).entries) :
    e = newEntry env t.next dst gate metric state ∨ e ∈ t.entries := by
  unfold rtadd at h
  split at h
  · simp only at h
    split at h
    · exact (mem_insque rfl).mp h
    · split at h
      · exact Or.inr h
      · exact (mem_insque rfl).mp h
  · exact Or.inr h

theorem entries_rtadd (h : e ∈ t.entries) :
    e ∈ (rtadd env dst gate metric state t).entries := by
  unfold rtadd
  split
  · simp only
    split
    · exact (mem_insque rfl).mpr (Or.inr h)
    · split
      · exact h
      · exact (mem_insque rfl).mpr (Or.inr h)
  · exact h

theorem rtlookup_isSome {ifnet : List Interface} (he : e ∈ t.entries)
    (hfamily : e.dst.family = AF_INET)
    (hhost : e.host = true → e.hash = (inetHash ifnet e.dst).hosthash)
    (hnet : e.host = false → e.hash = (inetHash ifnet e.dst).nethash) :
    rtlookup ifnet t e.dst ≠ none := by
  intro hnone
  unfold rtlookup at hnone
  rw [if_pos hfamily] at hnone
  simp only at hnone
  split at hnone
  · cases hnone
  · rename_i hhostnone
    rw [List.find?_eq_none] at hhostnone hnone
    rcases mem_entries.mp he with he | he
    · obtain ⟨b, hb⟩ := Chains.mem_elements.mp he
      have hkey := hhost (t.wellFormed.hosts e he)
      have hplace : bucket e.hash = b := t.wellFormed.hostChains b e hb
      rw [← hkey, hplace] at hhostnone
      exact hhostnone e hb (by simp)
    · obtain ⟨b, hb⟩ := Chains.mem_elements.mp he
      have hkey := hnet (t.wellFormed.nets e he)
      have hplace : bucket e.hash = b := t.wellFormed.netChains b e hb
      rw [← hkey, hplace] at hnone
      exact hnone e hb (by simp)

theorem rtlookup_mem {ifnet : List Interface} (h : rtlookup ifnet t dst = some rt) :
    rt ∈ t.entries ∧ rt.dst = dst := by
  unfold rtlookup at h
  split at h
  · simp only at h
    split at h
    · rename_i found hfound
      cases h
      have hp := List.find?_some hfound
      simp only [Bool.and_eq_true, beq_iff_eq] at hp
      exact ⟨mem_entries.mpr (Or.inl (Chains.mem_elements.mpr
        ⟨_, List.mem_of_find?_eq_some hfound⟩)), hp.2⟩
    · have hp := List.find?_some h
      simp only [Bool.and_eq_true, beq_iff_eq] at hp
      exact ⟨mem_entries.mpr (Or.inr (Chains.mem_elements.mpr
        ⟨_, List.mem_of_find?_eq_some h⟩)), hp.2⟩
  · cases h

theorem rtfind_mem {ifnet : List Interface} (h : rtfind ifnet t dst = some rt) :
    rt ∈ t.entries := by
  unfold rtfind at h
  split at h
  · simp only at h
    split at h
    · rename_i found hfound
      cases h
      exact mem_entries.mpr (Or.inl (Chains.mem_elements.mpr
        ⟨_, List.mem_of_find?_eq_some hfound⟩))
    · exact mem_entries.mpr (Or.inr (Chains.mem_elements.mpr
        ⟨_, List.mem_of_find?_eq_some h⟩))
  · cases h

/-! ## Properties that the operations keep -/

/-- A property of routes that has to do with no other route: `rtadd` establishes it for a state
that `ok` allows, `rtchange` keeps it for a route that it `may` change, and so does a timer that
is set anew, which is never beyond `GARBAGE_TIME - EXPIRE_TIME`. -/
structure Kept (env : Env) (ok : RtState → Prop) (may R : RtEntry → Prop) : Prop where
  added : ∀ id dst gate metric state, ok state → R (newEntry env id dst gate metric state)
  changed : ∀ rt gate metric, may rt → R rt → R (changeEntry env gate metric rt)
  timed : ∀ rt timer, timer ≤ GARBAGE_TIME - EXPIRE_TIME → R rt → R { rt with timer := timer }

variable {ok : RtState → Prop} {may R : RtEntry → Prop}

theorem Kept.rtadd (hR : Kept env ok may R) (h : ∀ e ∈ t.entries, R e) (hok : ok state) :
    ∀ e ∈ (rtadd env dst gate metric state t).entries, R e := by
  intro e he
  rcases mem_rtadd he with rfl | he
  · exact hR.added _ _ _ _ _ hok
  · exact h e he

theorem modify_kept {f : RtEntry → RtEntry} (hf : ∀ e, Stays e (f e))
    (hrt : rt ∈ t.entries) (hfrt : R (f rt)) (h : ∀ e ∈ t.entries, R e) : ∀ e ∈ (t.modify rt f hf).entries, R e := by
  intro e he
  rcases mem_modify hrt he with he | rfl
  · exact h e he
  · exact hfrt

theorem Kept.rtchange (hR : Kept env ok may R) (hrt : rt ∈ t.entries) (hmay : may rt)
    (h : ∀ e ∈ t.entries, R e) : ∀ e ∈ (rtchange env rt gate metric t).entries, R e :=
  modify_kept (f := changeEntry env gate metric) (fun _ => ⟨rfl, rfl, rfl⟩) hrt
    (hR.changed rt gate metric hmay (h rt hrt)) h

theorem rtdelete_kept (h : ∀ e ∈ t.entries, R e) : ∀ e ∈ (rtdelete env rt t).entries, R e :=
  fun e he => h e (mem_rtdelete he).1

end Netkit.Routed

import Netkit.Routed.State

/-!
# Interfaces and gateways come in

`startup.c`. The kernel reports the interfaces (`ifinit`, again from the timer while some are
down), the file of gateways adds remote ones (`gwkludge`), and every new interface gets its
routes (`addrouteforif`).
-/

namespace Netkit.Routed

/-! ## The routes of an interface -/

def addPtoptLocalrt (env : Env) (ifp : Interface) (t : Tables) : Tables :=
  let subnet := match rtfind env.ifnet t (sockaddrIn (inetMakeaddr ifp.net)) with
    | some rt => rt.state.internal
    | none => false
  let add := rtadd env ifp.addr env.loopaddr 1
    { interface := true, passive := true, subnet := subnet }
  match rtfind env.ifnet t ifp.addr with
  | some rt => if rt.state.interface then t else add (rtdelete env rt t)
  | none => add t

def ifDestination (ifp : Interface) : Sockaddr :=
  if ifp.flags.pointopoint then ifp.dstaddr else sockaddrIn (inetMakeaddr ifp.subnet)

/-- The part of `addrouteforif` for an interface on a subnetted network: the route to the whole
network, for external viewers. -/
def addNetworkRoute (env : Env) (ifp : Interface) (t : Tables) : Tables :=
  if ifp.flags.subnet && !ifp.flags.pointopoint then
    let dst := sockaddrIn (inetMakeaddr ifp.net)
    match rtfind env.ifnet t dst with
    | none => rtadd env dst ifp.addr ifp.metric
        { interface := ifp.flags.interface, remote := ifp.flags.remote
          passive := true, internal := true, subnet := true } t
    | some rt =>
      if rt.state.internal && rt.state.subnet && decide (ifp.metric < rt.metric) then
        rtchange env rt rt.router ifp.metric t
      else t
  else t

def ifState (ifp : Interface) : RtState where
  external := ifp.flags.loopback
  passive := ifp.flags.passive
  interface := ifp.flags.interface
  remote := ifp.flags.remote
  subnet := ifp.flags.subnet &&
    !(ifp.flags.pointopoint && ifp.dstaddr.addr &&& ifp.netmask != ifp.net)

/-- The rest of `addrouteforif`, when there is no route for the interface yet. -/
def installRoute (env : Env) (ifp : Interface) (t : Tables) : Tables :=
  let t := rtadd env (ifDestination ifp) ifp.addr ifp.metric (ifState ifp)
    (addNetworkRoute env ifp t)
  if ifp.flags.pointopoint && env.foundloopback then addPtoptLocalrt env ifp t else t

def addrouteforif (env : Env) (ifp : Interface) (t : Tables) : Tables :=
  match rtfind env.ifnet t (ifDestination ifp) with
  | some rt =>
    if rt.state.interface && !rt.state.internal then t
    else installRoute env ifp (rtdelete env rt t)
  | none => installRoute env ifp t

/-! ## The kernel's interfaces -/

/-- What the kernel knows of the flags of an interface. -/
structure KernelFlags where
  up : Bool := true
  broadcast : Bool := false
  loopback : Bool := false
  pointopoint : Bool := false
  deriving DecidableEq

/-- One `struct ifreq` of the answer to `SIOCGIFCONF`, with the answers to the requests that
`ifinit` makes for it; `none` stands for a request that fails. The kernel gives its addresses
without a port. -/
structure Ifreq where
  family : UInt16
  addr : UInt32
  flags : Option KernelFlags
  dstaddr : Option UInt32
  broadaddr : Option UInt32
  metric : Option Int
  netmask : Option UInt32
  deriving DecidableEq

/-- The interface that `ifinit` makes. -/
def newInterface (id : ℕ) (r : Ifreq) (f : KernelFlags) (netmask : UInt32) : Interface where
  id := id
  addr := sockaddrIn r.addr
  intu := match (if f.broadcast then r.broadaddr else if f.pointopoint then r.dstaddr else none)
    with
    | some a => sockaddrIn a
    | none => ⟨0, 0, 0, 0⟩
  metric := r.metric.getD 0 + 1
  flags :=
    { broadcast := f.broadcast
      loopback := f.loopback
      pointopoint := f.pointopoint
      subnet := netmask != classMask r.addr
      passive := f.loopback
      interface := true }
  net := classNet r.addr
  netmask := classMask r.addr
  subnet := r.addr &&& netmask
  subnetmask := netmask

namespace Globals

/-- A loopback is found: the near ends of the point-to-point links get their routes. -/
def noteLoopback (p : Platform) (addr : Sockaddr) (s : Globals) : Globals :=
  let s := { s with foundloopback := true, loopaddr := addr }
  { s with
    tables := s.ifnet.foldl (fun t ifp =>
      if ifp.flags.pointopoint then addPtoptLocalrt (s.env p none) ifp t else t) s.tables }

/-- The new interface goes to where `ifnext` points, and gets its routes. -/
def attach (p : Platform) (ifp : Interface) (s : Globals) : Globals :=
  let s := { s with
    externalinterfaces :=
      if !ifp.flags.loopback &&
          (!ifp.flags.pointopoint || (ifIfwithaddr s.ifnet ifp.dstaddr).isNone) then
        s.externalinterfaces + 1
      else s.externalinterfaces
    supplier := if ifp.flags.pointopoint && decide (s.supplier < 0) then 1 else s.supplier
    ifnet := if s.ifnextAtHead then [ifp] else s.ifnet ++ [ifp]
    ifnextAtHead := false
    nextIf := s.nextIf + 1 }
  { s with tables := addrouteforif (s.env p none) ifp s.tables }

/-- Whether `ifinit` knows the interface already: point-to-point links are told apart by the
address of the far end, others by their own. -/
def isKnown (s : Globals) (r : Ifreq) (f : KernelFlags) : Bool :=
  if f.pointopoint then
    match r.dstaddr with
    | some dstaddr => (ifIfwithdstaddr s.ifnet (sockaddrIn dstaddr)).isSome
    | none => false
  else (ifIfwithaddr s.ifnet (sockaddrIn r.addr)).isSome

/-- The body of the loop of `ifinit`. -/
def ifinitEntry (p : Platform) (s : Globals) (r : Ifreq) : Globals :=
  match r.flags with
  | none => s
  | some f =>
    if !f.up || r.family = AF_UNSPEC then { s with lookforinterfaces := true }
    else if r.family ≠ AF_INET then s
    else if f.pointopoint && r.dstaddr.isNone then s
    else if s.isKnown r f then s
    else
      let s := if f.loopback then s.noteLoopback p (sockaddrIn r.addr) else s
      if f.broadcast && r.broadaddr.isNone then s
      else match r.netmask with
        | none => s
        | some netmask => s.attach p (newInterface s.nextIf r f netmask)

/-- `ifinit`, with the answer `reqs` to `SIOCGIFCONF`. -/
def ifinit (p : Platform) (reqs : List Ifreq) (s : Globals) : Globals :=
  let s := reqs.foldl (ifinitEntry p) { s with lookforinterfaces := false }
  if s.externalinterfaces > 1 ∧ s.supplier < 0 then { s with supplier := 1 } else s

end Globals

/-! ## The file of gateways -/

inductive Qualifier where
  | passive
  | external
  | active
  deriving DecidableEq

/-- A line of the file, with its names resolved: a route to the network or host `dst`. -/
structure Gateway where
  host : Bool
  dst : UInt32
  gate : UInt32
  metric : Int
  qual : Qualifier
  deriving DecidableEq

/-- The remote interface that `gwkludge` makes. It has no masks. -/
def remoteInterface (ifnet : List Interface) (id : ℕ) (g : Gateway) : Interface where
  id := id
  addr := sockaddrIn g.gate
  intu := if g.host then sockaddrIn g.dst else ⟨0, 0, 0, 0⟩
  metric := if g.metric = 0 then 1 else g.metric
  flags := { remote := true, pointopoint := g.host }
  net := inetNetofSubnet ifnet g.dst
  netmask := 0
  subnet := 0
  subnetmask := 0

/-- The request for a passive gateway, whose route is the kernel's only. -/
def kernelRoute (ifnet : List Interface) (g : Gateway) : Ioctl where
  action := .add
  dst := sockaddrIn g.dst
  gateway := sockaddrIn g.gate
  viaGateway := true
  host := g.host
  metric := 0
  genmask := genmask ifnet g.host g.dst

namespace Globals

/-- The body of the loop of `gwkludge`. -/
def gwkludgeEntry (p : Platform) (s : Globals) (g : Gateway) : Globals :=
  match g.qual with
  | .passive =>
    { s with tables := { s.tables with ioctls := s.tables.ioctls ++ [kernelRoute s.ifnet g] } }
  | .external =>
    { s with
      tables := rtadd (s.env p none) (sockaddrIn g.dst) (sockaddrIn g.gate)
        (if g.metric = 0 then 1 else g.metric) { external := true, passive := true } s.tables }
  | .active =>
    let ifp := remoteInterface s.ifnet s.nextIf g
    let s := { s with
      externalinterfaces := s.externalinterfaces + 1
      ifnet := ifp :: s.ifnet
      nextIf := s.nextIf + 1 }
    { s with tables := addrouteforif (s.env p none) ifp s.tables }

end Globals

/-! ## Properties that are kept -/

section Kept

variable {env : Env} {ok : RtState → Prop} {may R : RtEntry → Prop} {t : Tables}
  {ifp : Interface}

/-- The states that the routes of an interface get, beside the one for the interface itself. -/
structure OkForIf (ok : RtState → Prop) : Prop where
  nearEnd : ∀ subnet, ok { interface := true, passive := true, subnet := subnet }
  network : ∀ interface remote,
    ok { interface := interface, remote := remote, passive := true, internal := true
         subnet := true }

theorem addPtoptLocalrt_kept (hR : Kept env ok may R) (hok : OkForIf ok)
    (h : ∀ e ∈ t.entries, R e) : ∀ e ∈ (addPtoptLocalrt env ifp t).entries, R e := by
  unfold addPtoptLocalrt
  simp only
  split
  · split
    · exact h
    · exact hR.rtadd (rtdelete_kept h) (hok.nearEnd _)
  · exact hR.rtadd h (hok.nearEnd _)

theorem addNetworkRoute_kept (hR : Kept env ok may R) (hok : OkForIf ok)
    (hmay : ∀ e, R e → e.state.internal = true → may e) (h : ∀ e ∈ t.entries, R e) :
    ∀ e ∈ (addNetworkRoute env ifp t).entries, R e := by
  unfold addNetworkRoute
  split
  · simp only
    split
    · exact hR.rtadd h (hok.network _ _)
    · rename_i rt hrt
      split
      · rename_i hcond
        simp only [Bool.and_eq_true] at hcond
        have hmem := rtfind_mem hrt
        exact hR.rtchange hmem (hmay rt (h rt hmem) hcond.1.1) h
      · exact h
  · exact h

theorem installRoute_kept (hR : Kept env ok may R) (hok : OkForIf ok)
    (hmay : ∀ e, R e → e.state.internal = true → may e) (hifp : ok (ifState ifp))
    (h : ∀ e ∈ t.entries, R e) : ∀ e ∈ (installRoute env ifp t).entries, R e := by
  have hadd : ∀ e ∈ (rtadd env (ifDestination ifp) ifp.addr ifp.metric (ifState ifp)
      (addNetworkRoute env ifp t)).entries, R e :=
    hR.rtadd (addNetworkRoute_kept hR hok hmay h) hifp
  unfold installRoute
  simp only
  split
  · exact addPtoptLocalrt_kept hR hok hadd
  · exact hadd

theorem addrouteforif_kept (hR : Kept env ok may R) (hok : OkForIf ok)
    (hmay : ∀ e, R e → e.state.internal = true → may e) (hifp : ok (ifState ifp))
    (h : ∀ e ∈ t.entries, R e) : ∀ e ∈ (addrouteforif env ifp t).entries, R e := by
  unfold addrouteforif
  split
  · split
    · exact h
    · exact installRoute_kept hR hok hmay hifp (rtdelete_kept h)
  · exact installRoute_kept hR hok hmay hifp h

end Kept

end Netkit.Routed

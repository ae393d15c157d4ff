import Netkit.Routed.Table

/-!
# The state of routed

The global variables of the daemon: the tables, the list of interfaces, the times that the
dynamic updates go by, and what has been sent.
-/

namespace Netkit.Routed

structure Timeval where
  sec : Int
  usec : Int
  deriving DecidableEq

/-- `timercmp(t, u, <)`. -/
def Timeval.before (t u : Timeval) : Bool :=
  if t.sec = u.sec then decide (t.usec < u.usec) else decide (t.sec < u.sec)

/-- `struct netinfo`, in host byte order. -/
structure Netinfo where
  dst : Sockaddr
  metric : Int
  deriving DecidableEq

/-- A response that has been sent: on an interface, or in answer to a query. -/
structure Packet where
  ifp : Option ℕ
  dst : Sockaddr
  dontroute : Bool
  nets : List Netinfo
  deriving DecidableEq

/-- The kernel, as a function of all requests made so far, and the port of the service
`router`. -/
structure Platform where
  kernelVersion : ℕ
  kernel : List Ioctl → Option Errno
  ripPort : UInt16

/-- The global variables. `ifnextAtHead` says that `ifnext` still points to `ifnet`; otherwise
it points to the end of the list. `nextIf` is the next free place for an interface. `packets`
is what has been sent, and `missed` is the account of `clearNeedupdate`. -/
structure Globals where
  tables : Tables
  ifnet : List Interface
  ifnextAtHead : Bool
  nextIf : ℕ
  lookforinterfaces : Bool
  foundloopback : Bool
  loopaddr : Sockaddr
  externalinterfaces : ℕ
  supplier : Int
  faketime : Int
  now : Timeval
  lastbcast : Timeval
  lastfullupdate : Timeval
  nextbcast : Timeval
  needupdate : ℕ
  packets : List Packet
  missed : List (Sockaddr × ℕ)

namespace Globals

/-- The state in which `main` calls `rtinit`; `supplier` is set by the options `-s` and `-q`,
and -1 without them. -/
def boot (supplier : Int) (now : Timeval) : Globals where
  tables := rtinit
  ifnet := []
  ifnextAtHead := true
  nextIf := 0
  lookforinterfaces := true
  foundloopback := false
  loopaddr := ⟨0, 0, 0, 0⟩
  externalinterfaces := 0
  supplier := supplier
  faketime := 0
  now := now
  lastbcast := ⟨0, 0⟩
  lastfullupdate := ⟨0, 0⟩
  nextbcast := ⟨0, 0⟩
  needupdate := 0
  packets := []
  missed := []

/-- What the operations on the tables read, while a message received through `source` is
processed. -/
def env (p : Platform) (source : Option ℕ) (s : Globals) : Env where
  kernelVersion := p.kernelVersion
  kernel := p.kernel
  ifnet := s.ifnet
  foundloopback := s.foundloopback
  loopaddr := s.loopaddr
  source := source

/-- The interfaces that `toall` sends to. -/
def listeners (s : Globals) : List Interface := s.ifnet.filter (fun ifp => !ifp.flags.passive)

/-- The destination of every route that has a change which an interface has yet to be sent,
with the interface. -/
def owed (s : Globals) : List (Sockaddr × ℕ) :=
  s.tables.entries.flatMap fun rt =>
    match rt.told with
    | none => []
    | some told =>
      (s.listeners.filter (fun ifp => !told.contains ifp.id)).map (fun ifp => (rt.dst, ifp.id))

/-- `needupdate = 0`: no update is pending any more. Whatever is still owed has been missed, and
the account of changes starts anew. -/
def clearNeedupdate (s : Globals) : Globals :=
  { s with
    needupdate := 0
    missed := s.missed ++ s.owed
    tables := s.tables.map (fun rt => { rt with told := none }) (fun _ => ⟨rfl, rfl, rfl⟩) }

variable {s : Globals}

theorem owed_eq_nil
    (h : ∀ rt ∈ s.tables.entries, ∀ told, rt.told = some told →
      ∀ ifp ∈ s.listeners, ifp.id ∈ told) : s.owed = [] := by
  unfold owed
  rw [List.flatMap_eq_nil_iff]
  intro rt hrt
  cases htold : rt.told with
  | none => rfl
  | some told =>
    simp only [List.map_eq_nil_iff, List.filter_eq_nil_iff]
    intro ifp hifp
    have hmem := h rt hrt told htold ifp hifp
    simpa using hmem

end Globals

end Netkit.Routed

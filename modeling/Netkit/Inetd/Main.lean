import Netkit.Inetd.Servtab

/-!
# Configuration, signals and connections

The operations of inetd on the whole table, and the steps of the main loop: signals are
handled between the connections, never during one.
-/

namespace Netkit.Inetd

structure State where
  servtab : List Servtab
  heap : Heap
  net : Net
  children : List Nat
  lost : Bool
deriving DecidableEq

/-- The state in which `main` calls `config`. -/
def init : State where
  servtab := []
  heap := ⟨0, []⟩
  net := ⟨0, 0, ∅, false, ∅, 0⟩
  children := []
  lost := false

/-! ## One entry of the file -/

/-- The entry that `assemble_entry` leaves behind. Its fields were copied into the blocks from
`b` on, one after the other; a missing `argv[0]` gets the next block. -/
def assembled (b : Nat) (c : Conf) : Servtab where
  service := ⟨b, c.service⟩
  address := c.address.map (fun a => ⟨b, a⟩)
  socktype := c.socktype
  family := c.family
  proto := ⟨b + 2, c.proto⟩
  rpcprog := 0
  rpcversl := c.rpcversl
  rpcversh := c.rpcversh
  wait := c.wait
  checked := false
  user := ⟨b + 4, c.user⟩
  group := c.group.map (fun g => ⟨b + 4, g⟩)
  bi := c.bi
  server := ⟨b + 5, c.server⟩
  argv := c.argv.mapIdx (fun i a => ⟨b + 6 + i, a⟩)
  fd := 0
  sinAddr := c.sinAddr
  sinPort := 0
  max := c.max
  count := 0
  time := 0
  daemon := none

def htons (n : Nat) : Nat := n % 256 * 256 + n / 256 % 256

/-- `htons(atoi(service))`, as a `u_short`. -/
def numericPort (service : Text) : Nat := htons (atoi service % 65536).toNat

def servicePort (hosts : Hosts) (service proto : Text) : Option Nat :=
  if numericPort service ≠ 0 then some (numericPort service)
  else (hosts.getservbyname service proto).map Prod.snd

def officialName (hosts : Hosts) (c : Conf) : Option Text :=
  if c.family = .AF_INET ∧ c.rpcversl = 0 ∧ numericPort c.service = 0 then
    match hosts.getservbyname c.service c.proto with
    | some (name, _) => if c.service ≠ name then some name else none
    | none => none
  else none

/-- The buffer for the official name takes the name that is copied into it. -/
def aliasFits (name : Text) (c : Conf) : Bool :=
  match c.address with
  | none => c.service.length ≤ name.length + 1
  | some _ => c.service.length ≤ name.length

/-- An entry listed under an alias gets a new buffer, sized for the official name; what is
copied into it is the alias. -/
def rename (hosts : Hosts) (cp : Servtab) (heap : Heap) : Except Stop (Servtab × Heap) :=
  match officialName hosts cp.conf with
  | none => .ok (cp, heap)
  | some name =>
    if aliasFits name cp.conf then
      let b := heap.next
      .ok ({ cp with
          service := { cp.service with block := b }
          address := cp.address.map (fun a => { a with block := b }) },
        (heap.alloc 1).free [cp.service.block])
    else .error .overflow

/-- `find_same_service`: addresses are compared, not their names. -/
def sameService (cp sep : Servtab) : Bool :=
  sep.service.text == cp.service.text && sep.proto.text == cp.proto.text &&
    match sep.address, cp.address with
    | none, none => true
    | some _, some _ => sep.sinAddr == cp.sinAddr
    | _, _ => false

/-- The merge of a new entry into an old one; the second result is what is left of the new
one. -/
def merge (sep cp : Servtab) : Servtab × Servtab :=
  let wait := if cp.bi = none ∧ (sep.wait = 1 ∨ cp.wait = 0) then cp.wait else sep.wait
  let swapGroup := cp.group.isSome
  let swapService := cp.address.isSome
  ({ sep with
      wait
      max := cp.max
      user := cp.user
      group := if swapGroup then cp.group else sep.group
      server := cp.server
      service := if swapService then cp.service else sep.service
      address := if swapService then cp.address else sep.address
      argv := cp.argv
      rpcversl := cp.rpcversl
      rpcversh := cp.rpcversh },
    { cp with
      max := sep.max
      user := sep.user
      group := if swapGroup then sep.group else cp.group
      server := sep.server
      service := if swapService then sep.service else cp.service
      address := if swapService then sep.address else cp.address
      argv := sep.argv })

def rpcNumber (hosts : Hosts) (service : Text) : Option Int :=
  if atoi service ≠ 0 then some (atoi service) else hosts.getrpcbyname service

/-- The end of `loadconfigent`: the socket of the entry. An unknown service gets none. -/
def activate (hosts : Hosts) (calls : Calls) (sep : Servtab) (net : Net) :
    Except Stop (Servtab × Net) :=
  match sep.family with
  | .AF_UNIX => openSocket calls sep net
  | .AF_INET =>
    if sep.isRpcservice then
      match rpcNumber hosts sep.service.text with
      | none => .ok ({ sep with rpcprog := 0 }, net)
      | some number => openSocket calls { sep with rpcprog := number } net
    else
      match servicePort hosts sep.service.text sep.proto.text with
      | none => .ok (sep, net)
      | some port => changePort port sep net >>= fun p => openSocket calls p.1 p.2

/-- The new entry that `enter` puts at the head of the table. -/
def entered (cp : Servtab) : Servtab := { cp with fd := -1, rpcprog := -1, checked := true }

def loadconfigent (hosts : Hosts) (calls : Calls) (cp : Servtab) (s : State) :
    Except Stop State := do
  let (cp, heap) ← rename hosts cp s.heap
  match s.servtab.findIdx? (sameService cp) with
  | some i =>
    match s.servtab[i]? with
    | none => return { s with heap }
    | some sep =>
      if sep.checked then return { s with heap }
      else
        let (sep, cp) := merge sep cp
        let (sep, net) ← activate hosts calls { sep with checked := true } s.net
        return { s with servtab := s.servtab.set i sep, heap := heap.free cp.blocks, net }
  | none =>
    let (sep, net) ← activate hosts calls (entered cp) s.net
    return { s with servtab := sep :: s.servtab, heap, net }

/-- One entry of the file: its words are copied into an array of 25 pointers. -/
def loadEntry (hosts : Hosts) (calls : Calls) (s : State) (fields : List Text) :
    Except Stop State :=
  if MAXARGV + 6 - 1 < fields.length then .error .overflow
  else
    match assembleEntry hosts fields with
    | .error _ => .ok { s with heap := s.heap.alloc fields.length }
    | .ok c =>
      let b := s.heap.next
      let heap := (s.heap.alloc (6 + c.argv.length)).free [b + 1, b + 3]
      loadconfigent hosts calls (assembled b c) { s with heap }

/-! ## The whole file -/

def dropSocket (sep : Servtab) (net : Net) : Except Stop Net :=
  if sep.fd = -1 then .ok net else (closeit sep net).map Prod.snd

def purge : List Servtab → Heap → Net → Except Stop (List Servtab × Heap × Net)
  | [], heap, net => .ok ([], heap, net)
  | sep :: rest, heap, net =>
    if sep.checked then do
      let (rest, heap, net) ← purge rest heap net
      return (sep :: rest, heap, net)
    else do
      let net ← dropSocket sep net
      purge rest (heap.free sep.blocks) net

/-- `config`, with the text of the file. -/
def config (hosts : Hosts) (calls : Calls) (file : Text) (s : State) : Except Stop State := do
  let s := { s with servtab := s.servtab.map (fun e => { e with checked := false }) }
  let s ← (entries file).foldlM (loadEntry hosts calls) s
  let (servtab, heap, net) ← purge s.servtab s.heap s.net
  return { s with servtab, heap, net }

/-! ## The other handlers -/

/-- What `reapchild` does for one process. -/
def reapchild (pid : Nat) : List Servtab → Net → Except Stop (List Servtab × Net)
  | [], net => .ok ([], net)
  | sep :: rest, net =>
    if sep.wait = pid then do
      let net ← fdSet sep.fd net
      return ({ sep with wait := 1 } :: rest, { net with nsock := net.nsock + 1 })
    else do
      let (rest, net) ← reapchild pid rest net
      return (sep :: rest, net)

def forget (pid : Nat) (sep : Servtab) : Servtab :=
  if sep.daemon = some pid then { sep with daemon := none } else sep

def restartServices (calls : Calls) : List Servtab → Net → Except Stop (List Servtab × Net)
  | [], net => .ok ([], net)
  | sep :: rest, net => do
    let (sep, net) ← openSocket calls sep net
    let (rest, net) ← restartServices calls rest net
    return (sep :: rest, net)

/-! ## Events -/

inductive Event where
  | config (file : Option Text) (hosts : Hosts) (calls : Calls)
  | ready (fd : Nat) (c : Connection)
  | exit (pid : Nat)
  | alarm (calls : Calls)

def newChild (children : List Nat) (pid : Nat) : Bool := 1 < pid && !children.contains pid

/-- What becomes of a call that does not come back: inetd executed again knows nothing of the
old table, but keeps its children. -/
def stopped (s : State) (execs : Bool) : Stop → State
  | .restart => if execs then { init with children := s.children } else { s with lost := true }
  | _ => { s with lost := true }

def ended (s : State) (execs : Bool) : Except Stop State → State
  | .ok s => s
  | .error stop => stopped s execs stop

/-- A descriptor that `select` finds ready. -/
def ready (fd : Nat) (c : Connection) (s : State) : Except Stop State :=
  match s.servtab.findIdx? (fun e => e.fd == (fd : Int)) with
  | none => .ok s
  | some i =>
    match s.servtab[i]? with
    | none => .ok s
    | some sep => do
      let (sep, net, child) ← launch c sep s.net
      return { s with servtab := s.servtab.set i sep, net, children := child.toList ++ s.children }

def step (s : State) : Event → Option State
  | .config file hosts calls =>
    if s.lost then none
    else
      match file with
      | none => some s
      | some file => some (ended s calls.execs (config hosts calls file s))
  | .ready fd c =>
    if s.lost ∨ fd ∉ s.net.allsock ∨ c.fork.any (fun pid => !newChild s.children pid) then none
    else some (ended s c.execs (ready fd c s))
  | .exit pid =>
    if s.lost ∨ pid ∉ s.children then none
    else
      some (ended s false (do
        let (servtab, net) ← reapchild pid s.servtab s.net
        return { s with
          servtab := servtab.map (forget pid)
          net
          children := s.children.erase pid }))
  | .alarm calls =>
    if s.lost then none
    else
      some (ended s calls.execs (do
        let (servtab, net) ← restartServices calls s.servtab { s.net with timingout := false }
        return { s with servtab, net }))

end Netkit.Inetd

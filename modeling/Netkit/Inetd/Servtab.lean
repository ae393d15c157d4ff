import Mathlib.Data.Finset.Card
import Netkit.Inetd.Configfile

/-!
# The service table and its sockets

An entry of the table holds strings in allocated memory, a listening socket, and the state of
its server.
-/

namespace Netkit.Inetd

/-! ## Memory -/

/-- A string and the block that it lies in. -/
structure Str where
  block : Nat
  text : Text
deriving DecidableEq

/-- Blocks are numbered in the order in which they are allocated. -/
structure Heap where
  next : Nat
  freed : List Nat
deriving DecidableEq

def Heap.Live (h : Heap) (b : Nat) : Prop := b < h.next ∧ b ∉ h.freed

instance (h : Heap) (b : Nat) : Decidable (h.Live b) := inferInstanceAs (Decidable (_ ∧ _))

def Heap.alloc (h : Heap) (n : Nat) : Heap := { h with next := h.next + n }

def Heap.free (h : Heap) (bs : List Nat) : Heap := { h with freed := bs ++ h.freed }

/-! ## Entries -/

/-- `struct servtab`. `daemon` is the wait-server that holds the socket: it is set when one is
launched and cleared when that process has exited, and no code reads it. -/
structure Servtab where
  service : Str
  address : Option Str
  socktype : Socktype
  family : Family
  proto : Str
  rpcprog : Int
  rpcversl : Int
  rpcversh : Int
  wait : Int
  checked : Bool
  user : Str
  group : Option Str
  bi : Option Biltin
  server : Str
  argv : List Str
  fd : Int
  sinAddr : Nat
  sinPort : Nat
  max : Int
  count : Int
  time : Int
  daemon : Option Nat
deriving DecidableEq

def Servtab.conf (e : Servtab) : Conf where
  service := e.service.text
  address := e.address.map Str.text
  sinAddr := e.sinAddr
  socktype := e.socktype
  family := e.family
  proto := e.proto.text
  rpcversl := e.rpcversl
  rpcversh := e.rpcversh
  max := e.max
  wait := e.wait
  user := e.user.text
  group := e.group.map Str.text
  server := e.server.text
  bi := e.bi
  argv := e.argv.map Str.text

/-- What tells services apart: name, protocol and, where one is given, the address. -/
def Conf.key (c : Conf) : Text × Text × Option Nat :=
  (c.service, c.proto, c.address.map (fun _ => c.sinAddr))

def Servtab.key (e : Servtab) : Text × Text × Option Nat := e.conf.key

def Servtab.isRpcservice (e : Servtab) : Bool := e.rpcversl != 0

/-- The blocks that `freeconfig` frees. -/
def Servtab.blocks (e : Servtab) : List Nat :=
  e.service.block :: e.proto.block :: e.user.block :: e.server.block :: e.argv.map Str.block

/-! ## Sockets -/

/-- The size of an `fd_set`. -/
def FD_SETSIZE : Nat := 1024

/-- Why a call does not come back: inetd tries to execute itself again for want of
descriptors, it writes past a buffer, or it uses a descriptor set outside its bounds. -/
inductive Stop where
  | restart
  | overflow
  | badDescriptor
deriving DecidableEq

/-- What `socket` returns. -/
inductive SocketResult where
  | fd (n : Nat)
  | error
  | emfile
deriving DecidableEq

/-- The results of the calls of `socket` and `bind` during an event, by their number, and
whether an attempt to execute inetd again succeeds. -/
structure Calls where
  socket : Nat → SocketResult
  bind : Nat → Bool
  execs : Bool

/-- The counters and sets of the main loop, and the descriptors of sockets that are open. -/
structure Net where
  nsock : Int
  maxsock : Nat
  allsock : Finset Nat
  timingout : Bool
  opened : Finset Nat
  calls : Nat
deriving DecidableEq

/-- `FD_SET` and `FD_CLR` reach only the descriptors of the set. -/
def inSet (fd : Int) : Bool := 0 ≤ fd && fd < FD_SETSIZE

def fdSet (fd : Int) (net : Net) : Except Stop Net :=
  if inSet fd then .ok { net with allsock := insert fd.toNat net.allsock }
  else .error .badDescriptor

def fdClr (fd : Int) (net : Net) : Except Stop Net :=
  if inSet fd then .ok { net with allsock := net.allsock.erase fd.toNat }
  else .error .badDescriptor

def closeFd (fd : Int) (net : Net) : Net := { net with opened := net.opened.erase fd.toNat }

def closeit (sep : Servtab) (net : Net) : Except Stop (Servtab × Net) := do
  let net ← fdClr sep.fd net
  return ({ sep with fd := -1 }, closeFd sep.fd { net with nsock := net.nsock - 1 })

def setup (calls : Calls) (sep : Servtab) (net : Net) : Except Stop (Servtab × Net) :=
  let failed := ({ sep with fd := -1 }, { net with calls := net.calls + 1 })
  match calls.socket net.calls with
  | .emfile => .error .restart
  | .error => .ok failed
  | .fd n =>
    if n ∈ net.opened then .ok failed
    else if calls.bind net.calls = false then
      .ok ({ sep with fd := -1 }, { net with calls := net.calls + 1, timingout := true })
    else do
      let net ← fdSet n net
      return ({ sep with fd := n },
        { net with
          nsock := net.nsock + 1
          maxsock := max net.maxsock n
          opened := insert n net.opened
          calls := net.calls + 1 })

def openSocket (calls : Calls) (sep : Servtab) (net : Net) : Except Stop (Servtab × Net) :=
  if sep.fd = -1 then setup calls sep net else .ok (sep, net)

/-- Gives an entry another port; a socket that is bound to the old one is closed. -/
def changePort (port : Nat) (sep : Servtab) (net : Net) : Except Stop (Servtab × Net) :=
  if port = sep.sinPort then .ok (sep, net)
  else if sep.fd = -1 then .ok ({ sep with sinPort := port }, net)
  else closeit { sep with sinPort := port } net

/-! ## Servers -/

def CNT_INTVL : Int := 60

/-- What `accept` returns. -/
inductive Accepted where
  | ok
  | error
  | emfile
deriving DecidableEq

/-- What happens when a socket is ready: the result of `accept`, the time, the process that
`fork` makes, and whether an attempt to execute inetd again succeeds. -/
structure Connection where
  accepted : Accepted
  now : Int
  fork : Option Nat
  execs : Bool

def forkChild (c : Connection) (sep : Servtab) (net : Net) :
    Except Stop (Servtab × Net × Option Nat) :=
  let count := sep.count + 1
  if sep.count = 0 then .ok ({ sep with count, time := c.now }, net, c.fork)
  else if sep.max ≤ count then
    if CNT_INTVL < c.now - sep.time then
      .ok ({ sep with count := 1, time := c.now }, net, c.fork)
    else do
      let net ← fdClr sep.fd net
      return ({ sep with fd := -1, count := 0 },
        closeFd sep.fd { net with nsock := net.nsock - 1, timingout := true }, none)
  else .ok ({ sep with count }, net, c.fork)

/-- A process number that is stored in a `short`. -/
def toShort (n : Int) : Int := Int.bmod n 65536

def launch (c : Connection) (sep : Servtab) (net : Net) :
    Except Stop (Servtab × Net × Option Nat) :=
  let accepts := decide (sep.wait = 0 ∧ sep.socktype = .SOCK_STREAM)
  if accepts ∧ c.accepted = .emfile then .error .restart
  else if accepts ∧ c.accepted = .error then .ok (sep, net, none)
  else if (sep.bi.map Biltin.fork).getD true then do
    let (sep, net, child) ← forkChild c sep net
    match child with
    | none => return (sep, net, none)
    | some pid =>
      if sep.wait ≠ 0 then
        let net ← fdClr sep.fd net
        return ({ sep with wait := toShort pid, daemon := some pid },
          { net with nsock := net.nsock - 1 }, some pid)
      else return (sep, net, some pid)
  else .ok (sep, net, none)

end Netkit.Inetd

import Netkit.Foundations.Expression
import Netkit.Foundations.Loops

/-!
# The configuration file

From the characters of the file to what each entry says. The file is read in chunks of at most
one line; a line that begins with a blank continues the entry before it.
-/

namespace Netkit.Inetd

open Netkit.Foundations Netkit.Foundations.Expression

abbrev Text := List Char

/-! ## Strings -/

/-- `strchr`: the text before the first `c` and the text after it. -/
def strchr (c : Char) : Text → Option (Text × Text)
  | [] => none
  | d :: ds => if d = c then some ([], ds) else (strchr c ds).map (fun p => (d :: p.1, p.2))

def LONG_MAX : Int := 9223372036854775807

/-- A `long`, as `strtol` gives it for a number that is too large. -/
def toLong (n : Int) : Int := max (-LONG_MAX - 1) (min LONG_MAX n)

/-- A `long` that is stored in an `int`. -/
def toInt (n : Int) : Int := Int.bmod n 4294967296

def isSpace (c : Char) : Bool := c = ' ' || (9 ≤ c.toNat && c.toNat ≤ 13)

/-- The digits at the front of a text, in base `b`, and what follows them. -/
def digitsOf (b : Nat) (s : Text) : Text × Text :=
  s.span (fun c => (c.isDigit || c.isAlpha) && decide (digitValue c.toLower < b))

/-- The number without its sign; `base` is 0 where the digits choose it. -/
def unsignedOf (base : Nat) (s : Text) : Option (Nat × Text) :=
  let number (b : Nat) (s : Text) : Option (Nat × Text) :=
    let p := digitsOf b s
    if p.1 = [] then none else some (positional b (p.1.map Char.toLower) 0, p.2)
  if base ≠ 0 then number base s
  else
    match s with
    | '0' :: x :: rest =>
      if x.toLower = 'x' ∧ (digitsOf 16 rest).1 ≠ [] then number 16 rest else number 8 s
    | '0' :: _ => number 8 s
    | _ => number 10 s

/-- `strtol`: the number at the front of a text and what follows it, `none` where there is no
number. -/
def strtol (base : Nat) (s : Text) : Option (Int × Text) :=
  match s.dropWhile isSpace with
  | '-' :: rest => (unsignedOf base rest).map (fun p => (toLong (-(p.1 : Int)), p.2))
  | '+' :: rest => (unsignedOf base rest).map (fun p => (toLong p.1, p.2))
  | rest => (unsignedOf base rest).map (fun p => (toLong p.1, p.2))

def atoi (s : Text) : Int := toInt (((strtol 10 s).map Prod.fst).getD 0)

/-! ## Lines and words -/

def MAXARGV : Nat := 20

/-- The chunks that `fgets` reads into 254 bytes; `cur` is the chunk read so far. -/
def chunks : Text → Text → List Text
  | [], cur => if cur = [] then [] else [cur]
  | c :: cs, cur =>
    if c = '\n' ∨ cur.length + 1 = 253 then (cur ++ [c]) :: chunks cs []
    else chunks cs (cur ++ [c])

/-- The words of a line, as `strtok` gives them; `cur` is the word read so far. -/
def words : Text → Text → List Text
  | [], cur => if cur = [] then [] else [cur]
  | c :: cs, cur =>
    if c.toNat = 0 then (if cur = [] then [] else [cur])
    else if c = ' ' ∨ c = '\t' ∨ c = '\n' then
      if cur = [] then words cs [] else cur :: words cs []
    else words cs (cur ++ [c])

/-- What `nexttoken` returns for a chunk, call after call: `none` for the end of an entry. -/
def lineTokens (line : Text) : List (Option Text) :=
  match line with
  | [] => []
  | c :: _ =>
    if c = ' ' ∨ c = '\t' ∨ c.toNat = 0 then
      if words line [] = [] then [none] else (words line []).map some
    else none :: (words line []).map some

/-- The tokens of the file; lines that begin with `#` are passed over. -/
def fileTokens (file : Text) : List (Option Text) :=
  ((chunks file []).filter (fun line => line.head? ≠ some '#')).flatMap lineTokens

/-- The entries that `loadconfigfile` collects: the words up to the end of an entry. -/
def collect : List (Option Text) → List Text → List (List Text)
  | [], fields => if fields = [] then [] else [fields]
  | none :: ts, fields => if fields = [] then collect ts [] else fields :: collect ts []
  | some w :: ts, fields => collect ts (fields ++ [w])

def entries (file : Text) : List (List Text) := collect (fileTokens file) []

/-! ## What an entry says -/

inductive Socktype where
  | SOCK_STREAM
  | SOCK_DGRAM
  | SOCK_RDM
  | SOCK_SEQPACKET
  | SOCK_RAW
  | unknown
deriving DecidableEq

inductive Family where
  | AF_UNIX
  | AF_INET
deriving DecidableEq

/-- `struct biltin`, named by its service and socket type. -/
structure Biltin where
  service : Text
  socktype : Socktype
  fork : Bool
  wait : Bool
deriving DecidableEq

def biltins : List Biltin :=
  [⟨"echo".toList, .SOCK_STREAM, true, false⟩, ⟨"echo".toList, .SOCK_DGRAM, false, false⟩,
    ⟨"discard".toList, .SOCK_STREAM, true, false⟩, ⟨"discard".toList, .SOCK_DGRAM, false, false⟩,
    ⟨"time".toList, .SOCK_STREAM, false, false⟩, ⟨"time".toList, .SOCK_DGRAM, false, false⟩,
    ⟨"daytime".toList, .SOCK_STREAM, false, false⟩,
    ⟨"daytime".toList, .SOCK_DGRAM, false, false⟩,
    ⟨"chargen".toList, .SOCK_STREAM, true, false⟩,
    ⟨"chargen".toList, .SOCK_DGRAM, false, false⟩]

/-- `map_word` over the table of socket types. -/
def socktypeOf (word : Text) : Socktype :=
  if word = "stream".toList then .SOCK_STREAM
  else if word = "dgram".toList then .SOCK_DGRAM
  else if word = "rdm".toList then .SOCK_RDM
  else if word = "seqpacket".toList then .SOCK_SEQPACKET
  else if word = "raw".toList then .SOCK_RAW
  else .unknown

def findBuiltin (socktype : Socktype) (service : Text) : Option Biltin :=
  biltins.find? (fun b => b.socktype == socktype && b.service == service)

/-- The name services of the host. A service is given with its official name and its port in
network order. -/
structure Hosts where
  gethostbyname : Text → Option Nat
  getservbyname : Text → Text → Option (Text × Nat)
  getrpcbyname : Text → Option Int

structure Conf where
  service : Text
  address : Option Text
  sinAddr : Nat
  socktype : Socktype
  family : Family
  proto : Text
  rpcversl : Int
  rpcversh : Int
  max : Int
  wait : Int
  user : Text
  group : Option Text
  server : Text
  bi : Option Biltin
  argv : List Text
deriving DecidableEq

def TOOMANY : Int := 40

/-- The name, the address as it is written and the address: `name@address`. -/
def assembleService (hosts : Hosts) (field : Text) :
    Except String (Text × Option Text × Nat) :=
  match strchr '@' field with
  | none => .ok (field, none, 0)
  | some (service, address) =>
    match hosts.gethostbyname address with
    | none => .error "Service hostname/address not found"
    | some addr => .ok (service, some address, addr)

/-- The name and the versions of an RPC service: `name/low` or `name/low-high`. -/
def assembleVersions (service : Text) : Except String (Text × Int × Int) :=
  match strchr '/' service with
  | none => .error "No RPC version"
  | some (name, versions) =>
    match strtol 0 versions with
    | none => .error "Invalid RPC version"
    | some (low, '-' :: rest) =>
      match strtol 0 rest with
      | none => .error "Invalid RPC high version"
      | some (high, _) => .ok (name, toInt low, toInt high)
    | some (low, _) => .ok (name, toInt low, toInt low)

def familyOf (proto : Text) : Family := if proto = "unix".toList then .AF_UNIX else .AF_INET

def checkHost (family : Family) (address : Option Text) : Except String Unit :=
  if family = .AF_UNIX ∧ address.isSome then .error "@host given for unix socket" else .ok ()

def assembleRpc (family : Family) (proto service : Text) : Except String (Text × Int × Int) :=
  if family = .AF_INET ∧ "rpc/".toList.isPrefixOf proto then assembleVersions service
  else .ok (service, 0, 0)

def waitMax (field : Text) : Text × Int :=
  match strchr '.' field with
  | some (wait, max) => (wait, atoi max)
  | none => (field, TOOMANY)

def userGroup (field : Text) : Text × Option Text :=
  match strchr '.' field with
  | some (user, group) => (user, some group)
  | none => (field, none)

def assembleBuiltin (socktype : Socktype) (service server : Text) :
    Except String (Option Biltin) :=
  if server = "internal".toList then
    match findBuiltin socktype service with
    | none => .error "Invalid internal service"
    | some bi => .ok (some bi)
  else .ok none

/-- `se_wait`: services of the system have a flag of their own. -/
def waitFlag (bi : Option Biltin) (wait : Text) : Int :=
  match bi with
  | some bi => if bi.wait then 1 else 0
  | none => if wait = "wait".toList then 1 else 0

def assembleEntry (hosts : Hosts) : List Text → Except String Conf
  | field :: socktype :: proto :: wait :: user :: server :: args => do
    let (service, address, addr) ← assembleService hosts field
    checkHost (familyOf proto) address
    let (service, rpcversl, rpcversh) ← assembleRpc (familyOf proto) proto service
    let bi ← assembleBuiltin (socktypeOf socktype) service server
    return {
      service
      address
      sinAddr := if familyOf proto = .AF_INET then addr else 0
      socktype := socktypeOf socktype
      family := familyOf proto
      proto
      rpcversl
      rpcversh
      max := (waitMax wait).2
      wait := waitFlag bi (waitMax wait).1
      user := (userGroup user).1
      group := (userGroup user).2
      server
      bi
      argv := if args = [] then [server] else args }
  | _ => .error "Incomplete config entry"

def confs (hosts : Hosts) (file : Text) : List Conf :=
  (entries file).filterMap (fun fields => (assembleEntry hosts fields).toOption)

theorem waitFlag_cases (bi : Option Biltin) (wait : Text) :
    waitFlag bi wait = 0 ∨ waitFlag bi wait = 1 := by
  unfold waitFlag
  cases bi with
  | none => exact (ite_eq_or_eq _ 1 0).symm
  | some bi => exact (ite_eq_or_eq _ 1 0).symm

theorem assembleEntry_flag {hosts : Hosts} {fields : List Text} {c : Conf}
    (h : assembleEntry hosts fields = .ok c) : c.wait = 0 ∨ c.wait = 1 := by
  refine post_result (E := fun _ => True) (P := fun c => c.wait = 0 ∨ c.wait = 1) ?_ h
  unfold assembleEntry
  split
  · refine post_bind (post_true _) (fun a _ => ?_)
    refine post_bind (post_true _) (fun _ _ => ?_)
    refine post_bind (post_true _) (fun v _ => ?_)
    exact post_bind (post_true _) (fun bi _ => waitFlag_cases bi _)
  · exact trivial

end Netkit.Inetd

import Netkit.Foundations.Runs
import Netkit.Rcp.Sink

/-!
# The connection between the ends of rcp

The source and the sink with what is on its way between them. Either one may take the next step.
-/

namespace Netkit.Rcp

open Netkit.Foundations

/-! ## Steps -/

/-- The ends, and what is on its way down to the sink and up to the source. What has been written,
read, said and heard is kept, with the place of each response: `answers` counts the records and
bodies that the sink has read when it says something, `asks` those that the source has written
when it hears something. -/
structure Net where
  source : Source Unit
  sink : Sink
  down : Bytes
  up : Bytes
  written : List Item
  read : List Item
  said : List (Option Bytes)
  heard : List (Option Bytes)
  answers : List Nat
  asks : List Nat

inductive Event where
  | source
  | sink (env : SinkEnv)
deriving DecidableEq

def Item.isUnit : Item → Bool
  | .times _ _ | .file _ _ _ | .directory _ _ | .status _ | .leave => true
  | .note _ | .body _ => false

def units (items : List Item) : Nat := items.countP Item.isUnit

def Net.hear (n : Net) (next : Source Unit) (why : Option Bytes) (up : Bytes) : Net :=
  { n with source := next, up, heard := n.heard ++ [why], asks := n.asks ++ [units n.written] }

def sourceStep (n : Net) : Option Net :=
  match n.source with
  | .done _ => none
  | .tell i next =>
    some { n with source := next, down := n.down ++ i.bytes, written := n.written ++ [i] }
  | .ask next =>
    match takeResponse n.up with
    | some (.ok, up) => some (n.hear (next true) none up)
    | some (.error text, up) => some (n.hear (next false) (some text) up)
    | some (.fatal, up) => some { n with source := .done (), up }
    | none => if n.sink.mode = .ended then some { n with source := .done () } else none

def Net.closed (n : Net) : Bool :=
  match n.source with
  | .done _ => true
  | _ => false

/-- What the sink says when it truncates a file is meant for the status that comes next. -/
def Sink.ahead (s : Sink) : Nat :=
  match s.mode with
  | .truncate _ _ => 1
  | _ => 0

def Net.turn (n : Net) (t : SinkTurn) : Net :=
  { n with
    sink := t.sink
    down := t.rest
    up := n.up ++ t.said.flatMap responseBytes
    read := n.read ++ t.read.toList
    said := n.said ++ t.said
    answers := n.answers ++ t.said.map (fun _ => units (n.read ++ t.read.toList) + n.sink.ahead) }

def netStep (d : Bool) (n : Net) : Event → Option Net
  | .source => sourceStep n
  | .sink env => (sinkStep d env n.closed n.down n.sink).map n.turn

/-- The source has its arguments, the sink its target. -/
def startNet (remote : Bool) (f : Flags) (args : List (Bytes × Node)) (targ : Bytes) : Net where
  source := transfer remote f args
  sink := ⟨[⟨targ, false, false, true⟩], .start⟩
  down := []
  up := []
  written := []
  read := []
  said := []
  heard := []
  answers := []
  asks := []

/-! ## The property -/

def Net.Finished (n : Net) : Prop := n.closed = true ∧ n.sink.mode = .ended

/-- The sink has read what the source has written, the source has heard what the sink has said,
and response number `i` answers record or body number `i`, with the greeting as number 0; there is
one for all that the sink has read when it comes to the next record. When both ends wait, they are
done. -/
structure Lockstep (d : Bool) (n : Net) : Prop where
  read : n.read <+: n.written
  heard : n.heard <+: n.said
  answers : n.answers = List.range n.said.length
  asks : n.asks = List.range n.heard.length
  record : n.sink.mode = .record → n.said.length = units n.read + 1
  goes : n.Finished ∨ (netStep d n .source).isSome ∨ ∀ env, (netStep d n (.sink env)).isSome

/-! ## The condition -/

/-- What an error of the sink mentions fits into a response. -/
structure Fits (subject strerror : Bytes) : Prop where
  newline : 10 ∉ subject ++ strerror
  nul : 0 ∉ subject ++ strerror
  length : (subject ++ strerror).length + 32 < BUFSIZ

instance (text : Bytes) : Decidable (Readable text) :=
  decidable_of_iff (10 ∉ text ∧ 0 ∉ text ∧ text.length + 2 < BUFSIZ)
    ⟨fun h => ⟨h.1, h.2.1, h.2.2⟩, fun h => ⟨h.newline, h.nul, h.length⟩⟩

instance : (i : Item) → Decidable i.Plain
  | .note text => inferInstanceAs (Decidable (Readable text))
  | .times mtime atime => inferInstanceAs (Decidable (0 ≤ mtime ∧ 0 ≤ atime ∧
    (Item.times mtime atime).bytes.length < BUFSIZ))
  | .file mode size name => inferInstanceAs (Decidable (size < 2147483648 ∧ 10 ∉ name ∧ 0 ∉ name ∧
    (Item.file mode size name).bytes.length < BUFSIZ))
  | .directory mode name => inferInstanceAs (Decidable (10 ∉ name ∧ 0 ∉ name ∧
    (Item.directory mode name).bytes.length < BUFSIZ))
  | .status why => inferInstanceAs (Decidable (∀ text ∈ why, Readable text))
  | .body _ | .leave => inferInstanceAs (Decidable True)

instance (subject strerror : Bytes) : Decidable (Fits subject strerror) :=
  decidable_of_iff (10 ∉ subject ++ strerror ∧ 0 ∉ subject ++ strerror ∧
      (subject ++ strerror).length + 32 < BUFSIZ)
    ⟨fun h => ⟨h.1, h.2.1, h.2.2⟩, fun h => ⟨h.newline, h.nul, h.length⟩⟩

def CleanRecord (d : Bool) (env : SinkEnv) (f : Frame) (fs : List Frame) : Record → Prop
  | .file _ _ name => Fits (f.np name) env.strerror ∧ env.buffer = none
  | .directory _ name => Fits (f.np name) env.strerror ∧ (d = true → env.verified = true)
  | .leave => ∀ g ∈ fs.head?, g.setimes = true → env.utimes = true
  | _ => True

instance (d : Bool) (env : SinkEnv) (f : Frame) (fs : List Frame) :
    (r : Record) → Decidable (CleanRecord d env f fs r)
  | .file _ _ name => inferInstanceAs (Decidable (Fits (f.np name) env.strerror ∧ _))
  | .directory _ name => inferInstanceAs (Decidable (Fits (f.np name) env.strerror ∧ _))
  | .leave => inferInstanceAs (Decidable (∀ g ∈ fs.head?, _))
  | .note _ | .fatal | .times _ _ | .garbage _ | .screwup _ => inferInstanceAs (Decidable True)

/-- The steps of the sink that answer once; `remote` says that the source goes on whatever the
first response is. -/
def CleanSink (remote d : Bool) (env : SinkEnv) (input : Bytes) (s : Sink) : Prop :=
  match s.stack, s.mode with
  | f :: _, .start =>
    Fits f.targ env.strerror ∧ (d = true → env.verified = false → remote = false)
  | f :: fs, .record =>
    ∀ p ∈ takeRecord input, CleanRecord d env f fs (parseRecord p.1)
  | _, .truncate np _ => Fits np env.strerror
  | _, .status np _ => Fits np env.strerror
  | _, _ => True

instance (remote d : Bool) (env : SinkEnv) (input : Bytes) :
    (s : Sink) → Decidable (CleanSink remote d env input s)
  | ⟨f :: _, .start⟩ => inferInstanceAs (Decidable (Fits f.targ env.strerror ∧ _))
  | ⟨f :: fs, .record⟩ =>
    inferInstanceAs (Decidable (∀ p ∈ takeRecord input, CleanRecord d env f fs (parseRecord p.1)))
  | ⟨_ :: _, .truncate np _⟩ => inferInstanceAs (Decidable (Fits np env.strerror))
  | ⟨_ :: _, .status np _⟩ => inferInstanceAs (Decidable (Fits np env.strerror))
  | ⟨[], .truncate np _⟩ => inferInstanceAs (Decidable (Fits np env.strerror))
  | ⟨[], .status np _⟩ => inferInstanceAs (Decidable (Fits np env.strerror))
  | ⟨[], .start⟩ | ⟨[], .record⟩ | ⟨_ :: _, .body _ _⟩ | ⟨[], .body _ _⟩
  | ⟨_ :: _, .ended⟩ | ⟨[], .ended⟩ => inferInstanceAs (Decidable True)

/-- The source writes something that is read as it is meant. -/
def CleanSource : Source Unit → Prop
  | .tell i _ => i.Plain
  | _ => True

instance : (p : Source Unit) → Decidable (CleanSource p)
  | .tell i _ => inferInstanceAs (Decidable i.Plain)
  | .done _ | .ask _ => inferInstanceAs (Decidable True)

/-- The source writes something that is read as it is meant, and the sink answers once. -/
def CleanEvent (remote d : Bool) (n : Net) : Event → Prop
  | .source => CleanSource n.source
  | .sink env => CleanSink remote d env n.down n.sink

instance (remote d : Bool) (n : Net) : (e : Event) → Decidable (CleanEvent remote d n e)
  | .source => inferInstanceAs (Decidable (CleanSource n.source))
  | .sink env => inferInstanceAs (Decidable (CleanSink remote d env n.down n.sink))

end Netkit.Rcp

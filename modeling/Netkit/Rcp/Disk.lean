import Mathlib.Data.Nat.Bitwise
import Netkit.Foundations.Paths
import Netkit.Rcp.Connection

/-!
# The disk of the sink

In `Sink` the file system may say anything. Here it is a disk that belongs to the user for whom the
sink runs, on which nothing fails but for its permissions and for paths that are too long.
-/

namespace Netkit.Rcp

open Netkit.Foundations

/-! ## The disk -/

/-- What is at a path, with its nine permission bits. -/
inductive Inode where
  | file (mode : ℕ) (mtime : Int) (contents : Bytes)
  | directory (mode : ℕ) (mtime : Int)
  deriving DecidableEq

abbrev Disk := Resolved → Option Inode

/-- The machine of the sink, with the flag `-p`. The directories from `root` on are the user's;
those above it can be searched. `now` is the time, and `strerror` what errors say. -/
structure Host where
  root : Resolved
  pflag : Bool
  superuser : Bool
  umask : Fin 512
  now : Int
  strerror : Bytes

def Inode.isDirectory : Inode → Bool
  | .directory _ _ => true
  | .file _ _ _ => false

def Inode.mode : Inode → ℕ
  | .directory mode _ | .file mode _ _ => mode

def Inode.touch (mtime : Int) : Inode → Inode
  | .file mode _ contents => .file mode mtime contents
  | .directory mode _ => .directory mode mtime

def Inode.chmod (mode : ℕ) : Inode → Inode
  | .file _ mtime contents => .file (mode % 512) mtime contents
  | .directory _ mtime => .directory (mode % 512) mtime

def Inode.write (b : Bytes) (now : Int) : Inode → Inode
  | .file mode _ contents => .file mode now (b ++ contents.drop b.length)
  | .directory mode mtime => .directory mode mtime

def Inode.truncate (size : ℕ) : Inode → Inode
  | .file mode mtime contents =>
    .file mode mtime (contents.take size ++ List.replicate (size - contents.length) 0)
  | .directory mode mtime => .directory mode mtime

namespace Host

variable (h : Host) (disk : Disk)

/-- The mode of something new; with `-p` the sink sets its `umask` to 0. -/
def created (mode : ℕ) : ℕ := (mode % 512) &&& (511 ^^^ (if h.pflag then 0 else h.umask.val))

/-- It is a directory with the bit for its owner, 6 to search it and 7 to write to it. -/
def grants (bit : ℕ) : Option Inode → Bool
  | some (.directory mode _) => h.superuser || mode.testBit bit
  | _ => false

def searchable (key : Resolved) : Bool :=
  (List.range key.names.length).all fun n =>
    n < h.root.names.length || h.grants 6 (disk { key with names := key.names.take n })

def found (np : Bytes) : Bool := np.length < MAXPATHLEN && h.searchable disk (resolve np)

/-- `stat`, and whether there is a directory. -/
def stat (np : Bytes) : Option Bool :=
  if h.found disk np then (disk (resolve np)).map Inode.isDirectory else none

def creates (np : Bytes) : Bool :=
  h.found disk np && (disk (resolve np)).isNone && h.grants 7 (disk (resolve np).up)

/-- `open` for writing. -/
def opens (np : Bytes) : Bool :=
  match disk (resolve np) with
  | none => h.creates disk np
  | some (.file mode _ _) => h.found disk np && (h.superuser || mode.testBit 7)
  | some (.directory _ _) => false

end Host

def Disk.change (disk : Disk) (key : Resolved) (f : Inode → Inode) : Disk :=
  Function.update disk key ((disk key).map f)

def Host.make (h : Host) (disk : Disk) (key : Resolved) (i : Inode) : Disk :=
  Disk.change (Function.update disk key (some i)) key.up (Inode.touch h.now)

/-! ## The sink on the disk -/

/-- The disk, `tv` in the calls of `sink`, the innermost first, as far as the modification times
go, and the `size` of the file that is being received. -/
structure World where
  disk : Disk
  tv : List Int
  size : Int

def Frame.about (f : Frame) : Record → Bytes
  | .file _ _ name | .directory _ name => f.np name
  | _ => f.targ

def Sink.subject (s : Sink) (input : Bytes) : Bytes :=
  match s.stack, s.mode with
  | _, .body np _ | _, .truncate np _ | _, .status np _ => np
  | f :: _, .record =>
    match takeRecord input with
    | some (line, _) => f.about (parseRecord line)
    | none => f.targ
  | f :: _, _ => f.targ
  | [], _ => []

/-- What the file system says of a path; `making` says that a directory has just been made if it
could be. -/
def Host.answers (h : Host) (disk : Disk) (np : Bytes) (making : Bool) (size : Int) : SinkEnv where
  verified := h.stat disk np == some true || making && h.creates disk np
  isDirectory := h.stat disk np == some true || making && h.creates disk np
  existing := h.stat disk np
  mkdir := h.creates disk np
  opens := h.opens disk np
  buffer := none
  writes := true
  ftruncate := 0 ≤ size
  utimes := (h.stat disk np).isSome
  strerror := h.strerror

def World.env (h : Host) (w : World) (input : Bytes) (s : Sink) : SinkEnv :=
  h.answers w.disk (s.subject input) (s.mode = .record) w.size

def World.record (h : Host) (w : World) (f : Frame) (fs : List Frame) : Record → World
  | .times mtime _ => { w with tv := mtime :: w.tv.tail }
  | .file mode size name =>
    let key := resolve (f.np name)
    if h.opens w.disk (f.np name) then
      { w with
        size := size
        disk :=
          if (w.disk key).isNone then h.make w.disk key (.file (h.created mode) h.now [])
          else if h.pflag then w.disk.change key (Inode.chmod mode) else w.disk }
    else w
  | .directory mode name =>
    let key := resolve (f.np name)
    match h.stat w.disk (f.np name) with
    | some true =>
      { w with
        disk := if h.pflag then w.disk.change key (Inode.chmod mode) else w.disk
        tv := 0 :: w.tv }
    | some false => w
    | none =>
      if h.creates w.disk (f.np name) then
        { w with
          disk := h.make w.disk key (.directory (h.created mode) h.now)
          tv := 0 :: w.tv }
      else w
  | .leave =>
    match fs with
    | [] => w
    | g :: _ =>
      { w with
        disk :=
          if g.setimes then w.disk.change (resolve f.targ) (Inode.touch (w.tv.tail.headD 0))
          else w.disk
        tv := w.tv.tail }
  | _ => w

def World.after (h : Host) (w : World) (input : Bytes) (s : Sink) : World :=
  match s.stack, s.mode with
  | f :: fs, .record =>
    match takeRecord input with
    | some (line, _) => w.record h f fs (parseRecord line)
    | none => w
  | _ :: _, .body np size =>
    if size ≤ input.length then
      { w with disk := w.disk.change (resolve np) (Inode.write (input.take size) h.now) }
    else w
  | _ :: _, .truncate np _ =>
    if 0 ≤ w.size then
      { w with disk := w.disk.change (resolve np) (Inode.truncate w.size.toNat) }
    else w
  | f :: _, .status np wrerr =>
    match takeResponse input with
    | some (.ok, _) | some (.error _, _) =>
      if f.setimes ∧ wrerr = .NO then
        { w with disk := w.disk.change (resolve np) (Inode.touch (w.tv.headD 0)) }
      else w
    | _ => w
  | _, _ => w

/-! ## Both ends -/

inductive Side where
  | source
  | sink
  deriving DecidableEq

structure Copying where
  net : Net
  world : World

def copyStep (h : Host) (d : Bool) (c : Copying) : Side → Option Copying
  | .source => (sourceStep c.net).map fun net => { c with net }
  | .sink =>
    (netStep d c.net (.sink (c.world.env h c.net.down c.net.sink))).map fun net =>
      ⟨net, c.world.after h c.net.down c.net.sink⟩

def Copying.start (remote : Bool) (h : Host) (path : Bytes) (node : Node) (targ : Bytes)
    (disk : Disk) : Copying :=
  ⟨startNet remote ⟨h.pflag, true⟩ [(path, node)] targ, disk, [0], 0⟩

/-! ## The disk after a change -/

variable {h : Host} {disk disk' : Disk} {key : Resolved} {i : Inode}

theorem all_range_congr {n : ℕ} {p q : ℕ → Bool} (hpq : ∀ m < n, p m = q m) :
    (List.range n).all p = (List.range n).all q := by
  rw [Bool.eq_iff_iff, List.all_eq_true, List.all_eq_true]
  exact forall₂_congr (fun m hm => by rw [hpq m (List.mem_range.mp hm)])

theorem searchable_entry (key : Resolved) (c : Bytes) :
    h.searchable disk (key.entry c) = (h.searchable disk key &&
      (key.names.length < h.root.names.length || h.grants 6 (disk key))) := by
  have htake (n : ℕ) (hn : n ≤ key.names.length) :
      { key.entry c with names := (key.entry c).names.take n } =
        { key with names := key.names.take n } := by
    rw [Resolved.entry_names, List.take_append_of_le_length hn]
    rfl
  rw [Host.searchable, Host.searchable, Resolved.entry_names, List.length_append,
    List.length_singleton, List.range_succ, List.all_append, List.all_cons, List.all_nil,
    Bool.and_true]
  congr 1
  · refine all_range_congr (fun n hn => ?_)
    rw [← Resolved.entry_names, htake n hn.le]
  · rw [← Resolved.entry_names, htake _ (Nat.le_refl _), List.take_length]

theorem searchable_congr (hsame : ∀ r : Resolved, r.Covers key → r ≠ key →
    h.grants 6 (disk' r) = h.grants 6 (disk r)) :
    h.searchable disk' key = h.searchable disk key := by
  refine all_range_congr (fun n hn => ?_)
  rw [hsame]
  · exact ⟨rfl, rfl, List.take_prefix n _⟩
  · intro heq
    have hlength := congrArg (fun r => r.names.length) heq
    rw [List.length_take, Nat.min_eq_left hn.le] at hlength
    exact absurd hlength hn.ne

theorem grants_touch (bit : ℕ) (t : Int) (i : Option Inode) :
    h.grants bit (i.map (Inode.touch t)) = h.grants bit i := by
  rcases i with _ | ⟨mode, mtime, contents⟩ | ⟨mode, mtime⟩
  · rfl
  · rfl
  · rfl

theorem change_self (f : Inode → Inode) : disk.change key f key = (disk key).map f :=
  Function.update_self _ _ _

theorem change_of_ne {key' : Resolved} (hne : key' ≠ key) (f : Inode → Inode) :
    disk.change key f key' = disk key' := Function.update_of_ne hne _ _

theorem make_self (hup : key ≠ key.up) : h.make disk key i key = some i := by
  rw [Host.make, change_of_ne hup, Function.update_self]

theorem make_up (hup : key ≠ key.up) :
    h.make disk key i key.up = (disk key.up).map (Inode.touch h.now) := by
  rw [Host.make, change_self, Function.update_of_ne hup.symm]

theorem make_of_ne {key' : Resolved} (hkey : key' ≠ key) (hup : key' ≠ key.up) :
    h.make disk key i key' = disk key' := by
  rw [Host.make, change_of_ne hup, Function.update_of_ne hkey]

theorem make_change (hup : key ≠ key.up) (f : Inode → Inode) :
    (h.make disk key i).change key f = h.make disk key (f i) := by
  funext r
  by_cases hkey : r = key
  · subst hkey
    rw [change_self, make_self hup, make_self hup]
    rfl
  · rw [change_of_ne hkey]
    by_cases hr : r = key.up
    · subst hr
      rw [make_up hup, make_up hup]
    · rw [make_of_ne hkey hr, make_of_ne hkey hr]

theorem creates_eq_true {np : Bytes} : h.creates disk np = true ↔
    h.found disk np = true ∧ disk (resolve np) = none ∧
      h.grants 7 (disk (resolve np).up) = true := by
  rw [Host.creates, Bool.and_eq_true, Bool.and_eq_true, Option.isNone_iff_eq_none, and_assoc]

theorem stat_of_found {np : Bytes} (hfound : h.found disk np = true) :
    h.stat disk np = (disk (resolve np)).map Inode.isDirectory := if_pos hfound

theorem stat_of_none {np : Bytes} (hnone : disk (resolve np) = none) : h.stat disk np = none := by
  rw [Host.stat, hnone]
  split
  · rfl
  · rfl

theorem opens_of_none {np : Bytes} (hnone : disk (resolve np) = none) :
    h.opens disk np = h.creates disk np := by
  rw [Host.opens, hnone]

theorem found_change (np : Bytes) (f : Inode → Inode) :
    h.found (disk.change (resolve np) f) np = h.found disk np := by
  rw [Host.found, Host.found, searchable_congr]
  intro r _ hr
  rw [change_of_ne hr]

theorem found_make {np : Bytes} (hup : resolve np ≠ (resolve np).up) :
    h.found (h.make disk (resolve np) i) np = h.found disk np := by
  rw [Host.found, Host.found, searchable_congr]
  intro r _ hr
  by_cases hrup : r = (resolve np).up
  · rw [hrup, make_up hup, grants_touch]
  · rw [make_of_ne hr hrup]

end Netkit.Rcp

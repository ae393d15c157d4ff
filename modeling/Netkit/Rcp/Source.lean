import Netkit.Foundations.Lockstep
import Netkit.Rcp.Records

/-!
# The source of rcp

`source` and `rsource` go through a tree of files, write records and read responses. The tree
comes with the answers of the file system.
-/

namespace Netkit.Rcp

open Netkit.Foundations
open Netkit.Foundations.Program (say hear)

/-! ## Trees -/

mutual

/-- What is behind a name: it cannot be opened, it is neither a file nor a directory, or it is one
of them. `buffer` is the message of `allocbuf`, if that fails. `sent` is what the buffer holds
when it is written, one byte for each of `st_size`, whatever the reads have brought, and `readerr`
the message of a read that has failed. `opendir` is its message, if it fails; the entries are
those besides `.` and `..`. -/
inductive Node where
  | unopened (strerror : Bytes)
  | special
  | file (mtime atime : Int) (mode : Fin 4096) (buffer : Option Bytes) (sent : Bytes)
      (readerr : Option Bytes)
  | directory (mtime atime : Int) (mode : Fin 4096) (opendir : Option Bytes) (entries : Entries)

inductive Entries where
  | nil
  | cons (name : Bytes) (node : Node) (rest : Entries)

end

/-- `-p` and `-r`. -/
structure Flags where
  pflag : Bool
  iamrecursive : Bool
deriving DecidableEq

def MAXPATHLEN : Nat := 4096

/-! ## The program -/

abbrev Source := Program Item Bool

/-- `"rcp: %s: %s\\n"`. -/
def complaint (path why : Bytes) : Bytes := ascii "rcp: " ++ path ++ ascii ": " ++ why

def lastName (path : Bytes) : Bytes := (path.reverse.takeWhile (fun c => c ≠ 47)).reverse

/-- The times, with `-p`; `rest` is left out if they are refused. -/
def announce (f : Flags) (mtime atime : Int) (rest : Source Unit) : Source Unit :=
  if f.pflag then do
    say (.times mtime atime)
    let ok ← hear
    if ok then rest else pure ()
  else rest

def sendBody (path : Bytes) (buffer : Option Bytes) (sent : Bytes) (readerr : Option Bytes) :
    Source Unit :=
  match buffer with
  | some why => say (.note why)
  | none => do
    if sent = [] then pure () else say (.body sent)
    say (.status (readerr.map (complaint path)))
    let _ ← hear
    pure ()

def sendFile (path : Bytes) (mode : Fin 4096) (buffer : Option Bytes) (sent : Bytes)
    (readerr : Option Bytes) : Source Unit := do
  say (.file mode sent.length (lastName path))
  let ok ← hear
  if ok then sendBody path buffer sent readerr else pure ()

def leaveDirectory : Source Unit := do
  say .leave
  let _ ← hear
  pure ()

/-- A directory; `entries` is the loop over its entries. -/
def rsource (f : Flags) (path : Bytes) (mtime atime : Int) (mode : Fin 4096)
    (opendir : Option Bytes) (entries : Source Unit) : Source Unit :=
  match opendir with
  | some strerror => say (.note (complaint path strerror))
  | none => announce f mtime atime (do
    say (.directory mode (lastName path))
    let ok ← hear
    if ok then do
      entries
      leaveDirectory
    else pure ())

mutual

/-- `source`, for one name. -/
def source (f : Flags) (path : Bytes) : Node → Source Unit
  | .unopened strerror => say (.note (complaint path strerror))
  | .special => say (.note (complaint path (ascii "not a plain file")))
  | .file mtime atime mode buffer sent readerr =>
    announce f mtime atime (sendFile path mode buffer sent readerr)
  | .directory mtime atime mode opendir entries =>
    if f.iamrecursive then
      rsource f path mtime atime mode opendir (sourceEntries f path entries)
    else say (.note (complaint path (ascii "not a plain file")))

/-- The loop of `rsource`. -/
def sourceEntries (f : Flags) (path : Bytes) : Entries → Source Unit
  | .nil => pure ()
  | .cons name node rest => do
    if MAXPATHLEN - 1 ≤ path.length + 1 + name.length then
      say (.note (path ++ 47 :: (name ++ ascii ": name too long.")))
    else source f (path ++ 47 :: name) node
    sourceEntries f path rest

end

/-- The loop of `source` and of `toremote` over their arguments. -/
def sourceAll (f : Flags) : List (Bytes × Node) → Source Unit
  | [] => pure ()
  | (path, node) :: args => do
    source f path node
    sourceAll f args

/-- The first response; a source that has been started by the other end goes on in any case. -/
def transfer (remote : Bool) (f : Flags) (args : List (Bytes × Node)) : Source Unit := do
  let ok ← hear
  if ok || remote then sourceAll f args else pure ()

/-! ## Phases -/

/-- What the conversation is at; `depth` counts the directories that have been entered. -/
inductive Phase where
  | greeting
  | refused
  | idle (depth : Nat)
  | times (depth : Nat)
  | file (size depth : Nat)
  | directory (depth : Nat)
  | leave (depth : Nat)
  | body (size depth : Nat)
  | status (depth : Nat)
  | answer (depth : Nat)
deriving DecidableEq

def Phase.tells : Phase → Item → Option Phase
  | .idle depth, .note _ => some (.idle depth)
  | .idle depth, .times _ _ => some (.times depth)
  | .idle depth, .file _ size _ => some (.file size depth)
  | .idle depth, .directory _ _ => some (.directory depth)
  | .idle (depth + 1), .leave => some (.leave depth)
  | .body size depth, .body contents => if contents.length = size then some (.status depth) else none
  | .status depth, .status _ => some (.answer depth)
  | _, _ => none

def Phase.asks : Phase → Bool
  | .greeting | .times _ | .file _ _ | .directory _ | .leave _ | .answer _ => true
  | _ => false

/-- The phase behind an answer. A source that is not `remote` leaves when the sink refuses the
first answer. -/
def Phase.answers (remote : Bool) : Phase → Bool → Option Phase
  | .greeting, true => some (.idle 0)
  | .greeting, false => if remote then none else some .refused
  | .times depth, _ => some (.idle depth)
  | .file size depth, true => if size = 0 then some (.status depth) else some (.body size depth)
  | .file _ depth, false => some (.idle depth)
  | .directory depth, true => some (.idle (depth + 1))
  | .directory depth, false => some (.idle depth)
  | .leave depth, _ => some (.idle depth)
  | .answer depth, _ => some (.idle depth)
  | _, _ => none

def protocol (remote : Bool) : Protocol Phase Item Bool where
  tells := Phase.tells
  asks := fun φ => φ.asks = true
  answers := Phase.answers remote

/-! ## The source keeps to the protocol -/

mutual

/-- `allocbuf` fails for no file. -/
def Node.Buffered : Node → Prop
  | .file _ _ _ buffer _ _ => buffer = none
  | .directory _ _ _ _ entries => entries.Buffered
  | _ => True

def Entries.Buffered : Entries → Prop
  | .nil => True
  | .cons _ node rest => node.Buffered ∧ rest.Buffered

end

def Returns (remote : Bool) (p : Source Unit) : Prop :=
  ∀ depth, Follows (protocol remote) (fun _ φ => φ = .idle depth) p (.idle depth)

variable {remote : Bool}

theorem returns_pure : Returns remote (pure ()) := fun _ => rfl

theorem returns_note (text : Bytes) : Returns remote (say (.note text)) := fun _ =>
  follows_say rfl rfl

theorem Returns.bind {p q : Source Unit} (hp : Returns remote p) (hq : Returns remote q) :
    Returns remote (p >>= fun _ => q) := fun depth =>
  follows_bind.mpr ((hp depth).mono (fun _ φ hφ => by
    subst hφ
    exact hq depth))

theorem announce_returns (f : Flags) (mtime atime : Int) {rest : Source Unit}
    (hrest : Returns remote rest) : Returns remote (announce f mtime atime rest) := by
  intro depth
  unfold announce
  split
  · refine ⟨.times depth, rfl, rfl, fun ok φ hφ => ?_⟩
    obtain rfl := Option.some.inj hφ
    cases ok with
    | true => exact hrest depth
    | false => exact returns_pure depth
  · exact hrest depth

theorem sendFile_returns (path : Bytes) (mode : Fin 4096) (sent : Bytes) (readerr : Option Bytes) :
    Returns remote (sendFile path mode none sent readerr) := by
  intro depth
  refine ⟨.file sent.length depth, rfl, rfl, fun ok φ hφ => ?_⟩
  cases ok with
  | false =>
    obtain rfl := Option.some.inj hφ
    exact returns_pure depth
  | true =>
    have hstatus : Follows (protocol remote) (fun _ φ => φ = .idle depth)
        (do
          say (.status (readerr.map (complaint path)))
          let _ ← hear
          pure ()) (.status depth) :=
      ⟨.answer depth, rfl, rfl, fun _ ψ hψ => (Option.some.inj hψ).symm⟩
    by_cases hsent : sent = []
    · subst hsent
      obtain rfl := Option.some.inj hφ
      exact hstatus
    · have hlength : ¬ sent.length = 0 := fun h => hsent (List.length_eq_zero_iff.mp h)
      have hbody : φ = .body sent.length depth := by
        change (if sent.length = 0 then _ else _) = some φ at hφ
        rw [if_neg hlength] at hφ
        exact (Option.some.inj hφ).symm
      subst hbody
      change Follows (protocol remote) _ (sendBody path none sent readerr) _
      unfold sendBody
      dsimp only
      rw [if_neg hsent]
      exact ⟨.status depth, if_pos rfl, hstatus⟩

theorem rsource_returns (f : Flags) (path : Bytes) (mtime atime : Int) (mode : Fin 4096)
    (opendir : Option Bytes) {entries : Source Unit} (hentries : Returns remote entries) :
    Returns remote (rsource f path mtime atime mode opendir entries) := by
  cases opendir with
  | some strerror => exact returns_note _
  | none =>
    refine announce_returns f mtime atime (fun depth => ?_)
    refine ⟨.directory depth, rfl, rfl, fun ok φ hφ => ?_⟩
    cases ok with
    | false =>
      obtain rfl := Option.some.inj hφ
      exact returns_pure depth
    | true =>
      obtain rfl := Option.some.inj hφ
      change Follows (protocol remote) _ (entries >>= fun _ => leaveDirectory) _
      refine follows_bind.mpr ((hentries (depth + 1)).mono (fun _ φ hφ => ?_))
      subst hφ
      exact ⟨.leave depth, rfl, rfl, fun _ ψ hψ => (Option.some.inj hψ).symm⟩

mutual

theorem source_returns (f : Flags) (path : Bytes) :
    (node : Node) → node.Buffered → Returns remote (source f path node)
  | .unopened _, _ => returns_note _
  | .special, _ => returns_note _
  | .file mtime atime mode buffer sent readerr, h => by
    subst h
    exact announce_returns f mtime atime (sendFile_returns path mode sent readerr)
  | .directory mtime atime mode opendir entries, h => by
    unfold source
    split
    · exact rsource_returns f path mtime atime mode opendir (sourceEntries_returns f path entries h)
    · exact returns_note _

theorem sourceEntries_returns (f : Flags) (path : Bytes) :
    (entries : Entries) → entries.Buffered → Returns remote (sourceEntries f path entries)
  | .nil, _ => returns_pure
  | .cons name node rest, h => by
    unfold sourceEntries
    split
    · exact (returns_note _).bind (sourceEntries_returns f path rest h.2)
    · exact (source_returns f (path ++ 47 :: name) node h.1).bind
        (sourceEntries_returns f path rest h.2)

end

theorem sourceAll_returns (f : Flags) {args : List (Bytes × Node)}
    (hargs : ∀ a ∈ args, a.2.Buffered) : Returns remote (sourceAll f args) := by
  induction args with
  | nil => exact returns_pure
  | cons a args ih =>
    exact (source_returns f a.1 a.2 (hargs a List.mem_cons_self)).bind
      (ih (fun b hb => hargs b (List.mem_cons_of_mem a hb)))

/-- The source keeps to the protocol, and ends between records or when it has been refused. -/
theorem transfer_follows (f : Flags) {args : List (Bytes × Node)}
    (hargs : ∀ a ∈ args, a.2.Buffered) :
    Follows (protocol remote) (fun _ φ => φ = .idle 0 ∨ φ = .refused) (transfer remote f args)
      .greeting := by
  refine ⟨rfl, fun ok φ hφ => ?_⟩
  cases ok with
  | true =>
    obtain rfl := Option.some.inj hφ
    exact (sourceAll_returns f hargs 0).mono (fun _ _ h => Or.inl h)
  | false =>
    cases remote with
    | true => exact nomatch hφ
    | false =>
      obtain rfl := Option.some.inj hφ
      exact Or.inr rfl

end Netkit.Rcp

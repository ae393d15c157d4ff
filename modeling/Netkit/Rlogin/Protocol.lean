import Netkit.Foundations.Runs
import Netkit.Rlogin.Window

/-!
# The protocol loop of rlogind

`protocol` copies what comes from the network to the master side of the pty and back. One round of
its loop asks `select` which of the two it may read and write, and then does what it may. It reads
from the network only when the pty has taken all of the last read, removes the window messages from
what it has read, and gives the pty what is left, as much at a time as the pty takes.

* `transparent_iff`: the pty is given the data and the sizes that were sent, exactly when no read
  ends inside a window message.
-/

namespace Netkit.Rlogin

open Netkit.Foundations

/-! ## The loop -/

structure Relay where
  /-- The `fcc` bytes from `fbp` on. -/
  fibuf : List UInt8
  /-- The `pcc` bytes from `pbp` on. -/
  pibuf : List UInt8
  oobdata : UInt8
  running : Bool
  /-- What the pty has taken. -/
  pty : List UInt8
  /-- The sizes given to `TIOCSWINSZ`. -/
  sizes : List Winsize
  /-- What the network has taken. -/
  net : List UInt8
  /-- The bytes sent with `MSG_OOB`. -/
  urgent : List UInt8
  /-- What each read from the network has returned. -/
  reads : List (List UInt8)
  deriving DecidableEq

def tiocpktWindow : UInt8 := 0x80

def tiocpktFlushwrite : UInt8 := 0x02

def Relay.start : Relay where
  fibuf := []
  pibuf := []
  oobdata := tiocpktWindow
  running := true
  pty := []
  sizes := []
  net := []
  urgent := [tiocpktWindow]
  reads := []

/-- The descriptors in the sets of `select`. -/
structure Fds where
  netIn : Bool
  netOut : Bool
  ptyIn : Bool
  ptyOut : Bool
  ptyExcept : Bool

def Fds.inter (a b : Fds) : Fds where
  netIn := a.netIn && b.netIn
  netOut := a.netOut && b.netOut
  ptyIn := a.ptyIn && b.ptyIn
  ptyOut := a.ptyOut && b.ptyOut
  ptyExcept := a.ptyExcept && b.ptyExcept

/-- The sets before `select`. -/
def Relay.asked (s : Relay) : Fds where
  netIn := s.fibuf.isEmpty
  netOut := !s.pibuf.isEmpty
  ptyIn := s.pibuf.isEmpty
  ptyOut := !s.fibuf.isEmpty
  ptyExcept := true

/-- `select` is interrupted or returns 0, fails, or returns the descriptors that are ready. -/
inductive Select where
  | again
  | failed
  | ready (fds : Fds)

/-- `read` into a buffer of `n` bytes. -/
inductive Read (n : Nat) where
  | wouldBlock
  | ended
  | bytes (b : List UInt8) (ne : b ≠ []) (le : b.length ≤ n)

/-- What the system calls of a round return; a `write` that fails takes 0 bytes. -/
structure Round where
  select : Select
  cntl : Option UInt8
  netRead : Read 1024
  ptyWrite : Nat
  ptyRead : Read 1025
  netWrite : Nat

/-- `FLUSHWRITE`, `NOSTOP` and `DOSTOP`. -/
def pkcontrol (c : UInt8) : UInt8 := c &&& 0x32

/-- `if (FD_ISSET(p, &ebits))`. -/
def readCntl (r : Round) (s : Relay) (fds : Fds) : Relay × Fds :=
  match fds.ptyExcept, r.cntl with
  | true, some c =>
    if pkcontrol c ≠ 0 then
      let cntl := c ||| s.oobdata
      let s := { s with urgent := s.urgent ++ [cntl] }
      if cntl &&& tiocpktFlushwrite ≠ 0 then
        ({ s with pibuf := [] }, { fds with ptyIn := false })
      else (s, fds)
    else (s, fds)
  | _, _ => (s, fds)

/-- `if (FD_ISSET(f, &ibits))`. -/
def readNet (r : Round) (s : Relay) (fds : Fds) : Relay × Fds :=
  if fds.netIn then
    match r.netRead with
    | .wouldBlock => ({ s with fibuf := [] }, fds)
    | .ended => ({ s with running := false }, fds)
    | .bytes b _ _ =>
      let left := top b
      ({ s with
          fibuf := left.1
          sizes := s.sizes ++ left.2
          oobdata := if left.2.isEmpty then s.oobdata else s.oobdata &&& ~~~tiocpktWindow
          reads := s.reads ++ [b] },
        { fds with ptyOut := true })
  else (s, fds)

/-- `if (FD_ISSET(p, &obits) && fcc > 0)`. -/
def writePty (r : Round) (s : Relay) (fds : Fds) : Relay :=
  if fds.ptyOut then
    { s with
      pty := s.pty ++ s.fibuf.take r.ptyWrite
      fibuf := s.fibuf.drop r.ptyWrite }
  else s

/-- `if (FD_ISSET(p, &ibits))`. -/
def readPty (r : Round) (s : Relay) (fds : Fds) : Relay × Fds :=
  if fds.ptyIn then
    match r.ptyRead with
    | .wouldBlock => ({ s with pibuf := [] }, fds)
    | .ended => ({ s with running := false }, fds)
    | .bytes b _ _ =>
      let c := b.getD 0 0
      if c = 0 then ({ s with pibuf := b.drop 1 }, { fds with netOut := true })
      else if pkcontrol c ≠ 0 then
        ({ s with pibuf := [], urgent := s.urgent ++ [c ||| s.oobdata] }, fds)
      else ({ s with pibuf := [] }, fds)
  else (s, fds)

/-- `if ((FD_ISSET(f, &obits)) && pcc > 0)`. -/
def writeNet (r : Round) (s : Relay) (fds : Fds) : Relay :=
  if fds.netOut then
    { s with
      net := s.net ++ s.pibuf.take r.netWrite
      pibuf := s.pibuf.drop r.netWrite }
  else s

/-- One round of the loop; there is none after `break` and `fatal`. -/
def protocol (s : Relay) (r : Round) : Option Relay :=
  if s.running then
    match r.select with
    | .again => some s
    | .failed => some { s with running := false }
    | .ready fds =>
      let cntl := readCntl r s (s.asked.inter fds)
      let net := readNet r cntl.1 cntl.2
      if net.1.running then
        let pty := readPty r (writePty r net.1 net.2) net.2
        if pty.1.running then some (writeNet r pty.1 pty.2) else some pty.1
      else some net.1
  else none

/-! ## What every round keeps -/

/-- What has been read, but for the messages, has been written or waits in the buffer. -/
structure Relay.Received (s : Relay) : Prop where
  pty : s.pty ++ s.fibuf = window.received s.reads
  sizes : s.sizes = window.signalled s.reads

/-- Nothing was read from the network. -/
structure Relay.Same (s t : Relay) : Prop where
  pty : t.pty ++ t.fibuf = s.pty ++ s.fibuf
  sizes : t.sizes = s.sizes
  reads : t.reads = s.reads

theorem Relay.Same.received {s t : Relay} (h : s.Same t) (hs : s.Received) : t.Received where
  pty := by rw [h.pty, h.reads]; exact hs.pty
  sizes := by rw [h.sizes, h.reads]; exact hs.sizes

theorem readCntl_same (r : Round) (s : Relay) (fds : Fds) :
    s.Same (readCntl r s fds).1 ∧ (readCntl r s fds).1.fibuf = s.fibuf ∧
      (readCntl r s fds).2.netIn = fds.netIn := by
  rw [readCntl]
  split
  · split
    · dsimp only
      split
      · exact ⟨⟨rfl, rfl, rfl⟩, rfl, rfl⟩
      · exact ⟨⟨rfl, rfl, rfl⟩, rfl, rfl⟩
    · exact ⟨⟨rfl, rfl, rfl⟩, rfl, rfl⟩
  · exact ⟨⟨rfl, rfl, rfl⟩, rfl, rfl⟩

theorem writePty_same (r : Round) (s : Relay) (fds : Fds) : s.Same (writePty r s fds) := by
  rw [writePty]
  split
  · refine ⟨?_, rfl, rfl⟩
    rw [List.append_assoc, List.take_append_drop]
  · exact ⟨rfl, rfl, rfl⟩

theorem readPty_same (r : Round) (s : Relay) (fds : Fds) : s.Same (readPty r s fds).1 := by
  rw [readPty]
  split
  · split
    · exact ⟨rfl, rfl, rfl⟩
    · exact ⟨rfl, rfl, rfl⟩
    · rename_i b _ _ _
      by_cases hdata : b.getD 0 0 = 0
      · rw [if_pos hdata]
        exact ⟨rfl, rfl, rfl⟩
      · rw [if_neg hdata]
        split
        · exact ⟨rfl, rfl, rfl⟩
        · exact ⟨rfl, rfl, rfl⟩
  · exact ⟨rfl, rfl, rfl⟩

theorem writeNet_same (r : Round) (s : Relay) (fds : Fds) : s.Same (writeNet r s fds) := by
  rw [writeNet]
  split
  · exact ⟨rfl, rfl, rfl⟩
  · exact ⟨rfl, rfl, rfl⟩

theorem readNet_received {r : Round} {s : Relay} {fds : Fds}
    (hempty : fds.netIn = true → s.fibuf = []) (hs : s.Received) :
    (readNet r s fds).1.Received := by
  rw [readNet]
  split
  · rename_i hin
    have hpty := hs.pty
    rw [hempty hin, List.append_nil] at hpty
    split
    · exact ⟨(List.append_nil _).trans hpty, hs.sizes⟩
    · exact ⟨hs.pty, hs.sizes⟩
    · rename_i b _ _ _
      constructor
      · rw [Signal.received, List.flatMap_append, List.flatMap_singleton, hpty, top_eq]
        rfl
      · rw [Signal.signalled, List.flatMap_append, List.flatMap_singleton, hs.sizes, top_eq]
        rfl
  · exact hs

theorem protocol_received {s t : Relay} {r : Round} (hs : s.Received)
    (h : protocol s r = some t) : t.Received := by
  rw [protocol] at h
  split at h
  · split at h
    · cases h
      exact hs
    · cases h
      exact ⟨hs.pty, hs.sizes⟩
    · rename_i fds _
      obtain ⟨hsame, hfibuf, hnetIn⟩ := readCntl_same r s (s.asked.inter fds)
      have hempty : (readCntl r s (s.asked.inter fds)).2.netIn = true →
          (readCntl r s (s.asked.inter fds)).1.fibuf = [] := by
        rw [hfibuf, hnetIn]
        exact fun hin => List.isEmpty_iff.mp (Bool.and_eq_true_iff.mp hin).1
      have hread := @readNet_received r _ _ hempty (hsame.received hs)
      have hback := fun out back =>
        (readPty_same r _ back).received ((writePty_same r _ out).received hread)
      dsimp only at h
      split at h
      · split at h
        · cases h
          exact (writeNet_same r _ _).received (hback _ _)
        · cases h
          exact hback _ _
      · cases h
        exact hread
  · cases h

theorem relay_received {rounds : List Round} {s : Relay}
    (h : run protocol .start rounds = some s) : s.Received :=
  run_invariant (fun _ _ _ hs hstep => protocol_received hs hstep) ⟨rfl, rfl⟩ h

/-! ## The data and the sizes -/

/-- The client has written the bytes and the window messages `items`, and all of it has been read:
the pty has been given the bytes in order, but for those that still wait in the buffer, and all the
sizes in order. -/
def Transparent (items : List (Item UInt8 Winsize)) (s : Relay) : Prop :=
  s.pty ++ s.fibuf = texts items ∧ s.sizes = messages items

/-- In every run that has read what the client wrote, it has been passed on as it should exactly
when no read has ended inside a window message. -/
theorem transparent_iff {items : List (Item UInt8 Winsize)}
    (hdata : ¬ window.marker <:+: texts items) {rounds : List Round} {s : Relay}
    (hrun : run protocol .start rounds = some s) (hread : s.reads.flatten = window.wires items) :
    Transparent items s ↔ window.Whole items s.reads := by
  obtain ⟨hpty, hsizes⟩ := relay_received hrun
  rw [Transparent, hpty, hsizes]
  exact Signal.received_iff_whole hread hdata

def size24x80 : Winsize := ⟨24, 80, 0, 0⟩

/-- A round in which the network has `b`, and the pty takes all it is given. -/
def arrival (b : List UInt8) (ne : b ≠ []) (le : b.length ≤ 1024) : Round where
  select := .ready ⟨true, false, false, true, false⟩
  cntl := none
  netRead := .bytes b ne le
  ptyWrite := 1024
  ptyRead := .wouldBlock
  netWrite := 0

def arrivedWhole : List Round :=
  [arrival (window.wires [.data 0x61, .message size24x80, .data 0x62]) (by decide) (by decide)]

theorem transparent_whole :
    ∃ s, run protocol .start arrivedWhole = some s ∧
      Transparent [.data 0x61, .message size24x80, .data 0x62] s := by
  have h : (run protocol .start arrivedWhole).map Relay.reads =
      some [window.wires [.data 0x61, .message size24x80, .data 0x62]] := by decide +kernel
  obtain ⟨s, hrun, hreads⟩ := Option.map_eq_some_iff.mp h
  refine ⟨s, hrun, (transparent_iff (by decide) hrun ?_).mpr ?_⟩
  · rw [hreads, List.flatten_singleton]
  · rw [hreads]
    exact ⟨[[.data 0x61, .message size24x80, .data 0x62]], rfl, rfl⟩

def arrivedInTwo : List Round :=
  [arrival ((sendwindow size24x80).take 4) (by decide) (by decide),
    arrival ((sendwindow size24x80).drop 4) (by decide) (by decide)]

/-- The message goes to the pty, and the size is not applied. -/
theorem not_transparent_cut :
    ¬ window.marker <:+: texts [.message size24x80] ∧ ∃ s,
      run protocol .start arrivedInTwo = some s ∧ s.reads.flatten = window.wires [.message size24x80] ∧
      s.pty = sendwindow size24x80 ∧ s.sizes = [] ∧ ¬ Transparent [.message size24x80] s := by
  have h : (run protocol .start arrivedInTwo).map (fun s => (s.reads.flatten, s.pty, s.sizes)) =
      some (window.wires [.message size24x80], sendwindow size24x80, []) := by decide +kernel
  obtain ⟨s, hrun, hs⟩ := Option.map_eq_some_iff.mp h
  obtain ⟨hreads, hrest⟩ := Prod.mk.inj hs
  obtain ⟨hpty, hsizes⟩ := Prod.mk.inj hrest
  refine ⟨by decide, s, hrun, hreads, hpty, hsizes, fun hall => ?_⟩
  exact absurd (hsizes.symm.trans hall.2) (List.cons_ne_nil _ _).symm

end Netkit.Rlogin

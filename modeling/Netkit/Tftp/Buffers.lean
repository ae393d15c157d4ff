import Netkit.Foundations.Pieces
import Mathlib.Data.UInt
import Mathlib.Algebra.Group.Nat.Even

/-!
# The two buffers of tftp and tftpd, and requests

`tftpsubs.c`, which the client and the server share. Two buffers are used in turn: a sender
reads the next block ahead while it waits for an acknowledgement, a receiver writes the last
block behind while it waits for the next one.

A transfer starts with a request that names a file and a mode. `makerequest` of `tftp.c` makes
it, and `main` and `tftp` of `tftpd.c` take it apart in a process of its own.
-/

namespace Netkit.Tftp

open Netkit.Foundations

def SEGSIZE : ℕ := 512
def PKTSIZE : ℕ := SEGSIZE + 4

def LF : UInt8 := 10
def CR : UInt8 := 13
def NUL : UInt8 := 0

/-- `struct tftphdr` with its data, in host byte order. -/
structure Packet where
  opcode : UInt16
  block : UInt16
  data : List UInt8
  deriving DecidableEq

/-- `struct bf`: the size of the data in the buffer, or a flag, and the packet in it. -/
structure Bf where
  counter : Int
  buf : Packet

def BF_ALLOC : Int := -3
def BF_FREE : Int := -2

/-- The static variables. The caller's `dp` is always the buffer `current`. `prevchar` is
`none` for `-1`. -/
structure Buffers where
  bfs : Bool → Bf
  nextone : Bool
  current : Bool
  newline : Bool
  prevchar : Option UInt8

namespace Buffers

/-- `bfs[i].counter = counter`. -/
def setCounter (s : Buffers) (i : Bool) (counter : Int) : Buffers :=
  { s with bfs := Function.update s.bfs i { s.bfs i with counter := counter } }

/-- `bfs[current].counter = counter; current = !current`. -/
def switch (s : Buffers) (counter : Int) : Buffers :=
  { s.setCounter s.current counter with current := !s.current }

/-- The packet at `dp`. -/
def dp (s : Buffers) : Packet := (s.bfs s.current).buf

/-- A change of the packet at `dp`. -/
def setDp (s : Buffers) (p : Packet) : Buffers :=
  { s with bfs := Function.update s.bfs s.current { s.bfs s.current with buf := p } }

/-- `rw_init`. What the buffers hold is left as it is. -/
def rwInit (x : Bool) (s : Buffers) : Buffers :=
  { ((s.setCounter false BF_ALLOC).setCounter true BF_FREE) with
    newline := false
    prevchar := none
    current := false
    nextone := x }

variable (s : Buffers) (counter : Int) (i : Bool) (p : Packet)

@[simp] theorem setCounter_current : (s.setCounter i counter).current = s.current := rfl
@[simp] theorem setCounter_nextone : (s.setCounter i counter).nextone = s.nextone := rfl
@[simp] theorem setCounter_prevchar : (s.setCounter i counter).prevchar = s.prevchar := rfl

@[simp] theorem setCounter_self :
    (s.setCounter i counter).bfs i = { s.bfs i with counter := counter } :=
  Function.update_self _ _ _

theorem setCounter_of_ne {j : Bool} (h : j ≠ i) : (s.setCounter i counter).bfs j = s.bfs j :=
  Function.update_of_ne h _ _

@[simp] theorem setDp_current : (s.setDp p).current = s.current := rfl
@[simp] theorem setDp_nextone : (s.setDp p).nextone = s.nextone := rfl
@[simp] theorem setDp_prevchar : (s.setDp p).prevchar = s.prevchar := rfl

@[simp] theorem setDp_self :
    (s.setDp p).bfs s.current = { s.bfs s.current with buf := p } :=
  Function.update_self _ _ _

@[simp] theorem setDp_other : (s.setDp p).bfs (!s.current) = s.bfs (!s.current) :=
  Function.update_of_ne (Bool.not_ne_self s.current) _ _

@[simp] theorem switch_current : (s.switch counter).current = !s.current := rfl
@[simp] theorem switch_nextone : (s.switch counter).nextone = s.nextone := rfl
@[simp] theorem switch_newline : (s.switch counter).newline = s.newline := rfl
@[simp] theorem switch_prevchar : (s.switch counter).prevchar = s.prevchar := rfl

@[simp] theorem switch_old :
    (s.switch counter).bfs s.current = { s.bfs s.current with counter := counter } :=
  Function.update_self _ _ _

@[simp] theorem switch_new : (s.switch counter).bfs (!s.current) = s.bfs (!s.current) :=
  Function.update_of_ne (Bool.not_ne_self s.current) _ _

end Buffers

/-! ## Reading ahead -/

structure Reading where
  newline : Bool
  prevchar : Option UInt8
  rest : List UInt8

/-- One turn of the loop of `read_ahead`: the character to store, unless the file ends. -/
def Reading.next (r : Reading) : Option (UInt8 × Reading) :=
  if r.newline then
    some (if r.prevchar = some LF then LF else NUL, { r with newline := false })
  else
    match r.rest with
    | [] => none
    | c :: rest =>
      if c = LF ∨ c = CR then some (CR, { newline := true, prevchar := some c, rest })
      else some (c, { r with rest })

/-- The loop, with room for `i` more characters. -/
def Reading.fill : ℕ → Reading → List UInt8 × Reading
  | 0, r => ([], r)
  | i + 1, r =>
    match r.next with
    | none => ([], r)
    | some (c, r') => (c :: (fill i r').1, (fill i r').2)

def readAhead (convert : Bool) (s : Buffers) (file : List UInt8) : Buffers × List UInt8 :=
  let b := s.bfs s.nextone
  if b.counter ≠ BF_FREE then (s, file)
  else if convert = false then
    let data := file.take SEGSIZE
    ({ s with
        nextone := !s.nextone
        bfs := Function.update s.bfs s.nextone
          { counter := data.length, buf := { b.buf with data } } }, file.drop SEGSIZE)
  else
    let (data, r) := Reading.fill SEGSIZE ⟨s.newline, s.prevchar, file⟩
    ({ s with
        nextone := !s.nextone
        newline := r.newline
        prevchar := r.prevchar
        bfs := Function.update s.bfs s.nextone
          { counter := data.length, buf := { b.buf with data } } }, r.rest)

/-- `readit`. What it returns is the counter of the buffer `current` afterwards. -/
def readit (convert : Bool) (s : Buffers) (file : List UInt8) : Buffers × List UInt8 :=
  let s := s.switch BF_FREE
  if (s.bfs s.current).counter = BF_FREE then readAhead convert s file else (s, file)

def Buffers.size (s : Buffers) : Int := (s.bfs s.current).counter

/-! ## Writing behind -/

/-- A file that is written, with the position in it. -/
structure OutFile where
  bytes : List UInt8 := []
  pos : ℕ := 0
  deriving DecidableEq

def OutFile.putc (c : UInt8) (f : OutFile) : OutFile :=
  { bytes := f.bytes.take f.pos ++ c :: f.bytes.drop (f.pos + 1), pos := f.pos + 1 }

/-- `fseek(file, -1, 1)`. -/
def OutFile.fseekBack (f : OutFile) : OutFile := { f with pos := f.pos - 1 }

def OutFile.write (data : List UInt8) (f : OutFile) : OutFile :=
  data.foldl (fun f c => f.putc c) f

structure Writing where
  prevchar : Option UInt8
  file : OutFile

/-- One turn of the loop of `write_behind`. -/
def Writing.next (w : Writing) (c : UInt8) : Writing :=
  { prevchar := some c
    file :=
      if w.prevchar = some CR then
        if c = LF then w.file.fseekBack.putc c
        else if c = NUL then w.file
        else w.file.putc c
      else w.file.putc c }

/-- `write_behind`. No caller looks at what it returns. -/
def writeBehind (convert : Bool) (s : Buffers) (file : OutFile) : Buffers × OutFile :=
  let b := s.bfs s.nextone
  if b.counter < -1 then (s, file)
  else
    let s := { s.setCounter s.nextone BF_FREE with nextone := !s.nextone }
    let data := b.buf.data.take b.counter.toNat
    if b.counter ≤ 0 then (s, file)
    else if convert = false then (s, file.write data)
    else
      let w := data.foldl Writing.next ⟨s.prevchar, file⟩
      ({ s with prevchar := w.prevchar }, w.file)

/-- `writeit`. It returns `ct`. -/
def writeit (convert : Bool) (ct : Int) (s : Buffers) (file : OutFile) : Buffers × OutFile :=
  let s := s.switch ct
  let (s, file) :=
    if (s.bfs s.current).counter ≠ BF_FREE then writeBehind convert s file else (s, file)
  (s.setCounter s.current BF_ALLOC, file)

def RRQ : UInt16 := 1
def WRQ : UInt16 := 2
def DATA : UInt16 := 3
def ACK : UInt16 := 4
def ERROR : UInt16 := 5

inductive Mode
  | netascii
  | octet
  deriving DecidableEq

def Mode.name : Mode → List UInt8
  | .netascii => [110, 101, 116, 97, 115, 99, 105, 105]
  | .octet => [111, 99, 116, 101, 116]

/-- `convert = !strcmp(mode, "netascii")`. -/
def Mode.convert (m : Mode) : Bool := m.name == Mode.netascii.name

/-- What a user asks for. A string has no NUL in it, and the request fits in a packet: a longer
one would be written past the end of its buffer. -/
structure Request where
  name : List UInt8
  mode : Mode
  noNul : ∀ c ∈ name, c ≠ NUL
  fits : 2 + name.length + 1 + mode.name.length + 1 ≤ PKTSIZE

/-- The bytes behind the opcode, `th_stuff`. -/
def makerequest (r : Request) : List UInt8 := r.name ++ [NUL] ++ r.mode.name ++ [NUL]

/-- What `makerequest` returns. -/
def Request.length (r : Request) : ℕ := 2 + (makerequest r).length

/-- The file `x`, in octet mode. -/
def requestX : Request := ⟨[120], .octet, by simp [NUL], by decide⟩

/-- What is sent: a request, or a packet of a transfer. -/
inductive Datagram
  | request (opcode : UInt16) (stuff : List UInt8)
  | packet (p : Packet)
  deriving DecidableEq

/-- `tolower`, for the letters that are `isupper`. -/
def tolower (c : UInt8) : UInt8 := if 65 ≤ c ∧ c ≤ 90 then c + 32 else c

/-- `formats`: the modes, with `f_convert`. -/
def formats : List (List UInt8 × Bool) :=
  [(Mode.netascii.name, true), (Mode.octet.name, false)]

/-- `tftp`, as far as `validate_access`: the file name and the format. -/
def tftp (stuff : List UInt8) : Option (List UInt8 × Bool) :=
  let filename := stuff.takeWhile (· ≠ NUL)
  let mode := (stuff.drop (filename.length + 1)).takeWhile (· ≠ NUL)
  (formats.find? (fun pf => pf.1 == mode.map tolower)).map (fun pf => (filename, pf.2))

theorem takeWhile_string {xs : List UInt8} (h : ∀ c ∈ xs, c ≠ NUL) (rest : List UInt8) :
    (xs ++ NUL :: rest).takeWhile (· ≠ NUL) = xs := by
  rw [List.takeWhile_append_of_pos (fun c hc => decide_eq_true (h c hc))]
  simp

theorem mode_noNul (m : Mode) : ∀ c ∈ m.name, c ≠ NUL := by
  cases m <;> simp [Mode.name, NUL]

theorem tftp_makerequest (r : Request) :
    tftp (makerequest r) = some (r.name, r.mode.convert) := by
  have hname : (makerequest r).takeWhile (· ≠ NUL) = r.name := by
    unfold makerequest
    rw [List.append_assoc, List.append_assoc, List.singleton_append]
    exact takeWhile_string r.noNul _
  have hdrop : (makerequest r).drop (r.name.length + 1) = r.mode.name ++ [NUL] := by
    unfold makerequest
    rw [List.append_assoc]
    exact List.drop_left' (by simp)
  unfold tftp
  simp only [hname, hdrop, takeWhile_string (mode_noNul r.mode)]
  cases r.mode <;> rfl

end Netkit.Tftp

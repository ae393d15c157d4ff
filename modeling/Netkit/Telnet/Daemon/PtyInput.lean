import Netkit.Telnet.Daemon.NetBuf
import Netkit.Telnet.Protocol

/-!
# telnetd reads from the pty

The loop of `telnet` in `telnetd.c` that copies what has been read from the pty into `netobuf`.
An `IAC` is doubled. Without the option `BINARY` a carriage return is followed by a NUL, or by
the newline that follows it anyway, if that has already been read.
-/

namespace Netkit.Telnet.Daemon

open Netkit.Foundations

/-- `*nfrontp++ = c`. -/
def NetBuf.put (c : UInt8) (b : NetBuf) : NetBuf :=
  { b with netobuf := b.netobuf.set b.nfrontp c, nfrontp := b.nfrontp + 1 }

/-- The body of the loop, for the byte `c` in front of the other bytes read. -/
def ptyByte (binary : Bool) (c : UInt8) (rest : List UInt8) (b : NetBuf) :
    List UInt8 × NetBuf :=
  let b := if c = IAC then b.put c else b
  let b := b.put c
  if c = 13 ∧ binary = false then
    match rest with
    | [] => ([], b.put 0)
    | d :: rest' => if d = 10 then (rest', b.put d) else (d :: rest', b.put 0)
  else (rest, b)

/-- The loop on the `pcc` bytes at `ptyip`: the bytes that are left, and the buffer. Every pass
takes a byte, so as many passes as there are bytes are enough. -/
def copyLoop (binary : Bool) : Nat → List UInt8 → NetBuf → List UInt8 × NetBuf
  | 0, input, b => (input, b)
  | _ + 1, [], b => ([], b)
  | fuel + 1, c :: rest, b =>
    if (BUFSIZ : Int) - b.nfrontp < 2 then (c :: rest, b)
    else
      let result := ptyByte binary c rest b
      copyLoop binary fuel result.1 result.2

def copyPty (binary : Bool) (input : List UInt8) (b : NetBuf) : List UInt8 × NetBuf :=
  copyLoop binary input.length input b

variable {binary : Bool} {appended : List UInt8} {b b' : NetBuf}

theorem put_good (h : b.Good appended) (hroom : b.nfrontp < netobufSize) (c : UInt8) :
    (b.put c).Good (appended ++ [c]) := by
  have hord := h.order
  refine ⟨by simpa [NetBuf.put] using h.size, ?_, ?_, fun urg hurg => ?_, ?_⟩
  · simp only [NetBuf.put]
    omega
  · simp only [NetBuf.put]
    omega
  · have hu := h.urgent urg hurg
    simp only [NetBuf.put]
    omega
  · simp only [NetBuf.put, NetBuf.pending]
    rw [slice_set_push c hord (by rw [h.size]; omega), ← List.append_assoc]
    exact congrArg (· ++ [c]) h.bytes

theorem put_two_good (h : b.Good appended) (hroom : ¬ (BUFSIZ : Int) - b.nfrontp < 2)
    (c d : UInt8) : ((b.put c).put d).Good (appended ++ [c, d]) := by
  have hsize : netobufSize = BUFSIZ + NETSLOP := rfl
  have hslop : NETSLOP = 64 := rfl
  have hput := put_good (put_good h (by omega) c)
    (show (b.put c).nfrontp < netobufSize by simp only [NetBuf.put]; omega) d
  rwa [List.append_assoc] at hput

/-- What the loop appends to the buffer is decoded to what it has copied, and it moves nothing
out of the buffer. -/
structure Copied (binary : Bool) (appended input : List UInt8) (b : NetBuf)
    (rest : List UInt8) (b' : NetBuf) (read word : List UInt8) : Prop where
  taken : input = read ++ rest
  decodes : Decodes (nvtStep [0] binary) .data word read
  good : b'.Good (appended ++ word)
  sent : b'.sent = b.sent

theorem Copied.refl {input : List UInt8} (h : b.Good appended) :
    Copied binary appended input b input b [] [] := by
  refine ⟨rfl, decodes_nil _, ?_, rfl⟩
  rwa [List.append_nil]

theorem Copied.trans {input middle rest read read' word word' : List UInt8} {b₁ : NetBuf}
    (h : Copied binary appended input b middle b₁ read word)
    (h' : Copied binary (appended ++ word) middle b₁ rest b' read' word') :
    Copied binary appended input b rest b' (read ++ read') (word ++ word') := by
  refine ⟨?_, h.decodes.append h'.decodes, ?_, h'.sent.trans h.sent⟩
  · rw [h.taken, h'.taken, List.append_assoc]
  · rw [← List.append_assoc]
    exact h'.good

theorem ptyByte_spec (binary : Bool) (c : UInt8) (rest : List UInt8) (h : b.Good appended)
    (hroom : ¬ (BUFSIZ : Int) - b.nfrontp < 2) :
    ∃ read word, Copied binary appended (c :: rest) b (ptyByte binary c rest b).1
      (ptyByte binary c rest b).2 read word := by
  have hsize : netobufSize = BUFSIZ + NETSLOP := rfl
  by_cases hcr : c = 13 ∧ binary = false
  · obtain ⟨rfl, rfl⟩ := hcr
    unfold ptyByte
    dsimp only
    rw [if_pos ⟨rfl, rfl⟩, if_neg (show ¬ (13 : UInt8) = IAC by decide)]
    cases rest with
    | nil =>
      exact ⟨[13], [13, 0], rfl, decodes_cr_dropped List.mem_cons_self,
        put_two_good h hroom 13 0, rfl⟩
    | cons d rest =>
      dsimp only
      by_cases hd : d = 10
      · rw [if_pos hd]
        subst hd
        exact ⟨[13, 10], [13, 10], rfl, decodes_cr_kept (by decide) (by decide) (by decide),
          put_two_good h hroom 13 10, rfl⟩
      · rw [if_neg hd]
        exact ⟨[13], [13, 0], rfl, decodes_cr_dropped List.mem_cons_self,
          put_two_good h hroom 13 0, rfl⟩
  · unfold ptyByte
    dsimp only
    rw [if_neg hcr]
    by_cases hi : c = IAC
    · rw [if_pos hi]
      subst hi
      exact ⟨[IAC], [IAC, IAC], rfl, decodes_iac, put_two_good h hroom IAC IAC, rfl⟩
    · rw [if_neg hi]
      exact ⟨[c], [c], rfl, decodes_self hi fun hbin hc => hcr ⟨hc, hbin⟩,
        put_good h (by omega) c, rfl⟩

theorem copyLoop_spec (binary : Bool) (fuel : Nat) (input : List UInt8) (h : b.Good appended) :
    ∃ read word, Copied binary appended input b (copyLoop binary fuel input b).1
      (copyLoop binary fuel input b).2 read word := by
  induction fuel generalizing input b appended with
  | zero => exact ⟨[], [], .refl h⟩
  | succ fuel ih =>
    cases input with
    | nil => exact ⟨[], [], .refl h⟩
    | cons c rest =>
      rw [copyLoop]
      split
      · exact ⟨[], [], .refl h⟩
      · rename_i hroom
        obtain ⟨read, word, hbyte⟩ := ptyByte_spec binary c rest h hroom
        obtain ⟨read', word', hloop⟩ := ih (ptyByte binary c rest b).1 hbyte.good
        exact ⟨read ++ read', word ++ word', hbyte.trans hloop⟩

/-- What has been copied from the pty can be decoded from what has been put into `netobuf`. -/
theorem copyPty_spec (binary : Bool) (input : List UInt8) (h : b.Good appended) :
    ∃ read word, Copied binary appended input b (copyPty binary input b).1
      (copyPty binary input b).2 read word :=
  copyLoop_spec binary input.length input h

theorem ptyByte_length (binary : Bool) (c : UInt8) (rest : List UInt8) (b : NetBuf) :
    (ptyByte binary c rest b).1.length ≤ rest.length := by
  unfold ptyByte
  dsimp only
  split
  · cases rest with
    | nil => exact Nat.le_refl 0
    | cons d rest =>
      dsimp only
      split
      · exact Nat.le_succ _
      · exact Nat.le_refl _
  · exact Nat.le_refl _

theorem copyLoop_stops {fuel : Nat} {input : List UInt8} (hfuel : input.length ≤ fuel) :
    (copyLoop binary fuel input b).1 = [] ∨
      (BUFSIZ : Int) - (copyLoop binary fuel input b).2.nfrontp < 2 := by
  induction fuel generalizing input b with
  | zero => exact Or.inl (List.length_eq_zero_iff.mp (Nat.le_zero.mp hfuel))
  | succ fuel ih =>
    cases input with
    | nil => exact Or.inl rfl
    | cons c rest =>
      rw [copyLoop]
      split
      · rename_i hfull
        exact Or.inr hfull
      · have hlen := ptyByte_length binary c rest b
        rw [List.length_cons] at hfuel
        exact ih (by omega)

theorem copyPty_stops {input : List UInt8} :
    (copyPty binary input b).1 = [] ∨ (BUFSIZ : Int) - (copyPty binary input b).2.nfrontp < 2 :=
  copyLoop_stops (Nat.le_refl _)

end Netkit.Telnet.Daemon

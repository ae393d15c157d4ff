import Mathlib.Data.List.Infix
import Netkit.Telnet.Protocol

/-!
# Files in TYPE A

The four loops that send and receive a file in TYPE A: `send_data` and `receive_data` of ftpd,
`sendrequest` and `recvrequest` of ftp. A sender puts CR before each LF and leaves every other
byte alone; a receiver looks one byte behind each CR.

* `ascii_round_trip`: a file without CR NUL comes through in both directions.
-/

namespace Netkit.Ftp

def NUL : UInt8 := 0
def LF : UInt8 := 10
def CR : UInt8 := 13

/-! ## ftpd -/

/-- The data stream and `byte_count`. -/
structure Sent where
  outstr : List UInt8
  byteCount : Nat
deriving DecidableEq

/-- `send_data` in TYPE A. -/
def sendData : List UInt8 → Sent → Sent
  | [], s => s
  | c :: instr, s =>
    sendData instr
      { outstr := s.outstr ++ if c = LF then [CR, c] else [c], byteCount := s.byteCount + 1 }

/-- The file, `byte_count` and the number of bare linefeeds. -/
structure Received where
  outstr : List UInt8
  byteCount : Nat
  bareLfs : Nat
deriving DecidableEq

def Received.putc (r : Received) (c : UInt8) : Received := { r with outstr := r.outstr ++ [c] }

/-- `receive_data` in TYPE A. The flag says that the inner loop has read a CR. -/
def receiveData : Bool → List UInt8 → Received → Received
  | false, [], r => r
  | false, c :: instr, r =>
    let r := { r with
      byteCount := r.byteCount + 1
      bareLfs := r.bareLfs + if c = LF then 1 else 0 }
    if c = CR then receiveData true instr r else receiveData false instr (r.putc c)
  | true, [], r => r.putc CR
  | true, c :: instr, r =>
    if c = LF then receiveData false instr (r.putc c)
    else if c = NUL then receiveData false instr (r.putc CR)
    else if c = CR then receiveData true instr (r.putc CR)
    else receiveData false instr ((r.putc CR).putc c)

/-! ## ftp -/

/-- The stream that is written, `bytes` and the number of bare linefeeds. -/
structure Transfer where
  out : List UInt8
  bytes : Nat
  bareLfs : Nat
deriving DecidableEq

def Transfer.putc (t : Transfer) (c : UInt8) : Transfer :=
  { t with out := t.out ++ [c], bytes := t.bytes + 1 }

/-- `sendrequest` in TYPE A. -/
def sendrequest : List UInt8 → Transfer → Transfer
  | [], t => t
  | c :: fin, t => sendrequest fin ((if c = LF then t.putc CR else t).putc c)

/-- `recvrequest` in TYPE A. A CR counts as it is read, so the one that is written does not
count again. -/
def recvrequest (tcrflag : Bool) : Bool → List UInt8 → Transfer → Transfer
  | false, [], t => t
  | false, c :: din, t =>
    let t := { t with bareLfs := t.bareLfs + if c = LF then 1 else 0 }
    if c = CR then recvrequest tcrflag true din { t with bytes := t.bytes + 1 }
    else recvrequest tcrflag false din (t.putc c)
  | true, [], t => { t with out := t.out ++ [CR] }
  | true, c :: din, t =>
    if c = LF ∧ tcrflag = false then recvrequest tcrflag false din (t.putc c)
    else
      let t := { t with out := t.out ++ [CR] }
      if c = NUL then recvrequest tcrflag false din { t with bytes := t.bytes + 1 }
      else if c = CR then recvrequest tcrflag true din { t with bytes := t.bytes + 1 }
      else recvrequest tcrflag false din (t.putc c)

/-- `tcrflag` of `recvrequest`: the CR stays where `crflag` is off. -/
def tcrflagOf (crflag isRetr : Bool) : Bool := !crflag && isRetr

/-! ## The bytes alone -/

def expand (file : List UInt8) : List UInt8 :=
  file.flatMap (fun c => if c = LF then [CR, LF] else [c])

def strip : Bool → List UInt8 → List UInt8
  | false, [] => []
  | false, c :: cs => if c = CR then strip true cs else c :: strip false cs
  | true, [] => [CR]
  | true, c :: cs =>
    if c = LF then LF :: strip false cs
    else if c = NUL then CR :: strip false cs
    else if c = CR then CR :: strip true cs
    else CR :: c :: strip false cs

theorem sendData_outstr (file : List UInt8) (s : Sent) :
    (sendData file s).outstr = s.outstr ++ expand file := by
  induction file generalizing s with
  | nil => exact (List.append_nil _).symm
  | cons c file ih =>
    have hone : (if c = LF then [CR, c] else [c]) = if c = LF then [CR, LF] else [c] := by
      split
      · next hc => rw [hc]
      · rfl
    rw [sendData, ih, hone, expand, expand, List.flatMap_cons, List.append_assoc]

theorem sendrequest_out (file : List UInt8) (t : Transfer) :
    (sendrequest file t).out = t.out ++ expand file := by
  induction file generalizing t with
  | nil => exact (List.append_nil _).symm
  | cons c file ih =>
    rw [sendrequest, ih, expand, expand, List.flatMap_cons]
    split
    · next hc =>
      rw [hc]
      simp [Transfer.putc]
    · simp [Transfer.putc]

theorem receiveData_outstr (cr : Bool) (stream : List UInt8) (r : Received) :
    (receiveData cr stream r).outstr = r.outstr ++ strip cr stream := by
  induction stream generalizing cr r with
  | nil => cases cr <;> simp [receiveData, strip, Received.putc]
  | cons c stream ih =>
    cases cr with
    | false =>
      rw [receiveData, strip]
      split
      · rw [ih]
      · rw [ih]
        simp [Received.putc]
    | true =>
      rw [receiveData, strip]
      split
      · next hc =>
        rw [ih, hc]
        simp [Received.putc]
      · split
        · rw [ih]
          simp [Received.putc]
        · split <;>
          · rw [ih]
            simp [Received.putc]

theorem recvrequest_out (cr : Bool) (stream : List UInt8) (t : Transfer) :
    (recvrequest false cr stream t).out = t.out ++ strip cr stream := by
  induction stream generalizing cr t with
  | nil => cases cr <;> simp [recvrequest, strip]
  | cons c stream ih =>
    cases cr with
    | false =>
      rw [recvrequest, strip]
      split
      · rw [ih]
      · rw [ih]
        simp [Transfer.putc]
    | true =>
      rw [recvrequest, strip]
      by_cases hlf : c = LF
      · rw [if_pos ⟨hlf, rfl⟩, if_pos hlf, ih, hlf]
        simp [Transfer.putc]
      · rw [if_neg (fun h => hlf h.1), if_neg hlf]
        split
        · rw [ih]
          simp
        · split <;>
          · rw [ih]
            simp [Transfer.putc]

/-! ## The round trip -/

def NoCrNul (file : List UInt8) : Prop := ¬ [CR, NUL] <:+: file

theorem NoCrNul.tail {c : UInt8} {file : List UInt8} (h : NoCrNul (c :: file)) : NoCrNul file :=
  fun hinfix => h (List.infix_cons hinfix)

theorem NoCrNul.ne {c : UInt8} {file : List UInt8} (h : NoCrNul (CR :: c :: file)) : c ≠ NUL := by
  rintro rfl
  exact h ⟨[], file, rfl⟩

theorem strip_expand {file : List UInt8} :
    (NoCrNul file → strip false (expand file) = file) ∧
      (NoCrNul (CR :: file) → strip true (expand file) = CR :: file) := by
  have hne : CR ≠ LF ∧ CR ≠ NUL ∧ LF ≠ NUL ∧ LF ≠ CR := by decide
  induction file with
  | nil => exact ⟨fun _ => rfl, fun _ => rfl⟩
  | cons c file ih =>
    have hexpand : expand (c :: file) = (if c = LF then [CR, LF] else [c]) ++ expand file :=
      List.flatMap_cons
    rw [hexpand]
    by_cases hlf : c = LF
    · rw [if_pos hlf, hlf]
      refine ⟨fun h => ?_, fun h => ?_⟩
      · simp [strip, ih.1 h.tail]
      · simp [strip, hne, ih.1 h.tail.tail]
    · rw [if_neg hlf]
      refine ⟨fun h => ?_, fun h => ?_⟩
      · by_cases hcr : c = CR
        · rw [hcr] at h ⊢
          simp [strip, ih.2 h]
        · simp [strip, hcr, ih.1 h.tail]
      · have hnul := h.ne
        by_cases hcr : c = CR
        · rw [hcr] at h ⊢
          simp [strip, hne, ih.2 h.tail]
        · simp [strip, hlf, hnul, hcr, ih.1 h.tail.tail]

/-- A file without CR NUL is the same after a transfer from ftpd to ftp, and from ftp to
ftpd. -/
theorem ascii_round_trip (file : List UInt8) (h : NoCrNul file) :
    (∀ isRetr, (recvrequest (tcrflagOf true isRetr) false (sendData file ⟨[], 0⟩).outstr
      ⟨[], 0, 0⟩).out = file) ∧
      (receiveData false (sendrequest file ⟨[], 0, 0⟩).out ⟨[], 0, 0⟩).outstr = file := by
  constructor
  · intro isRetr
    have hflag : tcrflagOf true isRetr = false := rfl
    rw [hflag, recvrequest_out, sendData_outstr, List.nil_append, List.nil_append]
    exact strip_expand.1 h
  · rw [receiveData_outstr, sendrequest_out, List.nil_append, List.nil_append]
    exact strip_expand.1 h

/-- CR CR LF CR: the CRs are kept, and LF is sent as CR LF. -/
theorem ascii_round_trip_crs :
    (∀ isRetr, (recvrequest (tcrflagOf true isRetr) false
      (sendData [CR, CR, LF, CR] ⟨[], 0⟩).outstr ⟨[], 0, 0⟩).out = [CR, CR, LF, CR]) ∧
      (receiveData false (sendrequest [CR, CR, LF, CR] ⟨[], 0, 0⟩).out
        ⟨[], 0, 0⟩).outstr = [CR, CR, LF, CR] := by
  refine ascii_round_trip _ ?_
  unfold NoCrNul
  rw [List.infix_iff_prefix_suffix]
  rintro ⟨t, hfront, hsuffix⟩
  have hmem : t ∈ [CR, CR, LF, CR].tails := (List.mem_tails _ _).mpr hsuffix
  revert hfront
  revert hmem
  simp only [List.tails, List.mem_cons, List.not_mem_nil, or_false]
  rintro (rfl | rfl | rfl | rfl | rfl) <;> decide

end Netkit.Ftp

import Netkit.Foundations.Runs
import Netkit.Telnet.Client.Ring

/-!
# A ring buffer is a queue

The client supplies a ring either by `write` and `putch` or by `read_source`, never by both,
and calls `ungetch` only to return the byte it has just got. Under this discipline the bytes
that leave a ring are the bytes that went in, each once and in order.

* `ring_fifo`: the same for whole runs from `init`.
-/

namespace Netkit.Telnet.Client

open Netkit.Foundations

/-! ## Runs of one ring -/

/-- How a ring is supplied. -/
inductive Supply where
  | writes
  | source
  deriving DecidableEq

structure Queue where
  ring : Ringbuf
  /-- The bytes that went in. -/
  accepted : List UInt8
  /-- The bytes that came out and were not taken back. -/
  delivered : List UInt8
  /-- The byte just obtained by `getch`, until a supply, an `ungetch` or a `flush`. -/
  last : Option UInt8

inductive RingOp where
  | getch
  | ungetch (ch : UInt8)
  | write (buffer : List UInt8)
  | putch (ch : UInt8)
  | readSource (answer : Option (List UInt8))
  | setMark
  | clearMark
  | flush (answers : List Int)

namespace Queue

/-- A ring right after `init`. -/
def start (mem : List UInt8) : Queue := ⟨.init mem, [], [], none⟩

/-- The first `size - count` bytes go in. -/
def supplied (bs : List UInt8) (q : Queue) : Queue :=
  { q with
    ring := q.ring.write bs
    accepted := q.accepted ++ bs.take (q.ring.size - q.ring.count).toNat
    last := none }

end Queue

/-- One call. A ring has one way of supply, a source reads at most as many bytes as there is
room for, and only the byte just obtained is returned. -/
def queueStep (supply : Supply) (q : Queue) : RingOp → Option Queue
  | .getch =>
    match q.ring.getch with
    | none => some q
    | some (_, c, r) =>
      some { q with ring := r, delivered := q.delivered ++ [c], last := some c }
  | .ungetch c =>
    if q.last = some c then
      some { q with
        ring := q.ring.ungetch c, delivered := q.delivered.dropLast, last := none }
    else none
  | .write bs => if supply = .writes then some (q.supplied bs) else none
  | .putch c => if supply = .writes then some (q.supplied [c]) else none
  | .readSource answer =>
    if supply = .source ∧ ((answer.getD []).length : Int) ≤ q.ring.room then
      some { q with
        ring := (q.ring.readSource answer).2
        accepted := q.accepted ++ answer.getD []
        last := none }
    else none
  | .setMark => some { q with ring := q.ring.setMark }
  | .clearMark => some { q with ring := q.ring.clearMark }
  | .flush answers =>
    match q.ring.flush answers with
    | none => none
    | some (_, bytes, r) =>
      some { q with ring := r, delivered := q.delivered ++ bytes, last := none }

/-! ## What every call keeps -/

/-- The byte `c` can be returned: it is the last one delivered, its cell is still there, and
returning it leaves the ring as full as it may be. -/
structure Queue.Returnable (supply : Supply) (q : Queue) (c : UInt8) : Prop where
  delivered : q.delivered = q.delivered.dropLast ++ [c]
  free : q.ring.count < q.ring.size
  slot : supply = .source → q.ring.count + 2 ≤ q.ring.size
  cell : ∀ d, q.ring.buf.getD (q.ring.ungetch d).tail default = c

structure Queue.Inv (supply : Supply) (q : Queue) : Prop where
  ring : q.ring.Inv
  bytes : q.accepted = q.delivered ++ q.ring.contents
  slot : supply = .source → q.ring.count + 1 ≤ q.ring.size
  last : ∀ c, q.last = some c → q.Returnable supply c

variable {supply : Supply} {q q' : Queue}

theorem start_inv {mem : List UInt8} (h : 0 < mem.length) :
    (Queue.start mem).Inv supply := by
  refine ⟨Ringbuf.init_inv h, rfl, fun _ => ?_, fun c hc => by cases hc⟩
  simp only [Queue.start, Ringbuf.init]
  omega

theorem inv_getch (h : q.Inv supply) (hs : queueStep supply q .getch = some q') :
    q'.Inv supply ∧ q'.ring.size = q.ring.size := by
  simp only [queueStep] at hs
  split at hs
  · cases hs
    exact ⟨h, rfl⟩
  · rename_i rv c r hg
    cases hs
    obtain ⟨hI, hc⟩ := Ringbuf.getch_spec h.ring hg
    obtain ⟨-, -, -, hsize, -, -, hcount, -⟩ := Ringbuf.getch_eq_some hg
    refine ⟨⟨hI, ?_, ?_, ?_⟩, hsize⟩
    · rw [h.bytes, hc, List.append_assoc, List.singleton_append]
    · intro hsrc
      have := h.slot hsrc
      simp only
      omega
    · intro d hd
      cases hd
      refine ⟨by simp, (Ringbuf.getch_ungetch (d := c) h.ring hg).1, fun hsrc => ?_,
        fun d => (Ringbuf.getch_ungetch h.ring hg).2⟩
      have := h.slot hsrc
      simp only
      omega

theorem inv_ungetch (h : q.Inv supply) {c : UInt8}
    (hs : queueStep supply q (.ungetch c) = some q') :
    q'.Inv supply ∧ q'.ring.size = q.ring.size := by
  simp only [queueStep] at hs
  split at hs
  · rename_i hlast
    cases hs
    have hr := h.last c hlast
    obtain ⟨hI, hc, hcount⟩ := Ringbuf.ungetch_spec h.ring hr.free (hr.cell c)
    refine ⟨⟨hI, ?_, ?_, fun d hd => by cases hd⟩, rfl⟩
    · rw [hc, h.bytes]
      conv_lhs => rw [hr.delivered]
      simp
    · intro hsrc
      have := hr.slot hsrc
      show q.ring.count + 1 + 1 ≤ (q.ring.size : Int)
      omega
  · cases hs

theorem inv_supplied (h : q.Inv .writes) (bs : List UInt8) :
    (q.supplied bs).Inv .writes ∧ (q.supplied bs).ring.size = q.ring.size := by
  obtain ⟨hI, hc, hsize⟩ := Ringbuf.write_spec h.ring bs
  refine ⟨⟨hI, ?_, ?_, ?_⟩, hsize⟩
  · simp only [Queue.supplied]
    rw [hc, h.bytes, List.append_assoc]
  · intro hsrc
    cases hsrc
  · intro c hc
    cases hc

theorem inv_readSource (h : q.Inv supply) {answer : Option (List UInt8)}
    (hs : queueStep supply q (.readSource answer) = some q') :
    q'.Inv supply ∧ q'.ring.size = q.ring.size := by
  simp only [queueStep] at hs
  split at hs
  · rename_i hsrc
    cases hs
    have hslot := h.slot hsrc.1
    cases answer with
    | none =>
      rw [Ringbuf.readSource_none]
      exact ⟨⟨h.ring, by simpa using h.bytes, h.slot, fun d hd => by cases hd⟩, rfl⟩
    | some bytes =>
      have hroom : (bytes.length : Int) ≤ q.ring.room := hsrc.2
      obtain ⟨hI, hc, hsize, hcount⟩ := Ringbuf.readSource_spec h.ring hslot hroom
      refine ⟨⟨hI, ?_, fun _ => ?_, fun d hd => by cases hd⟩, hsize⟩
      · rw [hc, h.bytes, Option.getD_some, List.append_assoc]
      · rw [hsize]
        exact hcount
  · cases hs

theorem inv_flush (h : q.Inv supply) {answers : List Int}
    (hs : queueStep supply q (.flush answers) = some q') :
    q'.Inv supply ∧ q'.ring.size = q.ring.size := by
  simp only [queueStep] at hs
  split at hs
  · cases hs
  · rename_i rv bytes r hf
    cases hs
    obtain ⟨hI, hsize, hc⟩ := Ringbuf.flush_spec h.ring hf
    refine ⟨⟨hI, ?_, ?_, fun d hd => by cases hd⟩, hsize⟩
    · rw [h.bytes, hc, List.append_assoc]
    · intro hsrc
      have h1 := h.slot hsrc
      have h2 := Ringbuf.contents_length h.ring
      have h3 := Ringbuf.contents_length hI
      rw [hc, List.length_append] at h2
      simp only
      omega

theorem Queue.Returnable.congr_mark {c : UInt8} {r : Ringbuf} (h : q.Returnable supply c)
    (hbuf : r.buf = q.ring.buf) (hsize : r.size = q.ring.size) (htail : r.tail = q.ring.tail)
    (hcount : r.count = q.ring.count) : { q with ring := r }.Returnable supply c := by
  refine ⟨h.delivered, ?_, fun hsrc => ?_, fun d => ?_⟩
  · simpa only [hcount, hsize] using h.free
  · simpa only [hcount, hsize] using h.slot hsrc
  · simpa only [Ringbuf.ungetch, hbuf, hsize, htail] using h.cell d

theorem inv_step (h : q.Inv supply) {op : RingOp} (hs : queueStep supply q op = some q') :
    q'.Inv supply ∧ q'.ring.size = q.ring.size := by
  cases op with
  | getch => exact inv_getch h hs
  | ungetch c => exact inv_ungetch h hs
  | write bs =>
    simp only [queueStep] at hs
    split at hs
    · rename_i hw
      subst hw
      cases hs
      exact inv_supplied h bs
    · cases hs
  | putch c =>
    simp only [queueStep] at hs
    split at hs
    · rename_i hw
      subst hw
      cases hs
      exact inv_supplied h [c]
    · cases hs
  | readSource answer => exact inv_readSource h hs
  | setMark =>
    cases hs
    exact ⟨⟨Ringbuf.setMark_inv h.ring, h.bytes, h.slot,
      fun c hc => (h.last c hc).congr_mark rfl rfl rfl rfl⟩, rfl⟩
  | clearMark =>
    cases hs
    exact ⟨⟨Ringbuf.clearMark_inv h.ring, h.bytes, h.slot,
      fun c hc => (h.last c hc).congr_mark rfl rfl rfl rfl⟩, rfl⟩
  | flush answers => exact inv_flush h hs

/-! ## Runs -/

theorem getch_byte {r : Ringbuf} (h : r.Inv) :
    r.getch.map (fun result => result.2.1) = r.contents.head? := by
  cases hg : r.getch with
  | none => rw [(Ringbuf.getch_none h).mp hg]; rfl
  | some result =>
    obtain ⟨rv, c, r'⟩ := result
    rw [(Ringbuf.getch_spec h hg).2]
    rfl

/-- From `init` on, whatever calls are made: `count` stays between 0 and `size`, `head` is
`count` places after `tail`, and the bytes delivered, followed by the `count` bytes still in
the ring, are the bytes accepted. A ring with a source keeps one place free. The next byte
that `getch` returns is the oldest one in the ring. -/
theorem ring_fifo {mem : List UInt8} (hmem : 0 < mem.length) {ops : List RingOp}
    (hrun : run (queueStep supply) (Queue.start mem) ops = some q) :
    q.ring.size = mem.length ∧ 0 ≤ q.ring.count ∧ q.ring.count ≤ q.ring.size ∧
      (q.ring.head : Int) = (q.ring.tail + q.ring.count) % q.ring.size ∧
      q.accepted = q.delivered ++ q.ring.contents ∧
      (q.ring.contents.length : Int) = q.ring.count ∧
      (supply = .source → q.ring.count + 1 ≤ q.ring.size) ∧
      q.ring.getch.map (fun result => result.2.1) = q.ring.contents.head? := by
  have hI : q.Inv supply ∧ q.ring.size = mem.length := by
    refine run_invariant (I := fun q => q.Inv supply ∧ q.ring.size = mem.length) ?_
      ⟨start_inv hmem, rfl⟩ hrun
    rintro s op t ⟨hs, hsize⟩ hstep
    obtain ⟨ht, hsize'⟩ := inv_step hs hstep
    exact ⟨ht, hsize'.trans hsize⟩
  obtain ⟨h, hsize⟩ := hI
  exact ⟨hsize, h.ring.nonneg, h.ring.le, h.ring.head_eq_mod, h.bytes,
    Ringbuf.contents_length h.ring, h.slot, getch_byte h.ring⟩

/-- A ring of two cells: one byte fits, `ungetch` moves `tail` back through the end. -/
theorem ring_fifo_two :
    ∃ q, run (queueStep .source) (Queue.start [0, 0])
        [.readSource (some [7]), .getch, .readSource (some [8]), .getch, .ungetch 8] = some q ∧
      q.accepted = [7, 8] ∧ q.accepted = q.delivered ++ q.ring.contents ∧
      q.ring.count + 1 ≤ q.ring.size := by
  have hrun : ∃ q, run (queueStep .source) (Queue.start [0, 0])
      [.readSource (some [7]), .getch, .readSource (some [8]), .getch, .ungetch 8] = some q ∧
      q.accepted = [7, 8] := ⟨_, rfl, rfl⟩
  obtain ⟨q, hrun, haccepted⟩ := hrun
  have h := ring_fifo (by decide) hrun
  exact ⟨q, hrun, haccepted, h.2.2.2.2.1, h.2.2.2.2.2.2.1 rfl⟩

end Netkit.Telnet.Client

import Netkit.Foundations.Queues
import Netkit.Foundations.Memory
import Netkit.Telnet.Protocol

/-!
# The client's ring buffers

`ringbuf` of `ring.cc`: the four buffers between the terminal and the network. A ring is
supplied by `write` and `putch`, or by its source through `read_source`; it is consumed by
`getch`, which `ungetch` takes back, or by its sink through `flush`.
-/

namespace Netkit.Telnet.Client

open Netkit.Foundations

structure Ringbuf where
  buf : List UInt8
  /-- Total size of the buffer. -/
  size : Nat
  /-- The next input character goes here. -/
  head : Nat
  /-- The next output character comes from here. -/
  tail : Nat
  /-- Characters presently stored. -/
  count : Int
  /-- The index of the marked character, or -1. -/
  marked : Int
  deriving DecidableEq

namespace Ringbuf

/-! ## The operations -/

/-- `init` on freshly allocated memory, whatever that holds. -/
def init (mem : List UInt8) : Ringbuf := ⟨mem, mem.length, 0, 0, 0, -1⟩

def fullCount (r : Ringbuf) : Int := r.count

def emptyCount (r : Ringbuf) : Int := r.size - r.count

/-- `none` is the return value 0. Otherwise 2 for the marked character and 1 for any other,
and the character. -/
def getch (r : Ringbuf) : Option (Nat × UInt8 × Ringbuf) :=
  if 0 < r.count then
    let r' := { r with tail := wrap r.size (r.tail + 1), count := r.count - 1 }
    if r.tail = r.marked then some (2, r.buf.getD r.tail default, { r' with marked := -1 })
    else some (1, r.buf.getD r.tail default, r')
  else none

/-- `gets`, with room for `n` more characters: the byte that `getch` returns when there is no
room left is lost. -/
def gets : Nat → Ringbuf → List UInt8 × Ringbuf
  | n, r =>
    match r.getch with
    | none => ([], r)
    | some (_, c, r') =>
      match n with
      | 0 => ([], r')
      | n + 1 => (c :: (gets n r').1, (gets n r').2)

/-- The comparison with the byte in the buffer makes no difference: both branches move
`tail` back. -/
def ungetch (_ch : UInt8) (r : Ringbuf) : Ringbuf :=
  let x : Int := (r.tail : Int) - 1
  let x := if x < 0 then x + r.size else x
  { r with tail := x.toNat, count := r.count + 1 }

/-- The body of the loop of `write`. -/
def put (r : Ringbuf) (c : UInt8) : Ringbuf :=
  { r with
    buf := r.buf.set r.head c
    head := wrap r.size (r.head + 1)
    count := r.count + 1 }

def write (buffer : List UInt8) (r : Ringbuf) : Ringbuf :=
  (buffer.take (r.size - r.count).toNat).foldl put r

def putch (c : UInt8) (r : Ringbuf) : Ringbuf := r.write [c]

/-- `top - bot` of `read_source`: the room up to the byte before `tail`, which is left for an
`ungetch`, or up to the end of the buffer. -/
def room (r : Ringbuf) : Int :=
  let bot : Int := r.head
  let top : Int := (r.tail : Int) - 1
  let top := if top < 0 then top + r.size else top
  let top := if top < bot then (r.size : Int) else top
  top - bot

/-- `read_source`: the source answers with the bytes it has read into `buf + bot`, at most
`top - bot` of them, or with `none`, an error. The result is the return value and the ring. -/
def readSource (answer : Option (List UInt8)) (r : Ringbuf) : Int × Ringbuf :=
  if r.room = 0 then (0, r)
  else
    match answer with
    | none => (-1, r)
    | some bytes =>
      (if bytes.length = 0 then -1 else bytes.length,
        { r with
          buf := store r.buf r.head bytes
          head := wrap r.size (r.head + bytes.length)
          count := r.count + bytes.length })

def setMark (r : Ringbuf) : Ringbuf := { r with marked := r.head }

def clearMark (r : Ringbuf) : Ringbuf := { r with marked := -1 }

/-- `top` of `flush`: the end of the run that is offered to the sink, which starts at `tail`. -/
def flushTop (r : Ringbuf) : Int :=
  let top : Int := if r.head < r.tail then r.size else r.head
  if r.marked > r.tail then r.marked else top

/-- The ring after the sink has taken `n` bytes from `tail` on. -/
def took (n : Nat) (r : Ringbuf) : Ringbuf :=
  { r with
    marked := if r.marked = r.tail then -1 else r.marked
    tail := wrap r.size (r.tail + n)
    count := r.count - n }

/-- The loop of `flush`, with the answers of the sink to the successive calls of `write` or
`writeurg`: a number of bytes, at most as many as it was offered, 0 if it would block and
negative on an error. After the last answer the sink would block. `none` is a failed
assertion; otherwise the return value, the bytes the sink has taken and the ring. -/
def flushLoop (r : Ringbuf) : List Int → Option (Int × List UInt8 × Ringbuf)
  | [] =>
    if 0 < r.count then
      let len := r.flushTop - r.tail
      if ¬ (len > 0 ∧ len ≤ r.count) then none else some (-1, [], r)
    else some (1, [], r)
  | answer :: answers =>
    if 0 < r.count then
      let len := r.flushTop - r.tail
      if ¬ (len > 0 ∧ len ≤ r.count) then none
      else if answer < 0 then some (-2, [], r)
      else if answer = 0 then some (-1, [], r)
      else
        let n := (min answer len).toNat
        let bytes := slice r.buf r.tail (r.tail + n)
        let r' := r.took n
        if ((r'.size : Int) + r'.head - r'.tail) % r'.size ≠ r'.count then none
        else if (n : Int) < len then some (n + 1, bytes, r')
        else
          match flushLoop r' answers with
          | none => none
          | some (rv, rest, r'') => some (rv, bytes ++ rest, r'')
    else some (1, [], r)

/-- `busy` guards against a recursive call only. -/
def flush (answers : List Int) (r : Ringbuf) : Option (Int × List UInt8 × Ringbuf) :=
  if r.count < 0 then none
  else if r.count = 0 then some (0, [], r)
  else if ((r.head : Int) - r.tail - r.count) % r.size ≠ 0 then none
  else r.flushLoop answers

/-! ## Invariant and contents -/

structure Inv (r : Ringbuf) : Prop where
  size : r.buf.length = r.size
  tail : r.tail < r.size
  nonneg : 0 ≤ r.count
  le : r.count ≤ r.size
  head : r.head = wrap r.size (r.tail + r.count.toNat)
  marked : r.marked < r.size

def contents (r : Ringbuf) : List UInt8 := window r.buf r.tail r.count.toNat

theorem contents_length {r : Ringbuf} (h : r.Inv) : (r.contents.length : Int) = r.count := by
  rw [contents, length_window]
  exact Int.toNat_of_nonneg h.nonneg

theorem Inv.head_lt {r : Ringbuf} (h : r.Inv) : r.head < r.size := by
  have ht := h.tail
  have hle := h.le
  rw [h.head]
  exact wrap_lt (by omega)

/-- `head = (tail + count) mod size`. -/
theorem Inv.head_eq_mod {r : Ringbuf} (h : r.Inv) :
    (r.head : Int) = (r.tail + r.count) % r.size := by
  have ht := h.tail
  have hle := h.le
  have hn := h.nonneg
  rw [h.head, wrap_eq_mod (by omega)]
  have hc : r.count = (r.count.toNat : Int) := (Int.toNat_of_nonneg hn).symm
  rw [hc]
  norm_cast

theorem init_inv {mem : List UInt8} (h : 0 < mem.length) : (init mem).Inv := by
  refine ⟨rfl, h, Int.le_refl _, Int.natCast_nonneg _, ?_, ?_⟩
  · simp [init, wrap, h]
  · simp only [init]
    omega

theorem setMark_inv {r : Ringbuf} (h : r.Inv) : r.setMark.Inv :=
  ⟨h.size, h.tail, h.nonneg, h.le, h.head, Int.ofNat_lt.mpr h.head_lt⟩

theorem clearMark_inv {r : Ringbuf} (h : r.Inv) : r.clearMark.Inv := by
  refine ⟨h.size, h.tail, h.nonneg, h.le, h.head, ?_⟩
  simp only [clearMark]
  omega

/-! ## Supply -/

theorem put_inv {r : Ringbuf} (h : r.Inv) (hroom : r.count < r.size) (c : UInt8) :
    (r.put c).Inv := by
  have ht := h.tail
  have hn := h.nonneg
  refine ⟨?_, h.tail, ?_, ?_, ?_, h.marked⟩
  · simpa [put] using h.size
  · simp only [put]
    omega
  · simp only [put]
    omega
  · simp only [put]
    rw [h.head, wrap_wrap_add (by omega)]
    congr 1
    omega

theorem put_contents {r : Ringbuf} (h : r.Inv) (hroom : r.count < r.size) (c : UInt8) :
    (r.put c).contents = r.contents ++ [c] := by
  have hn := h.nonneg
  have ht := h.tail
  have hsize := h.size
  have hcount : (r.count + 1).toNat = r.count.toNat + 1 := by omega
  simp only [contents, put, hcount, h.head, ← h.size]
  exact window_push c (by omega) (by omega)

theorem foldl_put {r : Ringbuf} (h : r.Inv) {bs : List UInt8}
    (hroom : r.count + bs.length ≤ r.size) :
    (bs.foldl put r).Inv ∧ (bs.foldl put r).contents = r.contents ++ bs ∧
      (bs.foldl put r).size = r.size ∧ (bs.foldl put r).count = r.count + bs.length := by
  induction bs generalizing r with
  | nil => simpa using h
  | cons b bs ih =>
    rw [List.length_cons] at hroom
    have hlt : r.count < r.size := by omega
    have hput : (r.put b).count + bs.length ≤ (r.put b).size := by
      simp only [put]
      omega
    obtain ⟨hI, hc, hs, hn⟩ := ih (put_inv h hlt b) hput
    refine ⟨hI, ?_, hs, ?_⟩
    · rw [List.foldl_cons, hc, put_contents h hlt, List.append_assoc, List.singleton_append]
    · rw [List.foldl_cons, hn, List.length_cons]
      simp only [put]
      omega

theorem write_spec {r : Ringbuf} (h : r.Inv) (bs : List UInt8) :
    (r.write bs).Inv ∧
      (r.write bs).contents = r.contents ++ bs.take (r.size - r.count).toNat ∧
      (r.write bs).size = r.size := by
  have hle := h.le
  have hroom : r.count + (bs.take (r.size - r.count).toNat).length ≤ r.size := by
    rw [List.length_take]
    omega
  obtain ⟨hI, hc, hs, -⟩ := foldl_put h hroom
  exact ⟨hI, hc, hs⟩

/-- The room that `read_source` fills does not run past the end of the buffer, and leaves one
place free, if there is one. -/
theorem room_le {r : Ringbuf} (h : r.Inv) (hslot : r.count + 1 ≤ r.size) :
    r.head + r.room ≤ r.size ∧ r.count + r.room + 1 ≤ r.size := by
  have hh := h.head
  have ht := h.tail
  have hn := h.nonneg
  simp only [wrap] at hh
  simp only [room]
  split_ifs at hh ⊢ <;> omega

theorem store_eq_foldl_put {r : Ringbuf} {bs : List UInt8} (hlen : r.buf.length = r.size)
    (hhead : r.head < r.size) (h : r.head + bs.length ≤ r.size) :
    { r with
      buf := store r.buf r.head bs
      head := wrap r.size (r.head + bs.length)
      count := r.count + bs.length } = bs.foldl put r := by
  induction bs generalizing r with
  | nil => simp [wrap, hhead]
  | cons b bs ih =>
    cases bs with
    | nil => simp [put, store_cons (show r.head + [b].length ≤ r.buf.length by rw [hlen]; exact h)]
    | cons c bs =>
      have hb : r.head + (b :: c :: bs).length ≤ r.buf.length := by rw [hlen]; exact h
      simp only [List.length_cons] at h
      have hw : wrap r.size (r.head + 1) = r.head + 1 := if_pos (by omega)
      have hput := ih (r := r.put b) (by simpa [put] using hlen)
        (by simp only [put, hw]; omega) (by simp only [put, hw, List.length_cons]; omega)
      rw [List.foldl_cons, ← hput, store_cons hb]
      simp only [put, hw, List.length_cons, Nat.cast_add, Nat.cast_one]
      congr 1
      · congr 1
        omega
      · omega

/-- `read_source` appends what the source has read, overwrites no unread byte and leaves one
place for an `ungetch`. -/
theorem readSource_spec {r : Ringbuf} (h : r.Inv) (hslot : r.count + 1 ≤ r.size)
    {bytes : List UInt8} (hbytes : (bytes.length : Int) ≤ r.room) :
    (r.readSource (some bytes)).2.Inv ∧
      (r.readSource (some bytes)).2.contents = r.contents ++ bytes ∧
      (r.readSource (some bytes)).2.size = r.size ∧
      (r.readSource (some bytes)).2.count + 1 ≤ r.size := by
  obtain ⟨hend, hfree⟩ := room_le h hslot
  unfold readSource
  by_cases hr : r.room = 0
  · have hnil : bytes = [] := List.length_eq_zero_iff.mp (by omega)
    simpa [hr, hnil] using And.intro h hslot
  · rw [if_neg hr]
    dsimp only
    rw [store_eq_foldl_put h.size h.head_lt (by omega)]
    have hfit : r.count + bytes.length ≤ r.size := by omega
    obtain ⟨hI, hc, -, -⟩ := foldl_put h hfit
    exact ⟨hI, hc, rfl, by omega⟩

theorem readSource_none (r : Ringbuf) : (r.readSource none).2 = r := by
  unfold readSource
  split <;> rfl

/-! ## Consumption -/

theorem getch_none {r : Ringbuf} (h : r.Inv) : r.getch = none ↔ r.contents = [] := by
  have hn := h.nonneg
  have hc := contents_length h
  rw [← List.length_eq_zero_iff]
  unfold getch
  split
  · constructor
    · intro he
      dsimp only at he
      split at he <;> cases he
    · omega
  · constructor
    · omega
    · intro _
      rfl

theorem getch_eq_some {r r' : Ringbuf} {rv : Nat} {c : UInt8}
    (hg : r.getch = some (rv, c, r')) :
    0 < r.count ∧ c = r.buf.getD r.tail default ∧ r'.buf = r.buf ∧ r'.size = r.size ∧
      r'.head = r.head ∧ r'.tail = wrap r.size (r.tail + 1) ∧ r'.count = r.count - 1 ∧
      (r'.marked = r.marked ∨ r'.marked = -1) := by
  unfold getch at hg
  split at hg
  · rename_i hpos
    dsimp only at hg
    split at hg
    · cases hg; exact ⟨hpos, rfl, rfl, rfl, rfl, rfl, rfl, Or.inr rfl⟩
    · cases hg; exact ⟨hpos, rfl, rfl, rfl, rfl, rfl, rfl, Or.inl rfl⟩
  · cases hg

theorem getch_spec {r r' : Ringbuf} {rv : Nat} {c : UInt8} (h : r.Inv)
    (hg : r.getch = some (rv, c, r')) : r'.Inv ∧ r.contents = c :: r'.contents := by
  obtain ⟨hpos, hc, hbuf, hsize, hhead, htail, hcount, hmark⟩ := getch_eq_some hg
  have ht := h.tail
  have hle := h.le
  have hlen := h.size
  obtain ⟨n, hn⟩ : ∃ n : Nat, r.count = (n : Int) + 1 := ⟨(r.count - 1).toNat, by omega⟩
  have hn1 : r.count.toNat = n + 1 := by omega
  have hn0 : r'.count.toNat = n := by omega
  refine ⟨⟨?_, ?_, ?_, ?_, ?_, ?_⟩, ?_⟩
  · rw [hbuf, hsize]
    exact h.size
  · rw [htail, hsize]
    exact wrap_lt (by omega)
  · omega
  · omega
  · rw [hhead, h.head, hn1, hn0, htail, hsize, wrap_wrap_add (by omega)]
    congr 1
    omega
  · have hm := h.marked
    rcases hmark with hmark | hmark <;> omega
  · rw [contents, contents, hn1, hn0, htail, hbuf, hc, window_pop (by omega) (by omega), hlen]

/-- Taking back the byte before `tail`, where a free place is left. -/
theorem ungetch_spec {r : Ringbuf} (h : r.Inv) (hfree : r.count < r.size) {c d : UInt8}
    (hc : r.buf.getD (r.ungetch d).tail default = c) :
    (r.ungetch d).Inv ∧ (r.ungetch d).contents = c :: r.contents ∧
      (r.ungetch d).count = r.count + 1 := by
  have ht := h.tail
  have hn := h.nonneg
  have hlen := h.size
  have htail : (r.ungetch d).tail < r.size ∧ wrap r.size ((r.ungetch d).tail + 1) = r.tail := by
    simp only [ungetch, wrap]
    split_ifs <;> omega
  have hcount : (r.count + 1).toNat = r.count.toNat + 1 := by omega
  refine ⟨⟨h.size, htail.1, ?_, ?_, ?_, h.marked⟩, ?_, rfl⟩
  · simp only [ungetch]
    omega
  · simp only [ungetch]
    omega
  · show r.head = wrap r.size ((r.ungetch d).tail + (r.count + 1).toNat)
    rw [h.head, ← htail.2, wrap_wrap_add (by omega), hcount]
    congr 1
    omega
  · show window r.buf (r.ungetch d).tail (r.count + 1).toNat = _
    rw [hcount, window_pop (by omega) (by omega), hlen, htail.2, hc]
    rfl

theorem getch_ungetch {r r' : Ringbuf} {rv : Nat} {c d : UInt8} (h : r.Inv)
    (hg : r.getch = some (rv, c, r')) :
    r'.count < r'.size ∧ r'.buf.getD (r'.ungetch d).tail default = c := by
  obtain ⟨hpos, hc, hbuf, hsize, hhead, htail, hcount, hmark⟩ := getch_eq_some hg
  have ht := h.tail
  have hle := h.le
  have hback : (r'.ungetch d).tail = r.tail := by
    simp only [ungetch, htail, hsize, wrap]
    split_ifs <;> omega
  refine ⟨by omega, ?_⟩
  rw [hback, hbuf, hc]

theorem took_spec {r : Ringbuf} (h : r.Inv) {n : Nat} (hn : (n : Int) ≤ r.count)
    (hend : r.tail + n ≤ r.size) :
    (r.took n).Inv ∧ r.contents = slice r.buf r.tail (r.tail + n) ++ (r.took n).contents := by
  have ht := h.tail
  have hle := h.le
  have hlen := h.size
  obtain ⟨m, hm⟩ : ∃ m : Nat, r.count.toNat = n + m := ⟨r.count.toNat - n, by omega⟩
  have hm' : (r.count - n).toNat = m := by omega
  refine ⟨⟨h.size, wrap_lt (i := r.tail + n) (by omega), ?_, ?_, ?_, ?_⟩, ?_⟩
  · simp only [took]
    omega
  · simp only [took]
    omega
  · simp only [took, hm']
    rw [h.head, hm, wrap_wrap_add (by omega)]
    congr 1
    omega
  · have hmk := h.marked
    simp only [took]
    split <;> omega
  · simp only [contents, took, hm, hm']
    rw [window_add (by omega) (by omega), hlen, window_eq_slice (by omega), slice_add]

theorem flushLoop_spec {r r' : Ringbuf} {rv : Int} {bytes : List UInt8} {answers : List Int}
    (h : r.Inv) (hf : r.flushLoop answers = some (rv, bytes, r')) :
    r'.Inv ∧ r'.size = r.size ∧ r.contents = bytes ++ r'.contents := by
  induction answers generalizing r bytes with
  | nil =>
    rw [flushLoop] at hf
    dsimp only at hf
    split at hf
    · split at hf
      · cases hf
      · cases hf
        exact ⟨h, rfl, rfl⟩
    · cases hf
      exact ⟨h, rfl, rfl⟩
  | cons answer answers ih =>
    rw [flushLoop] at hf
    dsimp only at hf
    split at hf
    · split at hf
      · cases hf
      · rename_i hassert
        rw [not_not] at hassert
        obtain ⟨hlen0, hlen⟩ := hassert
        split at hf
        · cases hf; exact ⟨h, rfl, rfl⟩
        · split at hf
          · cases hf; exact ⟨h, rfl, rfl⟩
          · have htop : r.flushTop ≤ r.size := by
              have hh := h.head_lt
              have hm := h.marked
              simp only [flushTop]
              split_ifs <;> omega
            have hn : ((min answer (r.flushTop - r.tail)).toNat : Int) ≤ r.flushTop - r.tail := by
              omega
            obtain ⟨hI, hc⟩ := took_spec h (n := (min answer (r.flushTop - r.tail)).toNat)
              (by omega) (by omega)
            split at hf
            · cases hf
            · split at hf
              · cases hf
                exact ⟨hI, rfl, hc⟩
              · split at hf
                · cases hf
                · rename_i rv' rest r'' hrest
                  cases hf
                  obtain ⟨hI', hs', hc'⟩ := ih hI hrest
                  refine ⟨hI', hs', ?_⟩
                  rw [hc, hc', List.append_assoc]
    · cases hf; exact ⟨h, rfl, rfl⟩

/-- `flush` hands over the oldest bytes, in order, and keeps the rest. -/
theorem flush_spec {r r' : Ringbuf} {rv : Int} {bytes : List UInt8} {answers : List Int}
    (h : r.Inv) (hf : r.flush answers = some (rv, bytes, r')) :
    r'.Inv ∧ r'.size = r.size ∧ r.contents = bytes ++ r'.contents := by
  unfold flush at hf
  split at hf
  · cases hf
  · split at hf
    · cases hf; exact ⟨h, rfl, rfl⟩
    · split at hf
      · cases hf
      · exact flushLoop_spec h hf

end Ringbuf

end Netkit.Telnet.Client

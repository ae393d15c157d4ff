import Netkit.Tftp.Buffers

/-!
# Files in netascii

What the two buffers do to a file. Reading ahead cuts the netascii form of the file into
blocks, and writing behind turns blocks back into the file, whatever the blocks cut apart and
whenever the buffers are filled and flushed.

* `netascii_round_trip`: a file that is read and written is the file.
-/

namespace Netkit.Tftp

open Netkit.Foundations

def expand (c : UInt8) : List UInt8 :=
  if c = LF then [CR, LF] else if c = CR then [CR, NUL] else [c]

def netascii (file : List UInt8) : List UInt8 := file.flatMap expand

def encoded (convert : Bool) (file : List UInt8) : List UInt8 :=
  if convert then netascii file else file

/-! ## The reader -/

def Reading.stream (r : Reading) : List UInt8 :=
  (if r.newline then [if r.prevchar = some LF then LF else NUL] else []) ++ netascii r.rest

theorem next_stream (r : Reading) :
    match r.next with
    | none => r.stream = []
    | some (c, r') => r.stream = c :: r'.stream := by
  obtain ⟨newline, prevchar, rest⟩ := r
  cases newline with
  | true => simp [Reading.next, Reading.stream]
  | false =>
    cases rest with
    | nil => simp [Reading.next, Reading.stream, netascii]
    | cons c rest =>
      by_cases hlf : c = LF
      · simp [Reading.next, Reading.stream, netascii, expand, hlf]
      · by_cases hcr : c = CR
        · have hne : CR ≠ LF := by decide
          simp [Reading.next, Reading.stream, netascii, expand, hcr, hne]
        · simp [Reading.next, Reading.stream, netascii, expand, hlf, hcr]

theorem fill_spec (i : ℕ) (r : Reading) :
    (Reading.fill i r).1 = r.stream.take i ∧ (Reading.fill i r).2.stream = r.stream.drop i := by
  induction i generalizing r with
  | zero => exact ⟨rfl, rfl⟩
  | succ i ih =>
    have hnext := next_stream r
    unfold Reading.fill
    cases h : r.next with
    | none =>
      rw [h] at hnext
      simp only at hnext ⊢
      rw [hnext]
      exact ⟨rfl, rfl⟩
    | some step =>
      obtain ⟨c, r'⟩ := step
      rw [h] at hnext
      simp only at hnext ⊢
      rw [hnext]
      exact ⟨congrArg (c :: ·) (ih r').1, (ih r').2⟩

def Buffers.unread (convert : Bool) (s : Buffers) (file : List UInt8) : List UInt8 :=
  if convert then Reading.stream ⟨s.newline, s.prevchar, file⟩ else file

/-- The buffer holds `data`. -/
def Bf.Holds (b : Bf) (data : List UInt8) : Prop := b.counter = data.length ∧ b.buf.data = data

theorem Bf.Holds.not_free {b : Bf} {data : List UInt8} (h : b.Holds data) :
    b.counter ≠ BF_FREE := by
  rw [h.1]
  unfold BF_FREE
  omega

/-- Blocks up to number `r` have been asked for. The buffer that is not in use is free, or the
block after them is in it. -/
structure Reader (convert : Bool) (src : List UInt8) (r : ℕ) (s : Buffers)
    (file : List UInt8) : Prop where
  busy : (s.bfs s.current).counter ≠ BF_FREE
  held : ∀ i, r = i + 1 → (s.bfs s.current).Holds (block SEGSIZE src i)
  next : (s.nextone = !s.current ∧ (s.bfs (!s.current)).counter = BF_FREE ∧
      s.unread convert file = src.drop (SEGSIZE * r)) ∨
    (s.nextone = s.current ∧ (s.bfs (!s.current)).Holds (block SEGSIZE src r) ∧
      s.unread convert file = src.drop (SEGSIZE * (r + 1)))

variable {convert : Bool} {src file : List UInt8} {r : ℕ} {s : Buffers}

theorem readAhead_free (hfree : (s.bfs s.nextone).counter = BF_FREE) :
    ((readAhead convert s file).1.bfs s.nextone).Holds
        ((s.unread convert file).take SEGSIZE) ∧
      (readAhead convert s file).1.unread convert (readAhead convert s file).2 =
        (s.unread convert file).drop SEGSIZE ∧
      (∀ i, i ≠ s.nextone → (readAhead convert s file).1.bfs i = s.bfs i) ∧
      (readAhead convert s file).1.nextone = !s.nextone ∧
      (readAhead convert s file).1.current = s.current := by
  unfold readAhead
  rw [if_neg (not_not.mpr hfree)]
  cases convert with
  | false =>
    refine ⟨?_, rfl, fun i hi => Function.update_of_ne hi _ _, rfl, rfl⟩
    simp only [reduceIte, Function.update_self]
    exact ⟨rfl, rfl⟩
  | true =>
    have hfill := fill_spec SEGSIZE ⟨s.newline, s.prevchar, file⟩
    refine ⟨?_, hfill.2, fun i hi => Function.update_of_ne hi _ _, rfl, rfl⟩
    simp only [Bool.true_eq_false, reduceIte, Function.update_self]
    exact ⟨congrArg (fun data => (data.length : Int)) hfill.1, hfill.1⟩

theorem readAhead_reader (h : Reader convert src r s file) :
    Reader convert src r (readAhead convert s file).1 (readAhead convert s file).2 := by
  rcases h.next with ⟨hnext, hfree, hunread⟩ | ⟨hnext, hholds, hunread⟩
  · rw [← hnext] at hfree
    obtain ⟨hfilled, hrest, hsame, hnextone, hcurrent⟩ := @readAhead_free convert file s hfree
    have hcur : s.current ≠ s.nextone := by
      rw [hnext]
      exact Bool.self_ne_not s.current
    refine ⟨?_, fun i hi => ?_, Or.inr ⟨?_, ?_, ?_⟩⟩
    · rw [hcurrent, hsame _ hcur]
      exact h.busy
    · rw [hcurrent, hsame _ hcur]
      exact h.held i hi
    · rw [hnextone, hcurrent, hnext, Bool.not_not]
    · rw [hcurrent, ← hnext]
      rw [hunread] at hfilled
      exact hfilled
    · rw [hrest, hunread, List.drop_drop, Nat.mul_succ]
  · have hbusy : (s.bfs s.nextone).counter ≠ BF_FREE := by
      rw [hnext]
      exact h.busy
    unfold readAhead
    simp only [if_pos hbusy]
    exact h

@[simp] theorem switch_unread (counter : Int) :
    (s.switch counter).unread convert file = s.unread convert file := rfl

theorem readit_reader (h : Reader convert src r s file) :
    Reader convert src (r + 1) (readit convert s file).1 (readit convert s file).2 := by
  unfold readit
  rcases h.next with ⟨hnext, hfree, hunread⟩ | ⟨hnext, hholds, hunread⟩
  · -- The other buffer is free: it is filled now.
    have hfree' : ((s.switch BF_FREE).bfs (s.switch BF_FREE).nextone).counter = BF_FREE := by
      rw [Buffers.switch_nextone, hnext, Buffers.switch_new, hfree]
    obtain ⟨hfilled, hrest, hsame, hnextone, hcurrent⟩ := @readAhead_free convert file _ hfree'
    rw [switch_unread, hunread] at hfilled hrest
    rw [Buffers.switch_nextone, hnext] at hfilled hsame hnextone
    rw [Buffers.switch_current] at hcurrent
    simp only [Buffers.switch_current, Buffers.switch_new, hfree, reduceIte]
    refine ⟨?_, fun i hi => ?_, Or.inl ⟨?_, ?_, ?_⟩⟩
    · rw [hcurrent]
      exact hfilled.not_free
    · cases hi
      rw [hcurrent]
      exact hfilled
    · rw [hnextone, hcurrent]
    · rw [hcurrent, Bool.not_not, hsame _ (Bool.self_ne_not s.current), Buffers.switch_old]
    · rw [hrest, List.drop_drop, Nat.mul_succ]
  · -- The other buffer has been filled already.
    have hbusy : (s.bfs (!s.current)).counter ≠ BF_FREE := hholds.not_free
    simp only [Buffers.switch_current, Buffers.switch_new, if_neg hbusy]
    refine ⟨?_, fun i hi => ?_, Or.inl ⟨?_, ?_, hunread⟩⟩
    · simpa using hbusy
    · cases hi
      simpa using hholds
    · simpa using hnext
    · simp

theorem rInit_reader (convert : Bool) (s : Buffers) (file : List UInt8) :
    Reader convert (encoded convert file) 0 (s.rwInit true) file := by
  refine ⟨?_, fun i hi => absurd hi (by omega), Or.inl ⟨rfl, ?_, ?_⟩⟩
  · simp [Buffers.rwInit, Buffers.setCounter, BF_ALLOC, BF_FREE]
  · simp [Buffers.rwInit, Buffers.setCounter]
  · cases convert <;> rfl

/-! ## The writer -/

/-- The file and the state of the conversion after the characters `xs`. -/
def decoded (convert : Bool) (xs : List UInt8) : Writing :=
  if convert then xs.foldl Writing.next ⟨none, {}⟩ else ⟨none, ({} : OutFile).write xs⟩

/-- A file that is `bytes`, with the position at its end. -/
def OutFile.AtEnd (bytes : List UInt8) (f : OutFile) : Prop :=
  f.bytes = bytes ∧ f.pos = bytes.length

variable {bytes : List UInt8} {out : OutFile}

theorem putc_atEnd (h : out.AtEnd bytes) (c : UInt8) : (out.putc c).AtEnd (bytes ++ [c]) := by
  obtain ⟨hbytes, hpos⟩ := h
  unfold OutFile.putc
  rw [hbytes, hpos]
  exact ⟨by simp, by simp⟩

theorem putc_fseekBack_atEnd {d : UInt8} (h : out.AtEnd (bytes ++ [d])) (c : UInt8) :
    (out.fseekBack.putc c).AtEnd (bytes ++ [c]) := by
  obtain ⟨hbytes, hpos⟩ := h
  unfold OutFile.putc OutFile.fseekBack
  rw [hbytes, hpos]
  exact ⟨by simp, by simp⟩

theorem write_atEnd (h : out.AtEnd bytes) (xs : List UInt8) :
    (out.write xs).AtEnd (bytes ++ xs) := by
  induction xs generalizing out bytes with
  | nil => simpa [OutFile.write] using h
  | cons c xs ih =>
    have := ih (putc_atEnd h c)
    rwa [List.append_assoc, List.singleton_append] at this

theorem expand_decoded (c : UInt8) {w : Writing} (hprev : w.prevchar ≠ some CR)
    (h : w.file.AtEnd bytes) :
    ((expand c).foldl Writing.next w).prevchar ≠ some CR ∧
      ((expand c).foldl Writing.next w).file.AtEnd (bytes ++ [c]) := by
  have hcr := putc_atEnd h CR
  unfold expand
  split
  · rename_i hlf
    simp only [List.foldl_cons, List.foldl_nil, Writing.next, if_neg hprev, if_true]
    refine ⟨by decide, ?_⟩
    rw [hlf]
    exact putc_fseekBack_atEnd hcr LF
  · split
    · rename_i hne heq
      have hnul : NUL ≠ LF := by decide
      simp only [List.foldl_cons, List.foldl_nil, Writing.next, if_neg hprev, if_true,
        if_neg hnul]
      refine ⟨by decide, ?_⟩
      rw [heq]
      exact hcr
    · rename_i hne
      simp only [List.foldl_cons, List.foldl_nil, Writing.next, if_neg hprev]
      exact ⟨fun h => hne (Option.some.inj h), putc_atEnd h c⟩

theorem foldl_netascii {w : Writing} (hprev : w.prevchar ≠ some CR) (h : w.file.AtEnd bytes)
    (file : List UInt8) :
    ((netascii file).foldl Writing.next w).file.AtEnd (bytes ++ file) := by
  induction file generalizing w bytes with
  | nil => simpa [netascii] using h
  | cons c file ih =>
    obtain ⟨hprev', h'⟩ := expand_decoded c hprev h
    have hrest := ih hprev' h'
    rw [List.append_assoc, List.singleton_append] at hrest
    rw [netascii, List.flatMap_cons, List.foldl_append]
    exact hrest

theorem decoded_encoded (convert : Bool) (file : List UInt8) :
    (decoded convert (encoded convert file)).file.bytes = file := by
  have hstart : ({} : OutFile).AtEnd [] := ⟨rfl, rfl⟩
  cases convert with
  | true => exact (foldl_netascii (w := ⟨none, {}⟩) (by simp) hstart file).1
  | false => exact (write_atEnd hstart file).1

theorem decoded_append (convert : Bool) (xs ys : List UInt8) :
    decoded convert (xs ++ ys) =
      if convert then ys.foldl Writing.next (decoded convert xs)
      else ⟨none, (decoded convert xs).file.write ys⟩ := by
  cases convert with
  | true => exact List.foldl_append
  | false => exact congrArg (Writing.mk none) List.foldl_append

/-- The blocks `accepted` have been taken. The last of them is in the buffer that is not in
use, or all are written. -/
structure Writer (convert : Bool) (accepted : List (List UInt8)) (s : Buffers)
    (file : OutFile) : Prop where
  alloc : (s.bfs s.current).counter = BF_ALLOC
  next : (s.nextone = s.current ∧ (s.bfs (!s.current)).counter = BF_FREE ∧
      (⟨s.prevchar, file⟩ : Writing) = decoded convert accepted.flatten) ∨
    (s.nextone = !s.current ∧ ∃ init last, accepted = init ++ [last] ∧
      (s.bfs (!s.current)).Holds last ∧
      (⟨s.prevchar, file⟩ : Writing) = decoded convert init.flatten)

variable {accepted : List (List UInt8)} {data : List UInt8}

/-- `write_behind` on a buffer with a block appends it. -/
theorem writeBehind_holds {xs : List UInt8} (hholds : (s.bfs s.nextone).Holds data)
    (hwritten : (⟨s.prevchar, out⟩ : Writing) = decoded convert xs) :
    (⟨(writeBehind convert s out).1.prevchar, (writeBehind convert s out).2⟩ : Writing) =
        decoded convert (xs ++ data) ∧
      (writeBehind convert s out).1.bfs =
        (s.setCounter s.nextone BF_FREE).bfs ∧
      (writeBehind convert s out).1.nextone = !s.nextone ∧
      (writeBehind convert s out).1.current = s.current := by
  obtain ⟨hcounter, hdata⟩ := hholds
  have hnot : ¬ (s.bfs s.nextone).counter < -1 := by omega
  have htake : (s.bfs s.nextone).buf.data.take (s.bfs s.nextone).counter.toNat = data := by
    rw [hdata, hcounter]
    exact List.take_length
  unfold writeBehind
  rw [decoded_append, ← hwritten]
  simp only [if_neg hnot, htake]
  by_cases hempty : (s.bfs s.nextone).counter ≤ 0
  · obtain rfl : data = [] := List.length_eq_zero_iff.mp (by omega)
    cases convert with
    | true => simp
    | false =>
      have hprev : s.prevchar = none := congrArg Writing.prevchar hwritten
      simp [OutFile.write, hprev]
  · cases convert with
    | true => simp [if_neg hempty]
    | false =>
      have hprev : s.prevchar = none := congrArg Writing.prevchar hwritten
      simp [if_neg hempty, hprev]

theorem writeBehind_idle (h : (s.bfs s.nextone).counter = BF_ALLOC) :
    writeBehind convert s out = (s, out) := by
  have hlt : (s.bfs s.nextone).counter < -1 := by
    rw [h]
    decide
  unfold writeBehind
  exact if_pos hlt

theorem writeBehind_flushed (h : Writer convert accepted s out) :
    Writer convert accepted (writeBehind convert s out).1 (writeBehind convert s out).2 ∧
      (writeBehind convert s out).2 = (decoded convert accepted.flatten).file := by
  rcases h.next with ⟨hnext, hfree, hwritten⟩ | ⟨hnext, init, last, rfl, hholds, hwritten⟩
  · rw [writeBehind_idle (by rw [hnext]; exact h.alloc)]
    exact ⟨h, congrArg Writing.file hwritten⟩
  · rw [← hnext] at hholds
    obtain ⟨hwritten', hbfs, hnextone, hcurrent⟩ := writeBehind_holds hholds hwritten
    have hflat : (init ++ [last]).flatten = init.flatten ++ last := by simp
    have hne : s.current ≠ s.nextone := by
      rw [hnext]
      exact Bool.self_ne_not s.current
    rw [← hflat] at hwritten'
    refine ⟨⟨?_, Or.inl ⟨?_, ?_, hwritten'⟩⟩, congrArg Writing.file hwritten'⟩
    · rw [hcurrent, hbfs]
      exact (congrArg Bf.counter (Function.update_of_ne hne _ _)).trans h.alloc
    · rw [hnextone, hcurrent, hnext, Bool.not_not]
    · rw [hcurrent, hbfs, ← hnext]
      simp [Buffers.setCounter]

/-- `writeit` takes a block. It writes the one before it, if that is still in its buffer. -/
theorem writeit_writer (h : Writer convert accepted s out) (hdata : s.dp.data = data) :
    Writer convert (accepted ++ [data]) (writeit convert data.length s out).1
      (writeit convert data.length s out).2 := by
  have hother : ((s.switch data.length).bfs (!(!s.current))).Holds data := by
    rw [Bool.not_not, Buffers.switch_old]
    exact ⟨rfl, hdata⟩
  unfold writeit
  rcases h.next with ⟨hnext, hfree, hwritten⟩ | ⟨hnext, init, last, rfl, hholds, hwritten⟩
  · simp only [Buffers.switch_current, Buffers.switch_new, hfree, ne_eq, not_true_eq_false,
      reduceIte]
    refine ⟨by simp, Or.inr ⟨?_, accepted, data, rfl, ?_, hwritten⟩⟩
    · simp [hnext]
    · simp only [Buffers.setCounter_current, Buffers.switch_current]
      rw [Buffers.setCounter_of_ne _ _ _ (Bool.not_ne_self _)]
      exact hother
  · -- The block before it is flushed from the buffer that is used next.
    simp only [Buffers.switch_current, Buffers.switch_new, ne_eq, hholds.not_free,
      not_false_eq_true, if_true]
    have hholds' : ((s.switch data.length).bfs (s.switch data.length).nextone).Holds last := by
      rw [Buffers.switch_nextone, hnext, Buffers.switch_new]
      exact hholds
    have hwritten' := @writeBehind_holds convert _ out last _ hholds' hwritten
    rw [Buffers.switch_nextone, hnext, Buffers.switch_current] at hwritten'
    obtain ⟨hdecoded, hbfs, hnextone, hcurrent⟩ := hwritten'
    refine ⟨by simp, Or.inr ⟨?_, init ++ [last], data, rfl, ?_, ?_⟩⟩
    · simp [hnextone, hcurrent]
    · simp only [Buffers.setCounter_current, hcurrent]
      rw [Buffers.setCounter_of_ne _ _ _ (Bool.not_ne_self _), hbfs,
        Buffers.setCounter_of_ne _ _ _ (Bool.not_ne_self _)]
      exact hother
    · rw [List.flatten_append, List.flatten_singleton]
      exact hdecoded

theorem wInit_writer (convert : Bool) (s : Buffers) : Writer convert [] (s.rwInit false) {} := by
  refine ⟨by simp [Buffers.rwInit, Buffers.setCounter], Or.inl ⟨rfl, ?_, ?_⟩⟩
  · simp [Buffers.rwInit, Buffers.setCounter]
  · cases convert <;> rfl

theorem setDp_writer (h : Writer convert accepted s out) (p : Packet) :
    Writer convert accepted (s.setDp p) out := by
  refine ⟨?_, ?_⟩
  · simpa using h.alloc
  · rcases h.next with ⟨hnext, hfree, hwritten⟩ | ⟨hnext, init, last, heq, hholds, hwritten⟩
    · exact Or.inl ⟨hnext, by simpa using hfree, hwritten⟩
    · exact Or.inr ⟨hnext, init, last, heq, by simpa using hholds, hwritten⟩

/-! ## A file that is read and written -/

/-- The loop of a sender, without the network: `readit` until a block is short. In front of
trip `i` there are `ahead i` calls of `read_ahead`. -/
def readBlocks (convert : Bool) (ahead : ℕ → ℕ) :
    ℕ → ℕ → Buffers → List UInt8 → Option (List (List UInt8))
  | 0, _, _, _ => none
  | fuel + 1, i, s, file =>
    let (s, file) := (fun st => readAhead convert st.1 st.2)^[ahead i] (s, file)
    let (s, file) := readit convert s file
    let data := s.dp.data.take s.size.toNat
    if s.size = SEGSIZE then (readBlocks convert ahead fuel (i + 1) s file).map (data :: ·)
    else some [data]

/-- The loop of a receiver, without the network: every block is put at `dp` and given to
`writeit`. After trip `i` there are `behind i` calls of `write_behind`, and one at the end. -/
def writeBlocks (convert : Bool) (behind : ℕ → ℕ) :
    ℕ → List (List UInt8) → Buffers → OutFile → OutFile
  | _, [], s, file => (writeBehind convert s file).2
  | i, data :: rest, s, file =>
    let (s, file) := writeit convert data.length (s.setDp { s.dp with data }) file
    let (s, file) := (fun st => writeBehind convert st.1 st.2)^[behind i] (s, file)
    writeBlocks convert behind (i + 1) rest s file

theorem readAheads_reader (h : Reader convert src r s file) (n : ℕ) :
    Reader convert src r ((fun st => readAhead convert st.1 st.2)^[n] (s, file)).1
      ((fun st => readAhead convert st.1 st.2)^[n] (s, file)).2 := by
  induction n with
  | zero => exact h
  | succ n ih =>
    rw [Function.iterate_succ_apply']
    exact readAhead_reader ih

theorem writeBehinds_writer (h : Writer convert accepted s out) (n : ℕ) :
    Writer convert accepted ((fun st => writeBehind convert st.1 st.2)^[n] (s, out)).1
      ((fun st => writeBehind convert st.1 st.2)^[n] (s, out)).2 := by
  induction n with
  | zero => exact h
  | succ n ih =>
    rw [Function.iterate_succ_apply']
    exact (writeBehind_flushed ih).1

theorem Reader.read (h : Reader convert src (r + 1) s file) :
    s.size = (block SEGSIZE src r).length ∧
      s.dp.data.take s.size.toNat = block SEGSIZE src r := by
  obtain ⟨hcounter, hdata⟩ := h.held r rfl
  refine ⟨hcounter, ?_⟩
  rw [Buffers.size, hcounter, Buffers.dp, hdata]
  exact List.take_length

variable {ahead : ℕ → ℕ}

theorem readBlocks_spec {fuel i : ℕ} {bs : List (List UInt8)} (h : Reader convert src r s file)
    (hbs : readBlocks convert ahead fuel i s file = some bs) :
    (blocks SEGSIZE src r ++ bs).flatten = src := by
  induction fuel generalizing i r s file bs with
  | zero => cases hbs
  | succ fuel ih =>
    have hread := readit_reader (readAheads_reader h (ahead i))
    obtain ⟨hsize, hdata⟩ := hread.read
    unfold readBlocks at hbs
    simp only [hdata] at hbs
    split at hbs
    · obtain ⟨rest, hrest, rfl⟩ := Option.map_eq_some_iff.mp hbs
      have hflat := ih hread hrest
      rw [blocks_succ, List.append_assoc] at hflat
      exact hflat
    · rename_i hshort
      cases hbs
      rw [← blocks_succ]
      apply blocks_eq_of_short
      intro hfull
      exact hshort (by rw [hsize, hfull])

theorem readBlocks_isSome {fuel i : ℕ} (h : Reader convert src r s file)
    (hr : r ≤ src.length / SEGSIZE) (hfuel : src.length / SEGSIZE < fuel + r) :
    (readBlocks convert ahead fuel i s file).isSome = true := by
  induction fuel generalizing i r s file with
  | zero => omega
  | succ fuel ih =>
    have hread := readit_reader (readAheads_reader h (ahead i))
    obtain ⟨hsize, -⟩ := hread.read
    unfold readBlocks
    simp only
    split
    · rename_i hfull
      have hne : r ≠ src.length / SEGSIZE := by
        rintro rfl
        have hshort : (block SEGSIZE src (src.length / SEGSIZE)).length < SEGSIZE :=
          block_short (by decide)
        rw [hsize] at hfull
        omega
      rw [Option.isSome_map]
      exact ih hread (by omega) (by omega)
    · rfl

theorem writeBlocks_spec {behind : ℕ → ℕ} {i : ℕ} {bs : List (List UInt8)}
    (h : Writer convert accepted s out) :
    writeBlocks convert behind i bs s out =
      (decoded convert (accepted ++ bs).flatten).file := by
  induction bs generalizing i accepted s out with
  | nil =>
    rw [List.append_nil]
    exact (writeBehind_flushed h).2
  | cons data bs ih =>
    have hset := setDp_writer h { s.dp with data }
    have hdata : (s.setDp { s.dp with data }).dp.data = data := by simp [Buffers.dp]
    have hwrite := writeBehinds_writer (writeit_writer hset hdata) (behind i)
    unfold writeBlocks
    simp only
    rw [ih hwrite, List.append_assoc, List.singleton_append]

/-- A file that is read in netascii until a block is short, and written from these blocks, is
the file, whatever the schedule of `read_ahead` and `write_behind`; and the reading ends. -/
theorem netascii_round_trip (file : List UInt8) (s t : Buffers) (ahead behind : ℕ → ℕ) :
    (∃ fuel bs, readBlocks true ahead fuel 0 (s.rwInit true) file = some bs) ∧
    ∀ fuel bs, readBlocks true ahead fuel 0 (s.rwInit true) file = some bs →
      (writeBlocks true behind 0 bs (t.rwInit false) {}).bytes = file := by
  have hreader := rInit_reader true s file
  constructor
  · refine ⟨(encoded true file).length / SEGSIZE + 1, Option.isSome_iff_exists.mp ?_⟩
    exact readBlocks_isSome hreader (Nat.zero_le _) (by omega)
  · intro fuel bs hbs
    have hflat := readBlocks_spec hreader hbs
    rw [blocks_zero, List.nil_append] at hflat
    rw [writeBlocks_spec (wInit_writer true t), List.nil_append, hflat]
    exact decoded_encoded true file

end Netkit.Tftp

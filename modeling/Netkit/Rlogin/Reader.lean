import Netkit.Foundations.Runs
import Netkit.Rlogin.Protocol

/-!
# The reader of rlogin

`reader` copies what the server sends to the standard output, through `rcvbuf`. Urgent data
interrupt it: `oob` may run between any two statements of the loop, and within a system call that
waits. As long as the urgent byte itself cannot be received, `oob` reads what is before it, into
what is free of `rcvbuf`, or into `waste` when nothing is.

* `reader_exact`: `Exact` in all that is reached, as long as `oob` receives nothing into `rcvbuf`.
-/

namespace Netkit.Rlogin.Reader

open Netkit.Foundations

abbrev Bytes := List UInt8

/-! ## The loop -/

/-- `errno`: `EINTR` or another value. -/
inductive Errno where
  | eintr
  | other
deriving DecidableEq

/-- The statement that is next. A call of `write` or `read` has been made and its value has not been
used yet at `wrote`, `writeFailed` and `didRead`. -/
inductive Pc where
  | top
  /-- `rcvstate = WRITING`. -/
  | writing (remaining : ℕ)
  | write (remaining : ℕ)
  | wrote (n : ℕ)
  | writeFailed
  /-- `bufp = rcvbuf`. -/
  | rewind
  /-- `rcvcnt = 0`. -/
  | clear
  /-- `rcvstate = READING`. -/
  | reading
  | read
  | didRead (n : Int)
  /-- The tests of `rcvcnt`. -/
  | check
  | returned
deriving DecidableEq

/-- Why the reader may return. -/
inductive Cause where
  | no
  | endOfFile
  | failure
deriving DecidableEq

structure State where
  pc : Pc
  rcvbuf : Bytes
  rcvcnt : Int
  /-- `bufp - rcvbuf`. -/
  bufp : ℕ
  /-- `rcvstate == READING`. -/
  isReading : Bool
  errno : Errno
  /-- What the standard output has taken. -/
  written : Bytes
  /-- What has been received and not been discarded. -/
  kept : Bytes
  /-- A byte has been stored before `rcvbuf`. -/
  astray : Bool
  cause : Cause

/-- `sizeof(rcvbuf)`. -/
def size : ℕ := 8192

def State.start : State where
  pc := .top
  rcvbuf := List.replicate size 0
  rcvcnt := 0
  bufp := 0
  isReading := false
  errno := .other
  written := []
  kept := []
  astray := false
  cause := .no

/-! ## The handler -/

/-- What the calls of the handler return. -/
structure Urgent where
  /-- For every time that the urgent byte is not here yet, what `read` reads; nothing if it fails. -/
  waits : List Bytes
  /-- The urgent byte; `none` if `recv` fails for another reason. -/
  mark : Option UInt8
  /-- One of the calls for the window size and the modes of the terminal fails. -/
  fails : Bool

/-- `data` is stored from `rcvbuf + i` on. -/
def store (rcvbuf : Bytes) (i : Int) (data : Bytes) : Bytes :=
  let inside := data.drop (-i).toNat
  rcvbuf.take i.toNat ++ inside ++ rcvbuf.drop (i.toNat + inside.length)

/-- The loop around `recv`, with the value of `rcvd` behind it; `none` is the return from within. -/
def await : State → ℕ → List Bytes → State × Option ℕ
  | s, rcvd, [] => (s, some rcvd)
  | s, rcvd, data :: waits =>
    if data = [] then (s, none)
    else if s.rcvcnt < size then
      await { s with
        rcvbuf := store s.rcvbuf s.rcvcnt data
        kept := s.kept ++ data
        astray := s.astray || decide (s.rcvcnt < 0) } (rcvd + data.length) waits
    else await s rcvd waits

/-- `recv` fails, or another call does. -/
def Urgent.setsErrno (u : Urgent) : Bool := !u.waits.isEmpty || u.mark.isNone || u.fails

/-- `oob_real`. A mark with `TIOCPKT_FLUSHWRITE` discards what has not been written yet. -/
def oobReal (s : State) (u : Urgent) : State :=
  match await { s with errno := if u.setsErrno then .other else s.errno } 0 u.waits with
  | (s, none) => s
  | (s, some rcvd) =>
    match u.mark with
    | none => s
    | some mark =>
      if mark &&& tiocpktFlushwrite ≠ 0 then
        { s with rcvcnt := 0, pc := .top, kept := s.kept.take s.written.length }
      else if 0 < rcvd ∧ s.isReading = true then { s with pc := .top }
      else s

/-! ## The steps -/

inductive Event where
  /-- A statement without a system call. -/
  | next
  | write (n : ℕ)
  | writeFails (errno : Errno)
  /-- Nothing is the end of the stream. -/
  | read (data : Bytes)
  | readFails (errno : Errno)
  | urgent (u : Urgent)

def next (s : State) : Option State :=
  match s.pc with
  | .top =>
    let remaining := (s.rcvcnt - s.bufp).toNat
    some { s with pc := if 0 < remaining then .writing remaining else .rewind }
  | .writing remaining => some { s with isReading := false, pc := .write remaining }
  | .wrote n => some { s with bufp := s.bufp + n, pc := .top }
  | .writeFailed => some { s with pc := if s.errno = .eintr then .top else .returned }
  | .rewind => some { s with bufp := 0, pc := .clear }
  | .clear => some { s with rcvcnt := 0, pc := .reading }
  | .reading => some { s with isReading := true, pc := .read }
  | .didRead n => some { s with rcvcnt := n, pc := .check }
  | .check =>
    if s.rcvcnt = 0 then some { s with pc := .returned }
    else if s.rcvcnt < 0 ∧ s.errno ≠ .eintr then some { s with pc := .returned }
    else some { s with pc := .top }
  | .write _ | .read | .returned => none

/-- The call fails: only an error other than `EINTR` is to end the reader. -/
def State.fail (s : State) (errno : Errno) (pc : Pc) : State :=
  { s with errno := errno, pc := pc, cause := if errno = .eintr then s.cause else .failure }

/-- No `read` gives more than it has been asked for. -/
def Urgent.Fits (u : Urgent) (s : State) : Prop :=
  s.rcvcnt < size → ∀ data ∈ u.waits, (data.length : Int) ≤ size - s.rcvcnt

instance (u : Urgent) (s : State) : Decidable (u.Fits s) := by
  unfold Urgent.Fits
  infer_instance

def step (s : State) : Event → Option State
  | .next => next s
  | .write n =>
    match s.pc with
    | .write remaining =>
      if n ≤ remaining then
        some { s with written := s.written ++ (s.rcvbuf.drop s.bufp).take n, pc := .wrote n }
      else none
    | _ => none
  | .writeFails errno =>
    match s.pc with
    | .write _ => some (s.fail errno .writeFailed)
    | _ => none
  | .read data =>
    if s.pc = .read ∧ data.length ≤ size then
      some { s with
        rcvbuf := store s.rcvbuf 0 data
        kept := s.kept ++ data
        pc := .didRead data.length
        cause := if data = [] then .endOfFile else s.cause }
    else none
  | .readFails errno => if s.pc = .read then some (s.fail errno (.didRead (-1))) else none
  | .urgent u => if s.pc ≠ .returned ∧ u.Fits s then some (oobReal s u) else none

/-! ## What is expected -/

/-- What is in `rcvbuf` and has not been written. -/
def State.pending (s : State) : Bytes :=
  match s.pc with
  | .top | .writing _ | .write _ | .writeFailed | .returned =>
    (s.rcvbuf.take s.rcvcnt.toNat).drop s.bufp
  | .wrote n => (s.rcvbuf.take s.rcvcnt.toNat).drop (s.bufp + n)
  | .rewind | .clear | .reading | .read => []
  | .didRead n => s.rcvbuf.take n.toNat
  | .check => s.rcvbuf.take s.rcvcnt.toNat

structure Exact (s : State) : Prop where
  bytes : s.written ++ s.pending = s.kept
  inside : s.astray = false
  /-- The reader returns at the end of the stream, when everything has been written, or if a call
  fails. -/
  whole : s.pc = .returned → s.cause ≠ .no ∧ (s.cause = .endOfFile → s.written = s.kept)

/-- A call has been interrupted, and `errno` has not been looked at yet. -/
def State.Interrupted (s : State) : Prop :=
  s.errno = .eintr ∧
    (s.pc = .writeFailed ∨ s.pc = .didRead (-1) ∨ s.pc = .check ∧ s.rcvcnt = -1)

/-- The handler receives nothing into `rcvbuf`, and leaves `errno` alone where it matters. -/
structure Urgent.Quiet (u : Urgent) (s : State) : Prop where
  receives : s.rcvcnt < size → u.waits.headD [] = []
  errno : s.Interrupted → u.setsErrno = false

/-- What the handler receives is discarded. -/
structure Urgent.Flushes (u : Urgent) (s : State) : Prop where
  waits : [] ∉ u.waits
  inside : 0 ≤ s.rcvcnt ∨ u.waits = []
  mark : (u.mark.any fun mark => mark &&& tiocpktFlushwrite != 0) = true

instance (u : Urgent) (s : State) : Decidable (u.Quiet s) :=
  have : Decidable s.Interrupted := by unfold State.Interrupted; infer_instance
  decidable_of_iff ((s.rcvcnt < size → u.waits.headD [] = []) ∧ (s.Interrupted → u.setsErrno = false))
    ⟨fun h => ⟨h.1, h.2⟩, fun h => ⟨h.1, h.2⟩⟩

instance (u : Urgent) (s : State) : Decidable (u.Flushes s) :=
  decidable_of_iff ((∀ data ∈ u.waits, data ≠ []) ∧ (0 ≤ s.rcvcnt ∨ u.waits = []) ∧
      (u.mark.any fun mark => mark &&& tiocpktFlushwrite != 0) = true)
    ⟨fun h => ⟨fun hmem => h.1 [] hmem rfl, h.2.1, h.2.2⟩,
      fun h => ⟨fun _ hmem hnil => h.1 (hnil ▸ hmem), h.2, h.3⟩⟩

def Settled (s : State) : Event → Prop
  | .urgent u => u.Quiet s ∨ u.Flushes s
  | _ => True

instance (s : State) : ∀ e, Decidable (Settled s e)
  | .urgent u => inferInstanceAs (Decidable (u.Quiet s ∨ u.Flushes s))
  | .next | .write _ | .writeFails _ | .read _ | .readFails _ => isTrue trivial

/-! ## The buffer -/

variable {s t : State} {u : Urgent} {rcvbuf data : Bytes}

theorem store_zero_take (rcvbuf data : Bytes) : (store rcvbuf 0 data).take data.length = data :=
  List.take_left

theorem store_length {i : Int} (hi : 0 ≤ i) (hfits : i + data.length ≤ rcvbuf.length) :
    (store rcvbuf i data).length = rcvbuf.length := by
  have hinside : (-i).toNat = 0 := by omega
  rw [store, hinside, List.drop_zero, List.length_append, List.length_append, List.length_take,
    List.length_drop]
  omega

theorem take_drop_pending (rcvbuf : Bytes) {count bufp n : ℕ} (hn : n ≤ count - bufp) :
    (rcvbuf.drop bufp).take n ++ (rcvbuf.take count).drop (bufp + n) =
      (rcvbuf.take count).drop bufp := by
  have htake : (rcvbuf.drop bufp).take n = ((rcvbuf.take count).drop bufp).take n := by
    rw [List.drop_take, List.take_take, Nat.min_eq_left hn]
  rw [htake, ← List.drop_drop, List.take_append_drop]

/-! ## A run of the handler -/

/-- What `await` changes when the handler goes on: bytes are received, and stored in `rcvbuf`. -/
structure Received (s t : State) : Prop where
  kept : s.kept <+: t.kept
  length : t.rcvbuf.length = s.rcvbuf.length
  written : t.written = s.written
  bufp : t.bufp = s.bufp
  astray : t.astray = s.astray
  cause : t.cause = s.cause

theorem Received.refl (s : State) : Received s s := ⟨List.prefix_rfl, rfl, rfl, rfl, rfl, rfl⟩

theorem Received.trans {v : State} (h : Received s t) (h' : Received t v) : Received s v where
  kept := h.kept.trans h'.kept
  length := h'.length.trans h.length
  written := h'.written.trans h.written
  bufp := h'.bufp.trans h.bufp
  astray := h'.astray.trans h.astray
  cause := h'.cause.trans h.cause

/-- When `rcvbuf` is full, what is before the urgent byte is thrown away. -/
theorem await_full (h : ¬ s.rcvcnt < size) (rcvd : ℕ) (waits : List Bytes) :
    await s rcvd waits = (s, none) ∨ await s rcvd waits = (s, some rcvd) := by
  induction waits with
  | nil => exact .inr rfl
  | cons data waits ih =>
    rw [await, if_neg h]
    split
    · exact .inl rfl
    · exact ih

theorem await_quiet {waits : List Bytes} (h : s.rcvcnt < size → waits.headD [] = []) (rcvd : ℕ) :
    await s rcvd waits = (s, none) ∨ await s rcvd waits = (s, some rcvd) := by
  by_cases hfull : s.rcvcnt < size
  · cases waits with
    | nil => exact .inr rfl
    | cons data waits =>
      obtain rfl : data = [] := h hfull
      exact .inl rfl
  · exact await_full hfull rcvd waits

/-- The induction is on the waits; `rcvcnt` stays what it is. -/
theorem await_received {waits : List Bytes} (hwaits : [] ∉ waits)
    (hinside : 0 ≤ s.rcvcnt ∨ waits = []) (hlength : s.rcvbuf.length = size)
    (hfits : s.rcvcnt < size → ∀ data ∈ waits, (data.length : Int) ≤ size - s.rcvcnt) (rcvd : ℕ) :
    ∃ t rcvd', await s rcvd waits = (t, some rcvd') ∧ Received s t := by
  induction waits generalizing s rcvd with
  | nil => exact ⟨s, rcvd, rfl, .refl s⟩
  | cons data waits ih =>
    obtain ⟨hdata, hwaits⟩ := List.ne_and_not_mem_of_not_mem_cons hwaits
    have hcount : 0 ≤ s.rcvcnt := hinside.resolve_right (List.cons_ne_nil _ _)
    rw [await, if_neg (Ne.symm hdata)]
    split
    · next hroom =>
      have hdatafits := hfits hroom data List.mem_cons_self
      have hstore : (store s.rcvbuf s.rcvcnt data).length = s.rcvbuf.length :=
        store_length hcount (by rw [hlength]; omega)
      have hinside : (s.astray || decide (s.rcvcnt < 0)) = s.astray := by
        rw [decide_eq_false (show ¬ s.rcvcnt < 0 by omega), Bool.or_false]
      obtain ⟨t, rcvd', ht, hreceived⟩ := ih
        (s := { s with
          rcvbuf := store s.rcvbuf s.rcvcnt data
          kept := s.kept ++ data
          astray := s.astray || decide (s.rcvcnt < 0) }) hwaits (.inl hcount)
        (hstore.trans hlength) (fun h d hd => hfits h d (List.mem_cons_of_mem _ hd))
        (rcvd + data.length)
      refine ⟨t, rcvd', ht, Received.trans ?_ hreceived⟩
      exact ⟨List.prefix_append s.kept data, hstore, rfl, rfl, hinside, rfl⟩
    · exact ih hwaits (.inl hcount) hlength
        (fun h d hd => hfits h d (List.mem_cons_of_mem _ hd)) rcvd

/-- Under the condition the handler leaves all as it is but `errno`, or discards what is pending and
jumps to the top. -/
theorem oobReal_cases (h : Settled s (.urgent u)) (hlength : s.rcvbuf.length = size)
    (hfits : u.Fits s) :
    (oobReal s u = { s with errno := if u.setsErrno then .other else s.errno } ∧
        (s.Interrupted → u.setsErrno = false)) ∨
      ∃ t, Received s t ∧
        oobReal s u =
          { t with rcvcnt := 0, pc := .top, kept := t.kept.take t.written.length } := by
  have herrno : Received s { s with errno := if u.setsErrno then .other else s.errno } :=
    ⟨List.prefix_rfl, rfl, rfl, rfl, rfl, rfl⟩
  rcases h with h | h
  · rcases await_quiet (s := { s with errno := if u.setsErrno then .other else s.errno })
      h.receives 0 with hawait | hawait
    · left
      rw [oobReal, hawait]
      exact ⟨rfl, h.errno⟩
    · rw [oobReal, hawait]
      cases u.mark with
      | none => exact .inl ⟨rfl, h.errno⟩
      | some mark =>
        by_cases hflush : mark &&& tiocpktFlushwrite ≠ 0
        · exact .inr ⟨_, herrno, if_pos hflush⟩
        · left
          refine ⟨?_, h.errno⟩
          simp only [if_neg hflush, Nat.lt_irrefl, false_and, if_false]
  · right
    obtain ⟨mark, hmark, hflush⟩ := (Option.any_eq_true _ _).mp h.mark
    obtain ⟨t, rcvd, hawait, ht⟩ := await_received
      (s := { s with errno := if u.setsErrno then .other else s.errno }) h.waits h.inside hlength
      hfits 0
    refine ⟨t, herrno.trans ht, ?_⟩
    rw [oobReal, hawait, hmark]
    exact if_pos (bne_iff_ne.mp hflush)

/-! ## What every step keeps -/

def Place (s : State) : Prop :=
  match s.pc with
  | .top | .wrote _ | .rewind | .returned => True
  | .writing remaining | .write remaining => remaining = (s.rcvcnt - s.bufp).toNat
  | .writeFailed => s.errno = .eintr ∨ s.cause = .failure
  | .clear => s.bufp = 0
  | .reading | .read => s.bufp = 0 ∧ s.rcvcnt = 0
  | .didRead n => s.bufp = 0 ∧ s.rcvcnt = 0 ∧ n ≤ size ∧
      (0 < n ∨ n = 0 ∧ s.cause = .endOfFile ∨ n = -1 ∧ (s.errno = .eintr ∨ s.cause = .failure))
  | .check => s.bufp = 0 ∧
      (0 < s.rcvcnt ∨ s.rcvcnt = 0 ∧ s.cause = .endOfFile ∨
        s.rcvcnt = -1 ∧ (s.errno = .eintr ∨ s.cause = .failure))

structure Inv (s : State) : Prop where
  exact : Exact s
  length : s.rcvbuf.length = size
  place : Place s

theorem start_inv : Inv .start :=
  ⟨⟨rfl, rfl, fun h => by cases h⟩, List.length_replicate, trivial⟩

/-- `errno` counts only where a call has been interrupted. -/
theorem place_errno {clobbers : Bool} (h : Place s) (herrno : s.Interrupted → clobbers = false) :
    Place { s with errno := if clobbers then .other else s.errno } := by
  cases clobbers with
  | false => exact h
  | true =>
    have hnot : ¬ s.Interrupted := fun hinterrupted => Bool.false_ne_true (herrno hinterrupted).symm
    unfold State.Interrupted at hnot
    unfold Place at h ⊢
    cases hpc : s.pc with
    | writeFailed =>
      simp only [hpc] at h ⊢
      exact .inr (h.resolve_left fun he => hnot ⟨he, .inl hpc⟩)
    | didRead n =>
      simp only [hpc] at h ⊢
      obtain ⟨hbufp, hcount, hn, hread | hread | ⟨hread, herror⟩⟩ := h
      · exact ⟨hbufp, hcount, hn, .inl hread⟩
      · exact ⟨hbufp, hcount, hn, .inr (.inl hread)⟩
      · refine ⟨hbufp, hcount, hn, .inr (.inr ⟨hread, .inr ?_⟩)⟩
        exact herror.resolve_left fun he => hnot ⟨he, .inr (.inl (hread ▸ hpc))⟩
    | check =>
      simp only [hpc] at h ⊢
      obtain ⟨hbufp, hread | hread | ⟨hread, herror⟩⟩ := h
      · exact ⟨hbufp, .inl hread⟩
      · exact ⟨hbufp, .inr (.inl hread)⟩
      · refine ⟨hbufp, .inr (.inr ⟨hread, .inr ?_⟩)⟩
        exact herror.resolve_left fun he => hnot ⟨he, .inr (.inr ⟨hpc, hread⟩)⟩
    | writing _ | write _ | clear | reading | read =>
      simp only [hpc] at h ⊢
      exact h
    | top | wrote _ | rewind | returned => trivial

theorem urgent_inv (h : Inv s) (hok : Settled s (.urgent u)) (hstep : step s (.urgent u) = some t) :
    Inv t := by
  rw [step] at hstep
  split at hstep
  · next hpc =>
    obtain rfl := Option.some.inj hstep
    rcases oobReal_cases hok h.length hpc.2 with ⟨hsame, herrno⟩ | ⟨v, hv, hflush⟩
    · rw [hsame]
      refine ⟨⟨h.exact.bytes, h.exact.inside, fun hreturned => absurd hreturned hpc.1⟩, h.length, ?_⟩
      exact place_errno h.place herrno
    · rw [hflush]
      have hkept : v.kept.take v.written.length = v.written := by
        obtain ⟨rest, hrest⟩ := hv.kept
        rw [← hrest, ← h.exact.bytes, hv.written, List.append_assoc, List.take_left]
      refine ⟨⟨?_, hv.astray.trans h.exact.inside, fun h => by cases h⟩,
        hv.length.trans h.length, trivial⟩
      rw [hkept]
      simp [State.pending]
  · cases hstep

theorem next_inv (h : Inv s) (hstep : next s = some t) : Inv t := by
  obtain ⟨⟨hbytes, hinside, hwhole⟩, hlength, hplace⟩ := h
  unfold next at hstep
  unfold Place at hplace
  unfold State.pending at hbytes
  cases hpc : s.pc with
  | top =>
    simp only [hpc] at hstep hbytes
    obtain rfl := Option.some.inj hstep
    by_cases hremaining : 0 < (s.rcvcnt - s.bufp).toNat
    · rw [if_pos hremaining]
      exact ⟨⟨hbytes, hinside, fun h => by cases h⟩, hlength, rfl⟩
    · rw [if_neg hremaining]
      have hempty : (s.rcvbuf.take s.rcvcnt.toNat).drop s.bufp = [] :=
        List.drop_eq_nil_of_le (by rw [List.length_take]; omega)
      rw [hempty] at hbytes
      exact ⟨⟨hbytes, hinside, fun h => by cases h⟩, hlength, trivial⟩
  | writing remaining =>
    simp only [hpc] at hstep hbytes hplace
    obtain rfl := Option.some.inj hstep
    exact ⟨⟨hbytes, hinside, fun h => by cases h⟩, hlength, hplace⟩
  | wrote n =>
    simp only [hpc] at hstep hbytes hplace
    obtain rfl := Option.some.inj hstep
    exact ⟨⟨hbytes, hinside, fun h => by cases h⟩, hlength, trivial⟩
  | writeFailed =>
    simp only [hpc] at hstep hbytes hplace
    obtain rfl := Option.some.inj hstep
    by_cases herrno : s.errno = .eintr
    · rw [if_pos herrno]
      exact ⟨⟨hbytes, hinside, fun h => by cases h⟩, hlength, trivial⟩
    · rw [if_neg herrno]
      have hfailure : s.cause = .failure := hplace.resolve_left herrno
      refine ⟨⟨hbytes, hinside, fun _ => ⟨?_, ?_⟩⟩, hlength, trivial⟩
      · simp [hfailure]
      · simp [hfailure]
  | rewind =>
    simp only [hpc] at hstep hbytes hplace
    obtain rfl := Option.some.inj hstep
    exact ⟨⟨hbytes, hinside, fun h => by cases h⟩, hlength, rfl⟩
  | clear =>
    simp only [hpc] at hstep hbytes hplace
    obtain rfl := Option.some.inj hstep
    exact ⟨⟨hbytes, hinside, fun h => by cases h⟩, hlength, hplace, rfl⟩
  | reading =>
    simp only [hpc] at hstep hbytes hplace
    obtain rfl := Option.some.inj hstep
    exact ⟨⟨hbytes, hinside, fun h => by cases h⟩, hlength, hplace⟩
  | didRead n =>
    simp only [hpc] at hstep hbytes hplace
    obtain rfl := Option.some.inj hstep
    exact ⟨⟨hbytes, hinside, fun h => by cases h⟩, hlength, hplace.1, hplace.2.2.2⟩
  | check =>
    simp only [hpc] at hstep hbytes hplace
    obtain ⟨hbufp, hcount⟩ := hplace
    have hpending : s.written ++ (s.rcvbuf.take s.rcvcnt.toNat).drop s.bufp = s.kept := by
      rw [hbufp, List.drop_zero]
      exact hbytes
    split at hstep
    · next hzero =>
      obtain rfl := Option.some.inj hstep
      have hend : s.cause = .endOfFile := by
        rcases hcount with hpos | ⟨-, hend⟩ | ⟨hminus, -⟩
        · omega
        · exact hend
        · omega
      refine ⟨⟨hpending, hinside, fun _ => ⟨by simp [hend], fun _ => ?_⟩⟩, hlength, trivial⟩
      rw [← hbytes, hzero]
      exact (List.append_nil s.written).symm
    · split at hstep
      · next hfailed =>
        obtain rfl := Option.some.inj hstep
        have hfailure : s.cause = .failure := by
          rcases hcount with hpos | ⟨hzero, -⟩ | ⟨-, herror⟩
          · omega
          · omega
          · exact herror.resolve_left hfailed.2
        refine ⟨⟨hpending, hinside, fun _ => ⟨?_, ?_⟩⟩, hlength, trivial⟩
        · simp [hfailure]
        · simp [hfailure]
      · obtain rfl := Option.some.inj hstep
        exact ⟨⟨hpending, hinside, fun h => by cases h⟩, hlength, trivial⟩
  | write remaining => simp only [hpc] at hstep; cases hstep
  | read => simp only [hpc] at hstep; cases hstep
  | returned => simp only [hpc] at hstep; cases hstep

theorem write_inv {n : ℕ} (h : Inv s) (hstep : step s (.write n) = some t) : Inv t := by
  obtain ⟨⟨hbytes, hinside, hwhole⟩, hlength, hplace⟩ := h
  simp only [step] at hstep
  split at hstep
  · next remaining hpc =>
    split at hstep
    · next hn =>
      obtain rfl := Option.some.inj hstep
      simp only [Place, hpc] at hplace
      simp only [State.pending, hpc] at hbytes
      refine ⟨⟨?_, hinside, fun h => by cases h⟩, hlength, trivial⟩
      show (s.written ++ (s.rcvbuf.drop s.bufp).take n) ++
        (s.rcvbuf.take s.rcvcnt.toNat).drop (s.bufp + n) = s.kept
      rw [List.append_assoc, take_drop_pending s.rcvbuf (by omega)]
      exact hbytes
    · cases hstep
  · cases hstep

theorem read_inv (h : Inv s) (hstep : step s (.read data) = some t) : Inv t := by
  obtain ⟨⟨hbytes, hinside, hwhole⟩, hlength, hplace⟩ := h
  simp only [step] at hstep
  split at hstep
  · next hread =>
    obtain ⟨hpc, hdata⟩ := hread
    obtain rfl := Option.some.inj hstep
    simp only [Place, hpc] at hplace
    simp only [State.pending, hpc, List.append_nil] at hbytes
    have hstore : (store s.rcvbuf 0 data).length = s.rcvbuf.length :=
      store_length (Int.le_refl 0) (by omega)
    refine ⟨⟨?_, hinside, fun h => by cases h⟩, hstore.trans hlength, hplace.1, hplace.2, by simpa, ?_⟩
    · show s.written ++ (store s.rcvbuf 0 data).take (data.length : Int).toNat = s.kept ++ data
      rw [Int.toNat_natCast, store_zero_take, hbytes]
    · cases data with
      | nil => exact .inr (.inl ⟨rfl, rfl⟩)
      | cons c data => exact .inl (by simp)
  · cases hstep

theorem writeFails_inv {errno : Errno} (h : Inv s) (hstep : step s (.writeFails errno) = some t) :
    Inv t := by
  obtain ⟨⟨hbytes, hinside, hwhole⟩, hlength, hplace⟩ := h
  simp only [step] at hstep
  split at hstep
  · next remaining hpc =>
    obtain rfl := Option.some.inj hstep
    simp only [State.pending, hpc] at hbytes
    refine ⟨⟨hbytes, hinside, fun h => by cases h⟩, hlength, ?_⟩
    cases errno with
    | eintr => exact .inl rfl
    | other => exact .inr rfl
  · cases hstep

theorem readFails_inv {errno : Errno} (h : Inv s) (hstep : step s (.readFails errno) = some t) :
    Inv t := by
  obtain ⟨⟨hbytes, hinside, hwhole⟩, hlength, hplace⟩ := h
  simp only [step] at hstep
  split at hstep
  · next hpc =>
    obtain rfl := Option.some.inj hstep
    simp only [State.pending, hpc] at hbytes
    simp only [Place, hpc] at hplace
    refine ⟨⟨hbytes, hinside, fun h => by cases h⟩, hlength, hplace.1, hplace.2, ?_, ?_⟩
    · exact Int.le_trans (by decide : (-1 : Int) ≤ 0) (Int.natCast_nonneg size)
    · refine .inr (.inr ⟨rfl, ?_⟩)
      cases errno with
      | eintr => exact .inl rfl
      | other => exact .inr rfl
  · cases hstep

theorem step_inv {e : Event} (h : Inv s) (hok : Settled s e) (hstep : step s e = some t) : Inv t := by
  cases e with
  | next => exact next_inv h hstep
  | write n => exact write_inv h hstep
  | writeFails errno => exact writeFails_inv h hstep
  | read data => exact read_inv h hstep
  | readFails errno => exact readFails_inv h hstep
  | urgent u => exact urgent_inv h hok hstep

/-- The reader loses nothing in any run in which the handler receives nothing into `rcvbuf` that it
does not discard, and does not change `errno` between an interrupted call and the test. -/
theorem reader_exact {es : List Event} (hsteps : Steps Settled step .start es)
    (ht : Reached step .start es t) : Exact t :=
  (steps_reached (fun _ _ _ h hok hstep => step_inv h hok hstep) start_inv hsteps ht).exact

/-- The handler runs between two writes, and there is a mark with `TIOCPKT_FLUSHWRITE` later. -/
theorem reader_exact_flushed :
    ∃ t, run step .start [.next, .next, .next, .next, .read [104, 105], .next, .next, .next, .next,
        .write 1, .urgent ⟨[], some 0x80, false⟩, .next, .next, .next, .write 1, .next, .next, .next,
        .next, .next, .read [97], .urgent ⟨[[98]], some 0x02, false⟩, .next] = some t ∧
      t.written = [104, 105] ∧ Exact t := by
  have hsteps : Steps Settled step .start [.next, .next, .next, .next, .read [104, 105], .next,
      .next, .next, .next, .write 1, .urgent ⟨[], some 0x80, false⟩, .next, .next, .next, .write 1,
      .next, .next, .next, .next, .next, .read [97], .urgent ⟨[[98]], some 0x02, false⟩, .next] := by
    decide +kernel
  exact ⟨_, rfl, rfl, reader_exact hsteps ⟨_, List.prefix_rfl, rfl⟩⟩

/-- The reader waits for data, and a byte is before an urgent one that has not arrived yet: the
handler receives it into `rcvbuf`, jumps to the top, and it is not written. -/
theorem not_reader_exact :
    ¬ ∀ (es : List Event) (t : State), Reached step .start es t → Exact t := by
  intro h
  have hbytes := (h [.next, .next, .next, .next, .urgent ⟨[[65]], some 0x80, false⟩] _
    ⟨_, List.prefix_rfl, rfl⟩).bytes
  cases hbytes

end Netkit.Rlogin.Reader

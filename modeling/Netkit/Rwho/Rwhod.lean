import Netkit.Foundations.ByteOrder
import Netkit.Foundations.Memory
import Netkit.Foundations.Runs

/-!
# The packets of rwhod

* `Whod.hostOrder`: what the file is to hold. `handles_iff`: a short datagram needs a long `size_t`.
* `Call.entries`: what the packet is to say. `packets_right`: the calls with which it does.
-/

namespace Netkit.Rwho

open Netkit.Foundations

/-! ## Receiving -/

structure Whoent where
  outLine : Bytes
  outName : Bytes
  outTime : Bytes
  weIdle : Bytes

def Whoent.ofBytes (b : Bytes) : Whoent :=
  ⟨b.take 8, (b.drop 8).take 8, (b.drop 16).take 4, (b.drop 20).take 4⟩

def Whoent.bytes (e : Whoent) : Bytes := e.outLine ++ e.outName ++ e.outTime ++ e.weIdle

structure Whod where
  /-- `wd_vers`, `wd_type` and `wd_pad`. -/
  front : Bytes
  sendtime : Bytes
  recvtime : Bytes
  hostname : Bytes
  loadav : List Bytes
  boottime : Bytes
  we : List Whoent

/-- `sizeof(struct whod)`; `wd_we` has 42 elements. -/
def sizeofWhod : ℕ := 60 + 24 * 42

def Whod.ofBytes (b : Bytes) : Whod where
  front := b.take 4
  sendtime := (b.drop 4).take 4
  recvtime := (b.drop 8).take 4
  hostname := (b.drop 12).take 32
  loadav := [(b.drop 44).take 4, (b.drop 48).take 4, (b.drop 52).take 4]
  boottime := (b.drop 56).take 4
  we := (List.range 42).map fun i => .ofBytes ((b.drop (60 + 24 * i)).take 24)

def Whod.bytes (wd : Whod) : Bytes :=
  wd.front ++ wd.sendtime ++ wd.recvtime ++ wd.hostname ++ wd.loadav.flatten ++ wd.boottime ++
    wd.we.flatMap Whoent.bytes

/-- The bytes of a number, after `ntohl`. -/
def ntohl (order : ByteOrder) (b : Bytes) : Bytes := order.store 4 (word b)

def Whoent.ntohl (order : ByteOrder) (e : Whoent) : Whoent :=
  { e with weIdle := Rwho.ntohl order e.weIdle, outTime := Rwho.ntohl order e.outTime }

/-- The loop over the entries, from `i` on. -/
def swapEntries (order : ByteOrder) : ℕ → ℕ → List Whoent → Option (List Whoent)
  | 0, _, we => some we
  | n + 1, i, we =>
    match we[i]? with
    | none => none
    | some e => swapEntries order n (i + 1) (we.set i (e.ntohl order))

/-- `int n = (cc - WHDRSIZE)/sizeof(struct whoent)`, with a `size_t` of 64 or of 32 bits. -/
def entryCount (wide : Bool) (cc : ℕ) : ℤ :=
  (((cc : ℤ) - 60) % 2 ^ (if wide then 64 else 32) / 24).bmod (2 ^ 32)

/-- The characters are ASCII, alphanumeric or punctuation, and no slash. -/
def verify (name : Bytes) : Bool := name ≠ [] && name.all fun c => c ≠ 47 && 33 ≤ c && c ≤ 126

/-- What does not come with the datagram: whether it comes from the right port and the file can be
opened, and the clock. -/
structure Arrival where
  port : Bool
  opens : Bool
  now : ℕ

/-- The structure behind `recvfrom`, with the name terminated. -/
def Whod.received (dg : Bytes) : Whod :=
  let wd := Whod.ofBytes (dg ++ List.replicate (sizeofWhod - dg.length) 0)
  { wd with hostname := wd.hostname.take 31 ++ [0] }

def Whod.path (wd : Whod) : Bytes := ascii "whod." ++ cstring wd.hostname

/-- `write` and `ftruncate`. -/
def overwrite (old new : Bytes) : Bytes :=
  let file := new ++ old.drop new.length
  if new.length < file.length then file.take new.length else file

def receive (wide : Bool) (order : ByteOrder) (a : Arrival) (dg : Bytes)
    (files : Bytes → Option Bytes) : Option (Bytes → Option Bytes) :=
  let wd := Whod.received dg
  if a.port = false ∨ wd.front.take 2 ≠ [1, 1] ∨ verify (cstring wd.hostname) = false ∨
      a.opens = false
  then some files
  else do
    let we ← swapEntries order (entryCount wide dg.length).toNat 0 wd.we
    let wd := { wd with
      sendtime := ntohl order wd.sendtime, recvtime := order.store 4 a.now,
      loadav := wd.loadav.map (ntohl order), boottime := ntohl order wd.boottime, we := we }
    some (Function.update files wd.path
      (some (overwrite ((files wd.path).getD []) (wd.bytes.take dg.length))))

def Accepted (a : Arrival) (dg : Bytes) : Prop :=
  a.port = true ∧ a.opens = true ∧ (Whod.received dg).front.take 2 = [1, 1] ∧
    verify (cstring (Whod.received dg).hostname) = true

/-- The header and the complete ones of the entries in the order of the host, with a time stamp. -/
def Whod.hostOrder (order : ByteOrder) (now cc : ℕ) (wd : Whod) : Whod :=
  { wd with
    sendtime := Rwho.ntohl order wd.sendtime, recvtime := order.store 4 now,
    loadav := wd.loadav.map (Rwho.ntohl order), boottime := Rwho.ntohl order wd.boottime,
    we := wd.we.mapIdx fun i e => if 60 + 24 * (i + 1) ≤ cc then e.ntohl order else e }

/-- The file of the host, in the spool directory, has the datagram in the order of the host, and
nothing else. -/
def Handles (wide : Bool) (order : ByteOrder) (a : Arrival) (dg : Bytes)
    (files : Bytes → Option Bytes) : Prop :=
  ∃ files', receive wide order a dg files = some files' ∧ (¬ Accepted a dg → files' = files) ∧
    (Accepted a dg → 47 ∉ (Whod.received dg).path ∧ ∃ file, file.length = dg.length ∧
      file = (((Whod.received dg).hostOrder order a.now dg.length).bytes).take dg.length ∧
      files' = Function.update files (Whod.received dg).path (some file))

variable {order : ByteOrder} {wide : Bool} {a : Arrival} {dg : Bytes} {files : Bytes → Option Bytes}

theorem swapEntries_inside {n i : ℕ} {we : List Whoent} (h : i + n ≤ we.length) :
    swapEntries order n i we =
      some (we.mapIdx fun k e => if i ≤ k ∧ k < i + n then e.ntohl order else e) := by
  induction n generalizing i we with
  | zero =>
    have hid : (fun k (e : Whoent) => if i ≤ k ∧ k < i + 0 then e.ntohl order else e) =
        fun _ e => e := by
      funext k e
      exact if_neg (by omega)
    rw [swapEntries, hid]
    apply congrArg some
    ext1 k
    rw [List.getElem?_mapIdx, Option.map_id']
  | succ n ih =>
    rw [swapEntries, List.getElem?_eq_getElem (by omega)]
    dsimp only
    rw [ih (by rw [List.length_set]; omega)]
    congr 1
    ext1 k
    rw [List.getElem?_mapIdx, List.getElem?_mapIdx, List.getElem?_set]
    by_cases hk : i = k
    · subst hk
      have hi : i < we.length := by omega
      simp [hi]
    · rw [if_neg hk]
      have hiff : (i + 1 ≤ k ∧ k < i + 1 + n) ↔ (i ≤ k ∧ k < i + (n + 1)) := by omega
      simp only [hiff]

theorem swapEntries_outside {n i : ℕ} {we : List Whoent} (hi : i ≤ we.length)
    (h : we.length < i + n) : swapEntries order n i we = none := by
  induction n generalizing i we with
  | zero => omega
  | succ n ih =>
    rw [swapEntries]
    split
    · rfl
    · next e he =>
      obtain ⟨hlt, -⟩ := List.getElem?_eq_some_iff.mp he
      exact ih (by rw [List.length_set]; omega) (by rw [List.length_set]; omega)

theorem entryCount_long {cc : ℕ} (hcc : 60 ≤ cc) (hsize : cc ≤ sizeofWhod) :
    (entryCount wide cc).toNat = (cc - 60) / 24 := by
  unfold sizeofWhod at hsize
  have hmod (n : ℕ) (hn : 2 ^ 32 ≤ n) :
      (((cc : ℤ) - 60) % n / 24).bmod (2 ^ 32) = ((cc - 60) / 24 : ℕ) := by
    rw [Int.emod_eq_of_lt (by omega) (by omega), Int.bmod_eq_of_le (by omega) (by omega)]
    omega
  cases wide
  · exact congrArg Int.toNat (hmod (2 ^ 32) (by decide))
  · exact congrArg Int.toNat (hmod (2 ^ 64) (by decide))

theorem entryCount_short :
    ∀ cc < 60, (entryCount true cc).toNat = 0 ∧ 42 < (entryCount false cc).toNat := by
  decide

theorem received_we : (Whod.received dg).we.length = 42 := by
  simp [Whod.received, Whod.ofBytes]

theorem ntohl_length (b : Bytes) : (ntohl order b).length = 4 := order.store_length 4 _

theorem length_entries {we : List Whoent} (h : ∀ e ∈ we, e.bytes.length = 24) :
    (we.flatMap Whoent.bytes).length = we.length * 24 := by
  induction we with
  | nil => rfl
  | cons e we ih =>
    rw [List.flatMap_cons, List.length_append, h e List.mem_cons_self,
      ih fun e he => h e (List.mem_cons_of_mem _ he), List.length_cons]
    omega

theorem ofBytes_length (order : ByteOrder) {b : Bytes} (hb : b.length = 24) :
    (Whoent.ofBytes b).bytes.length = 24 ∧ ((Whoent.ofBytes b).ntohl order).bytes.length = 24 := by
  simp [Whoent.ofBytes, Whoent.bytes, Whoent.ntohl, ntohl_length, hb]

theorem hostOrder_length (hsize : dg.length ≤ sizeofWhod) (now cc : ℕ) :
    ((Whod.received dg).hostOrder order now cc).bytes.length = sizeofWhod := by
  have hb : (dg ++ List.replicate (sizeofWhod - dg.length) 0).length = sizeofWhod := by
    rw [List.length_append, List.length_replicate]
    omega
  have hentries : ∀ e ∈ ((Whod.received dg).hostOrder order now cc).we, e.bytes.length = 24 := by
    intro e he
    obtain ⟨i, hi, rfl⟩ := List.mem_iff_getElem.mp he
    simp only [Whod.hostOrder, List.length_mapIdx, received_we] at hi
    simp only [Whod.hostOrder, Whod.received, Whod.ofBytes, List.getElem_mapIdx, List.getElem_map,
      List.getElem_range]
    have hlength := ofBytes_length order
      (b := ((dg ++ List.replicate (sizeofWhod - dg.length) 0).drop (60 + 24 * i)).take 24)
      (by rw [List.length_take, List.length_drop, hb]; unfold sizeofWhod; omega)
    split
    · exact hlength.2
    · exact hlength.1
  rw [Whod.bytes, List.length_append, length_entries hentries]
  simp only [Whod.hostOrder, List.length_mapIdx, received_we]
  simp only [Whod.received, Whod.ofBytes, List.length_append, List.length_take, List.length_drop,
    hb, ntohl_length, order.store_length, List.map_cons, List.map_nil, List.flatten_cons,
    List.flatten_nil, List.length_singleton, List.length_nil]
  decide

theorem overwrite_eq (old new : Bytes) : overwrite old new = new := by
  unfold overwrite
  dsimp only
  split
  · exact List.take_left
  · next h =>
    rw [List.length_append] at h
    rw [List.eq_nil_of_length_eq_zero (l := old.drop new.length) (by omega), List.append_nil]

theorem path_of_verify {wd : Whod} (h : verify (cstring wd.hostname) = true) : 47 ∉ wd.path := by
  intro hmem
  rcases List.mem_append.mp hmem with hmem | hmem
  · exact absurd hmem (by decide)
  · have hall := List.all_eq_true.mp (Bool.and_eq_true _ _ ▸ h).2 47 hmem
    exact absurd hall (by decide)

/-- Every datagram is handled as it should be, but for one that is shorter than the header where
`size_t` has 32 bits. -/
theorem handles_iff (wide : Bool) (order : ByteOrder) (a : Arrival) (dg : Bytes)
    (hsize : dg.length ≤ sizeofWhod) (files : Bytes → Option Bytes) :
    Handles wide order a dg files ↔ wide = true ∨ ¬ Accepted a dg ∨ 60 ≤ dg.length := by
  have hrefused : (a.port = false ∨ (Whod.received dg).front.take 2 ≠ [1, 1] ∨
      verify (cstring (Whod.received dg).hostname) = false ∨ a.opens = false) ↔
        ¬ Accepted a dg := by
    unfold Accepted
    cases a.port <;> cases a.opens <;> cases verify (cstring (Whod.received dg).hostname) <;> simp
  by_cases haccepted : Accepted a dg
  · rw [Handles, receive, if_neg (hrefused.not.mpr (not_not.mpr haccepted))]
    by_cases hinside : wide = true ∨ 60 ≤ dg.length
    · refine iff_of_true ?_ (hinside.imp_right .inr)
      have hcount : (entryCount wide dg.length).toNat = (dg.length - 60) / 24 := by
        by_cases hcc : 60 ≤ dg.length
        · exact entryCount_long hcc hsize
        · rw [hinside.resolve_right hcc, (entryCount_short _ (Nat.lt_of_not_le hcc)).1]
          omega
      have hfits : 0 + (dg.length - 60) / 24 ≤ (Whod.received dg).we.length := by
        rw [received_we]
        unfold sizeofWhod at hsize
        omega
      have hcomplete (i : ℕ) :
          (0 ≤ i ∧ i < 0 + (dg.length - 60) / 24) ↔ 60 + 24 * (i + 1) ≤ dg.length := by
        omega
      rw [hcount, swapEntries_inside hfits]
      simp only [hcomplete, overwrite_eq]
      refine ⟨_, rfl, fun h => absurd haccepted h, fun _ =>
        ⟨path_of_verify haccepted.2.2.2, _, ?_, rfl, rfl⟩⟩
      rw [List.length_take, hostOrder_length hsize, Nat.min_eq_left hsize]
    · obtain ⟨hnarrow, hcc⟩ := not_or.mp hinside
      obtain rfl : wide = false := by simpa using hnarrow
      have houtside : swapEntries order (entryCount false dg.length).toNat 0
          (Whod.received dg).we = none := swapEntries_outside (Nat.zero_le _)
        (by rw [received_we, Nat.zero_add]; exact (entryCount_short _ (Nat.lt_of_not_le hcc)).2)
      rw [houtside]
      refine iff_of_false ?_ (by simp [haccepted, hcc])
      rintro ⟨files', hnone, -⟩
      exact absurd hnone nofun
  · refine iff_of_true ?_ (.inr (.inl haccepted))
    rw [Handles, receive, if_pos (hrefused.mpr haccepted)]
    exact ⟨files, rfl, fun _ => rfl, fun h => absurd h haccepted⟩

/-- A packet without users. -/
theorem handles_empty :
    Handles false .little ⟨true, true, 0⟩ (List.replicate 60 1) (fun _ => none) ↔
      false = true ∨ ¬ Accepted ⟨true, true, 0⟩ (List.replicate 60 1) ∨
        60 ≤ (List.replicate 60 (1 : UInt8)).length :=
  handles_iff _ _ _ _ (by decide) _

/-- The host name `a`, and nothing behind it. -/
theorem not_handles : ¬ ∀ (wide : Bool) (order : ByteOrder) (a : Arrival) (dg : Bytes)
    (files : Bytes → Option Bytes), 0 < dg.length → dg.length ≤ sizeofWhod →
      Handles wide order a dg files := by
  intro h
  have hhandles := h false .little ⟨true, true, 0⟩ [1, 1, 0, 0, 0, 0, 0, 0, 0, 0, 0, 0, 97]
    (fun _ => none)
    (by decide) (by decide)
  rw [handles_iff _ _ _ _ (by decide)] at hhandles
  have haccepted : Accepted ⟨true, true, 0⟩ [1, 1, 0, 0, 0, 0, 0, 0, 0, 0, 0, 0, 97] := by
    refine ⟨rfl, rfl, by decide, by decide⟩
  rcases hhandles with hwide | hnot | hcc
  · exact absurd hwide (by decide)
  · exact hnot haccepted
  · exact absurd hcc (by decide)

/-! ## Sending -/

structure Utmp where
  line : Bytes
  name : Bytes
  userProcess : Bool
  time : ℤ
  sizes : line.length = 32 ∧ name.length = 32

def htonl (v : ℤ) : Bytes := wordBytes 4 (v % 2 ^ 32).toNat

/-- What a call of `sendpacket` finds: utmp with its `stat`, the clock, and the time of access of a
terminal that can be examined. -/
structure Call where
  utmp : List Utmp
  mtime : ℤ
  size : ℤ
  now : ℤ
  atime : Bytes → Option ℤ

def Utmp.isUser (u : Utmp) : Bool := u.name.head? ≠ some 0 && u.userProcess

def entry (e : Utmp × Bytes) : Bytes :=
  e.1.line.take 8 ++ (e.1.name.take 8 ++ (htonl e.1.time ++ e.2))

/-- The static variables, and `wd_we`. `read` are the records in the entries, with their idle times,
and `sent` is the last packet; no code reads them. -/
structure State where
  we : Bytes
  nutmps : ℕ
  utmptime : ℤ
  utmpsize : ℤ
  read : List (Utmp × Bytes)
  sent : Option (Call × Bytes)

def State.start : State := ⟨List.replicate (24 * 42) 0, 0, 0, 0, [], none⟩

/-- The three copies into the entry `we`; the first two are longer than their fields. -/
def copyEntry (u : Utmp) (we : ℕ) (mem : Bytes) : Bytes :=
  let mem := store mem (24 * we) u.line
  let mem := store mem (24 * we + 8) u.name
  store mem (24 * we + 16) (htonl u.time)

/-- The loop over utmp; `wlast` is the last entry. -/
def readUtmp : List Utmp → ℕ → Bytes → Bytes × ℕ
  | [], we, mem => (mem, we)
  | u :: us, we, mem =>
    if we < 41 then
      if u.isUser then readUtmp us (we + 1) (copyEntry u we mem) else readUtmp us we mem
    else (mem, we)

def readIdle (c : Call) : ℕ → ℕ → Bytes → Bytes
  | 0, _, mem => mem
  | n + 1, i, mem =>
    readIdle c n (i + 1) (match c.atime (cstring (mem.drop (24 * i))) with
      | some atime => store mem (24 * i + 20) (htonl (c.now - atime))
      | none => mem)

def Rereads (s : State) (c : Call) : Prop := c.mtime ≠ s.utmptime ∨ s.utmpsize < c.size

instance (s : State) (c : Call) : Decidable (Rereads s c) := inferInstanceAs (Decidable (_ ∨ _))

def Call.users (c : Call) : List Utmp := (c.utmp.filter Utmp.isUser).take 41

def Call.idle (c : Call) (e : Utmp × Bytes) : Utmp × Bytes :=
  match c.atime (cstring (e.1.line.take 8)) with
  | some atime => (e.1, htonl (c.now - atime))
  | none => e

/-- The records in the entries before the terminals are examined: bytes of a name are left where the
idle time is to be. -/
def before (s : State) (c : Call) : List (Utmp × Bytes) :=
  if Rereads s c then c.users.map fun u => (u, slice u.name 12 16) else s.read

def sendpacket (s : State) (c : Call) : State :=
  let (we, nutmps) := if Rereads s c then readUtmp c.utmp 0 s.we else (s.we, s.nutmps)
  let we := readIdle c nutmps 0 we
  { we := we, nutmps := nutmps
    utmptime := if Rereads s c then c.mtime else s.utmptime
    utmpsize := if s.utmpsize < c.size then c.size + 10 * 384 else s.utmpsize
    read := (before s c).map c.idle, sent := some (c, we.take (24 * nutmps)) }

/-- What the packet is to say: an entry for each user, with the idle time if it can be found out. -/
def Call.entries (c : Call) : Bytes := c.users.flatMap fun u => entry (c.idle (u, [0, 0, 0, 0]))

/-- Utmp is read again if its users have changed, the names of the lines end in their fields, and
where a terminal cannot be examined, there is no idle time yet. -/
structure Clean (s : State) (c : Call) : Prop where
  fresh : (before s c).map Prod.fst = c.users
  line : ∀ u ∈ c.users, 0 ∈ u.line.take 8
  idle : ∀ e ∈ before s c, c.atime (cstring (e.1.line.take 8)) = none → e.2 = [0, 0, 0, 0]

/-! ## The entries in memory -/

variable {s : State} {c : Call} {u : Utmp}

theorem store_middle {a b b' rest : Bytes} {i : ℕ} (hi : i = a.length) (hb : b'.length = b.length) :
    store (a ++ (b ++ rest)) i b' = a ++ (b' ++ rest) := by
  subst hi
  rw [store_eq (by simp only [List.length_append]; omega), List.take_left, hb, ← List.drop_drop,
    List.drop_left, List.drop_left]

theorem length_htonl (v : ℤ) : (htonl v).length = 4 := wordBytes_length 4 _

theorem take_append_drop_append (n : ℕ) (b rest : Bytes) :
    b.take n ++ (b.drop n ++ rest) = b ++ rest := by
  rw [← List.append_assoc, List.take_append_drop]

theorem copyEntry_eq {a b rest : Bytes} {we : ℕ} (ha : a.length = 24 * we) (hb : b.length = 40) :
    copyEntry u we (a ++ (b ++ rest)) =
      a ++ (entry (u, slice u.name 12 16) ++ (u.name.drop 16 ++ rest)) := by
  obtain ⟨hline, hname⟩ := u.sizes
  have hfirst : store (a ++ (b ++ rest)) (24 * we) u.line =
      a ++ (u.line ++ (b.drop 32 ++ rest)) := by
    rw [← take_append_drop_append 32 b, store_middle ha.symm (by rw [List.length_take]; omega)]
  have hsecond : store (a ++ (u.line ++ (b.drop 32 ++ rest))) (24 * we + 8) u.name =
      a ++ (u.line.take 8 ++ (u.name ++ rest)) := by
    rw [← take_append_drop_append 8 u.line, ← List.append_assoc a,
      ← List.append_assoc (u.line.drop 8),
      store_middle, List.append_assoc]
    · rw [List.length_append, List.length_take]
      omega
    · rw [List.length_append, List.length_drop, List.length_drop]
      omega
  have hthird : store (a ++ (u.line.take 8 ++ (u.name ++ rest))) (24 * we + 16) (htonl u.time) =
      a ++ (u.line.take 8 ++ (u.name.take 8 ++ (htonl u.time ++ (u.name.drop 12 ++ rest)))) := by
    rw [← take_append_drop_append 8 u.name, ← take_append_drop_append 4 (u.name.drop 8),
      List.drop_drop,
      ← List.append_assoc (u.line.take 8), ← List.append_assoc a, store_middle, List.append_assoc,
      List.append_assoc]
    · simp only [List.length_append, List.length_take]
      omega
    · rw [length_htonl, List.length_take, List.length_drop]
      omega
  have hslice : u.name.drop 12 ++ rest = slice u.name 12 16 ++ (u.name.drop 16 ++ rest) := by
    rw [slice_add (n := 4), ← take_append_drop_append 4 (u.name.drop 12), List.drop_drop]
  rw [copyEntry, hfirst, hsecond, hthird, hslice, entry]
  simp only [List.append_assoc]

theorem length_entry {e : Utmp × Bytes} (he : e.2.length = 4) : (entry e).length = 24 := by
  obtain ⟨hline, hname⟩ := e.1.sizes
  simp only [entry, List.length_append, List.length_take, length_htonl, he]
  omega

theorem length_slice_name (u : Utmp) : (slice u.name 12 16).length = 4 := by
  rw [slice_length (by rw [u.sizes.2]; decide)]

theorem readUtmp_eq (us : List Utmp) {we : ℕ} {a m : Bytes} (ha : a.length = 24 * we)
    (hwe : we ≤ 41) (hm : a.length + m.length = 24 * 42) :
    let users := (us.filter Utmp.isUser).take (41 - we)
    ∃ rest, readUtmp us we (a ++ m) =
        (a ++ ((users.map fun u => (u, slice u.name 12 16)).flatMap entry ++ rest),
          we + users.length) ∧ (a ++ m).length =
        (a ++ ((users.map fun u => (u, slice u.name 12 16)).flatMap entry ++ rest)).length := by
  induction us generalizing we a m with
  | nil => exact ⟨m, by simp [readUtmp], by simp⟩
  | cons u us ih =>
    rw [readUtmp]
    by_cases hroom : we < 41
    · rw [if_pos hroom]
      by_cases hu : u.isUser = true
      · rw [if_pos hu, List.filter_cons_of_pos hu]
        obtain ⟨n, hn⟩ : ∃ n, 41 - we = n + 1 := ⟨40 - we, by omega⟩
        have hentry := length_entry (e := (u, slice u.name 12 16)) (length_slice_name u)
        have hcopy : copyEntry u we (a ++ (m.take 40 ++ m.drop 40)) = _ :=
          copyEntry_eq ha (by rw [List.length_take]; omega)
        rw [List.take_append_drop] at hcopy
        obtain ⟨rest, hrest, hlength⟩ := @ih (we + 1) (a ++ entry (u, slice u.name 12 16))
          (u.name.drop 16 ++ m.drop 40) (by rw [List.length_append]; omega) hroom
          (by simp only [List.length_append, List.length_drop, u.sizes.2]; omega)
        have hn' : 41 - (we + 1) = n := by omega
        rw [hn'] at hrest hlength
        refine ⟨rest, ?_, ?_⟩
        · rw [hcopy, ← List.append_assoc a, hrest, hn, List.take_succ_cons]
          simp only [List.map_cons, List.flatMap_cons, List.append_assoc, List.length_cons]
          congr 1
          omega
        · rw [hn, List.take_succ_cons]
          simp only [List.map_cons, List.flatMap_cons, List.append_assoc, List.length_append,
            List.length_drop, u.sizes.2] at hlength ⊢
          omega
      · rw [if_neg hu, List.filter_cons_of_neg hu]
        exact ih ha hwe hm
    · have hfull : 41 - we = 0 := by omega
      rw [if_neg hroom, hfull]
      exact ⟨m, by simp, by simp⟩

theorem cstring_of_mem {a : Bytes} (ha : 0 ∈ a) (b : Bytes) : cstring (a ++ b) = cstring a := by
  obtain ⟨x, y, rfl⟩ := List.append_of_mem ha
  rw [List.append_assoc, List.cons_append, cstring_append_zero, cstring_append_zero]

theorem length_idle (c : Call) {e : Utmp × Bytes} (he : e.2.length = 4) :
    (c.idle e).2.length = 4 := by
  unfold Call.idle
  split
  · exact length_htonl _
  · exact he

theorem readIdle_eq (c : Call) (es : List (Utmp × Bytes)) {i : ℕ} {a rest : Bytes}
    (ha : a.length = 24 * i)
    (hes : ∀ e ∈ es, 0 ∈ e.1.line.take 8 ∧ e.2.length = 4) :
    readIdle c es.length i (a ++ (es.flatMap entry ++ rest)) =
      a ++ ((es.map c.idle).flatMap entry ++ rest) := by
  induction es generalizing i a with
  | nil => rfl
  | cons e es ih =>
    obtain ⟨hline, hlength⟩ := hes e List.mem_cons_self
    have hentry := length_entry (length_idle c hlength)
    have hpath : cstring ((a ++ ((e :: es).flatMap entry ++ rest)).drop (24 * i)) =
        cstring (e.1.line.take 8) := by
      rw [List.drop_left' ha, List.flatMap_cons, entry, List.append_assoc, List.append_assoc,
        cstring_of_mem hline]
    have hstep : (match c.atime (cstring (e.1.line.take 8)) with
        | some atime =>
          store (a ++ ((e :: es).flatMap entry ++ rest)) (24 * i + 20) (htonl (c.now - atime))
        | none => a ++ ((e :: es).flatMap entry ++ rest)) =
          (a ++ entry (c.idle e)) ++ (es.flatMap entry ++ rest) := by
      unfold Call.idle
      cases c.atime (cstring (e.1.line.take 8)) with
      | none => simp only [List.flatMap_cons, List.append_assoc]
      | some atime =>
        obtain ⟨hl, hn⟩ := e.1.sizes
        have hsplit : a ++ ((e :: es).flatMap entry ++ rest) =
            (a ++ (e.1.line.take 8 ++ (e.1.name.take 8 ++ htonl e.1.time))) ++
              (e.2 ++ (es.flatMap entry ++ rest)) := by
          simp only [List.flatMap_cons, entry, List.append_assoc]
        dsimp only
        rw [hsplit, store_middle]
        · simp only [entry, List.append_assoc]
        · simp only [List.length_append, List.length_take, length_htonl]
          omega
        · rw [length_htonl, hlength]
    rw [List.length_cons, readIdle, hpath, hstep, ih (by rw [List.length_append]; omega)
      fun e he => hes e (List.mem_cons_of_mem _ he), List.map_cons, List.flatMap_cons,
      List.append_assoc,
      List.append_assoc]

/-- The entries are in memory. -/
structure Held (s : State) : Prop where
  held : ∃ rest, s.we = s.read.flatMap entry ++ rest
  count : s.nutmps = s.read.length
  size : s.we.length = 24 * 42
  idles : ∀ e ∈ s.read, e.2.length = 4

theorem idle_right {e : Utmp × Bytes}
    (he : c.atime (cstring (e.1.line.take 8)) = none → e.2 = [0, 0, 0, 0]) :
    c.idle e = c.idle (e.1, [0, 0, 0, 0]) := by
  unfold Call.idle
  dsimp only
  cases h : c.atime (cstring (e.1.line.take 8)) with
  | none => exact Prod.ext rfl (he h)
  | some atime => rfl

theorem length_flatMap_entry {es : List (Utmp × Bytes)} (hes : ∀ e ∈ es, e.2.length = 4) :
    (es.flatMap entry).length = 24 * es.length := by
  induction es with
  | nil => rfl
  | cons e es ih =>
    rw [List.flatMap_cons, List.length_append, length_entry (hes e List.mem_cons_self),
      ih fun e he => hes e (List.mem_cons_of_mem _ he), List.length_cons]
    omega

theorem before_held (H : Held s) (c : Call) :
    ∃ rest, (if Rereads s c then readUtmp c.utmp 0 s.we else (s.we, s.nutmps)) =
        ((before s c).flatMap entry ++ rest, (before s c).length) ∧
      ((before s c).flatMap entry ++ rest).length = 24 * 42 ∧ ∀ e ∈ before s c, e.2.length = 4 := by
  unfold before
  split
  · obtain ⟨rest, hread, hlength⟩ := @readUtmp_eq c.utmp 0 [] s.we rfl (by decide)
      (by rw [H.size]; rfl)
    refine ⟨rest, ?_, hlength.symm.trans H.size, fun e he => ?_⟩
    · rw [List.length_map]
      exact hread.trans (congrArg (Prod.mk _) (Nat.zero_add _))
    · obtain ⟨u, -, rfl⟩ := List.mem_map.mp he
      exact length_slice_name u
  · obtain ⟨rest, hheld⟩ := H.held
    exact ⟨rest, Prod.ext hheld H.count, hheld ▸ H.size, H.idles⟩

theorem sendpacket_spec (H : Held s) (C : Clean s c) :
    Held (sendpacket s c) ∧ (sendpacket s c).sent = some (c, c.entries) := by
  obtain ⟨rest, hbefore, hsize, hidles⟩ := before_held H c
  have hline : ∀ e ∈ before s c, 0 ∈ e.1.line.take 8 ∧ e.2.length = 4 := by
    intro e he
    exact ⟨C.line e.1 (C.fresh ▸ List.mem_map_of_mem he), hidles e he⟩
  have hread : readIdle c (before s c).length 0 ((before s c).flatMap entry ++ rest) =
      ((before s c).map c.idle).flatMap entry ++ rest :=
    readIdle_eq c (before s c) (a := []) rfl hline
  have hidles' : ∀ e ∈ (before s c).map c.idle, e.2.length = 4 := by
    intro e he
    obtain ⟨e', he', rfl⟩ := List.mem_map.mp he
    exact length_idle c (hidles e' he')
  have hlength := length_flatMap_entry hidles'
  have hlength' := length_flatMap_entry hidles
  rw [List.length_map] at hlength
  have hentries : ((before s c).map c.idle).flatMap entry = c.entries := by
    rw [Call.entries, ← C.fresh, List.flatMap_map, List.flatMap_map]
    apply List.flatMap_congr
    intro e he
    rw [idle_right (C.idle e he)]
  unfold sendpacket
  rw [hbefore]
  dsimp only
  rw [hread]
  refine ⟨⟨⟨rest, rfl⟩, (List.length_map c.idle).symm, ?_, hidles'⟩, ?_⟩
  · rw [← hsize, List.length_append, List.length_append, hlength, hlength']
  · rw [← hentries, ← hlength, List.take_left]

/-- The packets of calls that find things so say what they are to say. -/
theorem packets_right (calls : List Call)
    (h : Steps Clean (fun s c => some (sendpacket s c)) State.start calls) {s : State}
    (hs : Reached (fun s c => some (sendpacket s c)) State.start calls s) {c : Call}
    {packet : Bytes} (hsent : s.sent = some (c, packet)) : packet = c.entries := by
  have hstart : Held State.start :=
    ⟨⟨State.start.we, rfl⟩, rfl, List.length_replicate, fun e he => absurd he List.not_mem_nil⟩
  have hreached := steps_reached
    (I := fun s => Held s ∧ ∀ c packet, s.sent = some (c, packet) → packet = c.entries)
    (fun s c t hI C ht => by
      obtain rfl := Option.some.inj ht
      obtain ⟨hheld, hright⟩ := sendpacket_spec hI.1 C
      refine ⟨hheld, fun c' packet hsent => ?_⟩
      obtain ⟨rfl, rfl⟩ := Prod.mk.inj (Option.some.inj (hright.symm.trans hsent))
      rfl) ⟨hstart, nofun⟩ h hs
  exact hreached.2 c packet hsent

/-- A user on `tty1`, with a name of 13 letters. -/
def oneUser (atime : Option ℤ) : Call where
  utmp := [⟨ascii "tty1" ++ List.replicate 28 0, List.replicate 13 97 ++ List.replicate 19 0,
    true, 5, by decide⟩]
  mtime := 1
  size := 384
  now := 9
  atime _ := atime

theorem packets_right_one : ∃ packet, (sendpacket State.start (oneUser (some 2))).sent =
    some (oneUser (some 2), packet) ∧ packet = (oneUser (some 2)).entries := by
  have hclean : Clean State.start (oneUser (some 2)) :=
    ⟨rfl, by decide, fun _ _ h => absurd h nofun⟩
  exact ⟨_, rfl, packets_right [oneUser (some 2)] ⟨hclean, fun _ _ => trivial⟩
    (reached_cons rfl (reached_start _ _)) rfl⟩

/-- The terminal cannot be examined: the 13th letter stays where the idle time should be. -/
theorem not_packets_right :
    ¬ ∀ (calls : List Call) (s : State),
      Reached (fun s c => some (sendpacket s c)) State.start calls s →
      ∀ c packet, s.sent = some (c, packet) → packet = c.entries := by
  intro h
  have hright := h [oneUser none] _ (reached_cons rfl (reached_start _ _)) _ _ rfl
  exact absurd hright (by decide +kernel)

end Netkit.Rwho

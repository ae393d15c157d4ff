import Netkit.Foundations.Runs
import Netkit.Rusersd.Procedures

/-!
# What rusersd replies

A request should be answered from utmp alone. For the lists this is so: the static arrays are
filled up to the length of the list, whatever an earlier request has left in them. The counter
of `rusers_num` is not set back, so a count is right exactly when the counts before it came to
nothing.

* `answered_iff_fresh`: all replies are as expected exactly when each count is a first one.
-/

namespace Netkit.Rusersd

open Netkit.Foundations

variable {z : Sizes}

/-! ## What is expected -/

/-- At most `len` bytes of the string, in a field of `size` bytes. -/
def padded (size len : Nat) (s : Bytes) : Bytes :=
  s.take len ++ List.replicate (size - (s.take len).length) 0

def names3Of (idle : Getidle) (u : Utmp z) : Names3 where
  user := u.name.value
  line := u.line.value
  host := u.host.value
  type := RUSERS_USER_PROCESS
  time := u.time
  idle := idle u.line.memory u.host.memory

def names2Of (idle : Getidle) (u : Utmp z) : UtmpIdle where
  utTime := u.time
  utLine := padded z.ruLine (z.ruLine - 1) u.line.value
  utName := padded z.ruName z.ruName u.name.value
  utHost := padded z.ruHost (z.ruHost - 1) u.host.value
  uiIdle := idle u.line.memory u.host.memory

def listed (utmp : List (Utmp z)) : List (Utmp z) := (utmp.filter qualifies).take z.maxUsers

def expectedNum (r : Request z) : Reply := .num (r.utmp.countP qualifies)

def expectedNames3 (r : Request z) : Reply := .names3 ((listed r.utmp).map (names3Of r.idle))

def expectedNames2 (r : Request z) : Reply := .names2 ((listed r.utmp).map (names2Of r.idle))

def expected (r : Request z) : Reply :=
  if r.proc = NULLPROC then .void
  else if r.proc ≠ RUSERSPROC_NUM ∧ r.proc ≠ RUSERSPROC_NAMES ∧ r.proc ≠ RUSERSPROC_ALLNAMES then
    .noproc
  else if r.vers ≠ RUSERSVERS_3 ∧ r.vers ≠ RUSERSVERS_IDLE then .progvers
  else if r.decoded = false then .decode
  else if r.proc = RUSERSPROC_NUM then expectedNum r
  else if r.vers = RUSERSVERS_3 then expectedNames3 r
  else expectedNames2 r

/-! ## Strings in fields -/

theorem strncpy_eq (n : Nat) (src : Bytes) : strncpy n src = padded n n (cstring src) := rfl

theorem length_padded {size len : Nat} (h : len ≤ size) (s : Bytes) :
    (padded size len s).length = size := by
  rw [padded, List.length_append, List.length_replicate, List.length_take]
  omega

theorem padded_set (n : Nat) (s : Bytes) : (padded n n s).set (n - 1) 0 = padded n (n - 1) s := by
  refine List.ext_getElem? (fun i => ?_)
  rw [padded, padded, List.getElem?_set]
  simp only [List.getElem?_append, List.getElem?_take, List.getElem?_replicate, List.length_append,
    List.length_take, List.length_replicate]
  grind

theorem cstring_padded {size len : Nat} {s : Bytes} (hs : (0 : UInt8) ∉ s) :
    cstring (padded size len s) = s.take len := by
  have htake : (0 : UInt8) ∉ s.take len := fun h => hs ((List.take_prefix len s).mem h)
  rw [padded, cstring_append htake]
  cases size - (s.take len).length with
  | zero => exact List.append_nil _
  | succ k => exact List.append_nil _

theorem take_memory {size len : Nat} (f : Field size) (h : len ≤ size) :
    (cstring f.memory).take len = f.value.take len := by
  have hfield : f.memory.take size = f.bytes := List.take_left' f.length_eq
  have hlen : len = min len size := (Nat.min_eq_left h).symm
  rw [Field.value, ← hfield, cstring_take, List.take_take, ← hlen]

theorem copyField_value {size : Nat} (f : Field size) :
    cstring (copyField size f.memory) = f.value := by
  have hset : (padded (size + 1) (size + 1) (cstring f.memory)).set size 0 =
      padded (size + 1) size (cstring f.memory) := padded_set (size + 1) _
  have hagain : (padded (size + 1) size (cstring f.memory)).set size 0 =
      padded (size + 1) size (cstring f.memory) := by
    rw [← hset, List.set_set]
  rw [copyField, strncpy_eq, hset, hagain, cstring_padded (zero_not_mem_cstring _),
    take_memory f (Nat.le_refl size)]
  have hshort : (cstring f.bytes).length ≤ f.bytes.length := (List.takeWhile_prefix _).length_le
  exact List.take_of_length_le (Nat.le_trans hshort (Nat.le_of_eq f.length_eq))

theorem padded_memory {size len : Nat} (n : Nat) (f : Field size) (h : len ≤ size) :
    padded n len (cstring f.memory) = padded n len f.value := by
  rw [padded, padded, take_memory f h]

/-! ## The lists -/

/-- The pointer is that of the element `i`, or null. -/
def Owns (i : Nat) (pointer : Option Nat) : Prop := ∀ j ∈ pointer, j = i

/-- The arrays have their sizes, and every element points to what has its own index. -/
structure Shaped (z : Sizes) (s : Statics) : Prop where
  utmps : s.utmps.length = z.maxUsers
  line : s.line.length = z.maxUsers
  name : s.name.length = z.maxUsers
  host : s.host.length = z.maxUsers
  utmpIdle : s.utmpIdle.length = z.maxUsers
  utmpIdlep : s.utmpIdlep.length = z.maxUsers
  own3 : ∀ i u, s.utmps[i]? = some u → Owns i u.utLine ∧ Owns i u.utUser ∧ Owns i u.utHost
  own2 : ∀ i p, s.utmpIdlep[i]? = some p → Owns i p

theorem owns_none (i : Nat) : Owns i none := fun _ hj => nomatch hj

theorem owns_some (i : Nat) : Owns i (some i) := fun _ hj => (Option.some.inj hj).symm

theorem shaped_start (z : Sizes) : Shaped z (Statics.start z) := by
  refine ⟨List.length_replicate, List.length_replicate, List.length_replicate,
    List.length_replicate, List.length_replicate, List.length_replicate, ?_, ?_⟩
  · intro i u hu
    obtain rfl := List.eq_of_mem_replicate (List.mem_of_getElem? hu)
    exact ⟨owns_none i, owns_none i, owns_none i⟩
  · intro i p hp
    obtain rfl := List.eq_of_mem_replicate (List.mem_of_getElem? hp)
    exact owns_none i

variable {s : Statics}

theorem shaped_fill3 (h : Shaped z s) (idle : Getidle) (n : Nat) (u : Utmp z) :
    Shaped z (fill3 idle n u s) := by
  refine ⟨List.length_set.trans h.utmps, List.length_set.trans h.line,
    List.length_set.trans h.name, List.length_set.trans h.host, h.utmpIdle, h.utmpIdlep, ?_,
    h.own2⟩
  intro i v hget
  have hv : (s.utmps.set n ⟨RUSERS_USER_PROCESS, u.time, idle u.line.memory u.host.memory, some n,
    some n, some n⟩)[i]? = some v := hget
  rw [List.getElem?_set] at hv
  split at hv
  · next heq =>
    subst heq
    split at hv
    · obtain rfl := Option.some.inj hv
      exact ⟨owns_some n, owns_some n, owns_some n⟩
    · cases hv
  · exact h.own3 i v hv

theorem shaped_fill2 (h : Shaped z s) (idle : Getidle) (n : Nat) (u : Utmp z) :
    Shaped z (fill2 idle n u s) := by
  refine ⟨h.utmps, h.line, h.name, h.host, List.length_set.trans h.utmpIdle,
    List.length_set.trans h.utmpIdlep, h.own3, ?_⟩
  intro i p hget
  have hp : (s.utmpIdlep.set n (some n))[i]? = some p := hget
  rw [List.getElem?_set] at hp
  split at hp
  · next heq =>
    subst heq
    split at hp
    · obtain rfl := Option.some.inj hp
      exact owns_some n
    · cases hp
  · exact h.own2 i p hp

theorem stringAt_self {strings : List Bytes} {n : Nat} (hn : n < strings.length) (b : Bytes) :
    stringAt (strings.set n b) (some n) = cstring b := by
  rw [stringAt, Option.elim_some, List.getD_eq_getElem?_getD, List.getElem?_set_self hn,
    Option.getD_some]

theorem stringAt_other {i n : Nat} {pointer : Option Nat} (hown : Owns i pointer) (hne : i ≠ n)
    (strings : List Bytes) (b : Bytes) :
    stringAt (strings.set n b) pointer = stringAt strings pointer := by
  cases pointer with
  | none => rfl
  | some j =>
    obtain rfl := hown j rfl
    rw [stringAt, stringAt, Option.elim_some, Option.elim_some, List.getD_eq_getElem?_getD,
      List.getD_eq_getElem?_getD, List.getElem?_set_ne (Ne.symm hne)]

theorem entry3_self (h : Shaped z s) (idle : Getidle) {n : Nat} (hn : n < z.maxUsers) (u : Utmp z) :
    entry3 (fill3 idle n u s) n = names3Of idle u := by
  have hget : (fill3 idle n u s).utmps.getD n ⟨0, 0, 0, none, none, none⟩ =
      ⟨RUSERS_USER_PROCESS, u.time, idle u.line.memory u.host.memory, some n, some n, some n⟩ := by
    rw [List.getD_eq_getElem?_getD]
    exact congrArg (Option.getD · _) (List.getElem?_set_self (h.utmps ▸ hn))
  have hname : stringAt (fill3 idle n u s).name (some n) = u.name.value :=
    (stringAt_self (h.name ▸ hn) _).trans (copyField_value u.name)
  have hline : stringAt (fill3 idle n u s).line (some n) = u.line.value :=
    (stringAt_self (h.line ▸ hn) _).trans (copyField_value u.line)
  have hhost : stringAt (fill3 idle n u s).host (some n) = u.host.value :=
    (stringAt_self (h.host ▸ hn) _).trans (copyField_value u.host)
  rw [entry3, hget]
  dsimp only
  rw [hname, hline, hhost]
  rfl

theorem entry3_other (h : Shaped z s) (idle : Getidle) {i n : Nat} (hne : i ≠ n) (u : Utmp z) :
    entry3 (fill3 idle n u s) i = entry3 s i := by
  have hget : (fill3 idle n u s).utmps[i]? = s.utmps[i]? := List.getElem?_set_ne (Ne.symm hne)
  unfold entry3
  rw [List.getD_eq_getElem?_getD, List.getD_eq_getElem?_getD, hget]
  cases hu : s.utmps[i]? with
  | none => rfl
  | some v =>
    obtain ⟨hline, huser, hhost⟩ := h.own3 i v hu
    have hname := stringAt_other huser hne s.name (copyField z.utName u.name.memory)
    have hline := stringAt_other hline hne s.line (copyField z.utLine u.line.memory)
    have hhost := stringAt_other hhost hne s.host (copyField z.utHost u.host.memory)
    dsimp only [Option.getD_some, fill3]
    rw [hname, hline, hhost]

theorem entry2_self (h : Shaped z s) (idle : Getidle) {n : Nat} (hn : n < z.maxUsers) (u : Utmp z) :
    entry2 (fill2 idle n u s) n = names2Of idle u := by
  have hline : doStrncpy z.ruLine u.line.memory = padded z.ruLine (z.ruLine - 1) u.line.value := by
    rw [doStrncpy, strncpy_eq, padded_set,
      padded_memory _ _ (Nat.sub_le_of_le_add z.ruLine_le)]
  have hname : strncpy z.ruName u.name.memory = padded z.ruName z.ruName u.name.value := by
    rw [strncpy_eq, padded_memory _ _ z.ruName_le]
  have hhost : doStrncpy z.ruHost u.host.memory = padded z.ruHost (z.ruHost - 1) u.host.value := by
    rw [doStrncpy, strncpy_eq, padded_set,
      padded_memory _ _ (Nat.sub_le_of_le_add z.ruHost_le)]
  unfold entry2 fill2
  dsimp only
  rw [List.getD_eq_getElem?_getD, List.getElem?_set_self (h.utmpIdlep ▸ hn), Option.getD_some,
    Option.bind_some, List.getElem?_set_self (h.utmpIdle ▸ hn), Option.getD_some, hline, hname,
    hhost]
  rfl

theorem entry2_other (h : Shaped z s) (idle : Getidle) {i n : Nat} (hne : i ≠ n) (u : Utmp z) :
    entry2 (fill2 idle n u s) i = entry2 s i := by
  unfold entry2 fill2
  dsimp only
  rw [List.getD_eq_getElem?_getD, List.getD_eq_getElem?_getD,
    List.getElem?_set_ne (Ne.symm hne)]
  cases hp : s.utmpIdlep[i]? with
  | none => rfl
  | some p =>
    cases p with
    | none => rfl
    | some j =>
      obtain rfl := h.own2 i (some j) hp j rfl
      rw [Option.getD_some, Option.bind_some, Option.bind_some,
        List.getElem?_set_ne (Ne.symm hne)]

theorem namesLoop_spec {E : Type} (fill : Nat → Utmp z → Statics → Statics)
    (entry : Statics → Nat → E) (entryOf : Utmp z → E)
    (hshaped : ∀ s n u, Shaped z s → Shaped z (fill n u s))
    (hself : ∀ s n u, Shaped z s → n < z.maxUsers → entry (fill n u s) n = entryOf u)
    (hother : ∀ s i n u, Shaped z s → i ≠ n → entry (fill n u s) i = entry s i)
    (us : List (Utmp z)) (n : Nat) (h : Shaped z s) :
    Shaped z (namesLoop fill us n s).2 ∧
      (List.range (namesLoop fill us n s).1).map (entry (namesLoop fill us n s).2) =
        (List.range n).map (entry s) ++
          ((us.filter qualifies).take (z.maxUsers - n)).map entryOf := by
  induction us generalizing n s with
  | nil =>
    refine ⟨h, ?_⟩
    rw [List.filter_nil, List.take_nil, List.map_nil, List.append_nil]
    rfl
  | cons u us ih =>
    rw [namesLoop]
    by_cases hn : n < z.maxUsers
    · rw [if_pos hn]
      by_cases hu : qualifies u = true
      · obtain ⟨hshape, hlist⟩ := ih (n + 1) (hshaped s n u h)
        have hbefore : (List.range n).map (entry (fill n u s)) = (List.range n).map (entry s) := by
          refine List.map_congr_left (fun i hi => hother s i n u h ?_)
          exact Nat.ne_of_lt (List.mem_range.mp hi)
        have hroom : z.maxUsers - n = z.maxUsers - (n + 1) + 1 := by omega
        rw [if_pos hu]
        refine ⟨hshape, hlist.trans ?_⟩
        rw [List.range_succ, List.map_append, hbefore, List.map_singleton, hself s n u h hn,
          List.filter_cons_of_pos hu, hroom, List.take_succ_cons, List.map_cons,
          List.append_assoc, List.singleton_append]
      · rw [if_neg hu, List.filter_cons_of_neg hu]
        exact ih n h
    · have hfull : z.maxUsers - n = 0 := by omega
      rw [if_neg hn, hfull, List.take_zero, List.map_nil, List.append_nil]
      exact ⟨h, rfl⟩

theorem namesLoop_numUsers (fill : Nat → Utmp z → Statics → Statics)
    (hfill : ∀ s n u, (fill n u s).numUsers = s.numUsers) (us : List (Utmp z)) (n : Nat)
    (s : Statics) : (namesLoop fill us n s).2.numUsers = s.numUsers := by
  induction us generalizing n s with
  | nil => rfl
  | cons u us ih =>
    rw [namesLoop]
    split
    · split
      · exact (ih (n + 1) _).trans (hfill s n u)
      · exact ih n s
    · rfl

/-- The reply is as expected, and the counter is left alone. -/
structure Answers (r : Request z) (s : Statics) (reply : Reply) (result : Reply × Statics) :
    Prop where
  reply : result.1 = reply
  shaped : Shaped z result.2
  numUsers : result.2.numUsers = s.numUsers

theorem names3_expected (r : Request z) (h : Shaped z s) :
    Answers r s (expectedNames3 r) (replyNames3 r s) := by
  obtain ⟨hshape, hlist⟩ := namesLoop_spec (fill3 r.idle) entry3 (names3Of r.idle)
    (fun _ n u h => shaped_fill3 h r.idle n u) (fun _ _ u h hn => entry3_self h r.idle hn u)
    (fun _ _ _ u h hne => entry3_other h r.idle hne u) r.utmp 0 h
  exact ⟨congrArg Reply.names3 hlist, hshape,
    namesLoop_numUsers (fill3 r.idle) (fun _ _ _ => rfl) _ _ _⟩

theorem names2_expected (r : Request z) (h : Shaped z s) :
    Answers r s (expectedNames2 r) (replyNames2 r s) := by
  obtain ⟨hshape, hlist⟩ := namesLoop_spec (fill2 r.idle) entry2 (names2Of r.idle)
    (fun _ n u h => shaped_fill2 h r.idle n u) (fun _ _ u h hn => entry2_self h r.idle hn u)
    (fun _ _ _ u h hne => entry2_other h r.idle hne u) r.utmp 0 h
  exact ⟨congrArg Reply.names2 hlist, hshape,
    namesLoop_numUsers (fill2 r.idle) (fun _ _ _ => rfl) _ _ _⟩

/-! ## The count -/

/-- The value is that of an `int`. -/
def IsInt (n : Int) : Prop := Int.bmod n (2 ^ 32) = n

theorem isInt_bmod (n : Int) : IsInt (Int.bmod n (2 ^ 32)) := Int.bmod_bmod

theorem rusersNum_eq (utmp : List (Utmp z)) {s : Statics} (h : IsInt s.numUsers) :
    rusersNum utmp s =
      { s with numUsers := Int.bmod (s.numUsers + utmp.countP qualifies) (2 ^ 32) } := by
  induction utmp generalizing s with
  | nil =>
    rw [List.countP_nil, Int.natCast_zero, Int.add_zero, h]
    rfl
  | cons u us ih =>
    unfold rusersNum at ih ⊢
    rw [List.foldl_cons]
    by_cases hu : qualifies u = true
    · have hnext : IsInt (increment s.numUsers) := isInt_bmod _
      have hadd : Int.bmod (increment s.numUsers + us.countP qualifies) (2 ^ 32) =
          Int.bmod (s.numUsers + (us.countP qualifies + 1 : Nat)) (2 ^ 32) := by
        rw [increment, Int.bmod_add_bmod, Int.natCast_succ, Int.add_assoc,
          Int.add_comm 1]
      rw [if_pos hu, ih (s := { s with numUsers := increment s.numUsers }) hnext,
        List.countP_cons_of_pos hu]
      dsimp only
      rw [hadd]
    · rw [if_neg hu, ih h, List.countP_cons_of_neg hu]

/-- The count is right if it starts at zero and is an `int`. -/
theorem count_right_iff {n : Int} (hn : IsInt n) (k : Nat) :
    Int.bmod (n + k) (2 ^ 32) = k ↔ n = 0 ∧ k < 2 ^ 31 := by
  unfold IsInt at hn
  rw [Int.bmod_def] at hn ⊢
  constructor
  · intro h
    split at hn <;> split at h <;> omega
  · rintro ⟨rfl, hk⟩
    split <;> omega

/-! ## Requests -/

def Request.counts (r : Request z) : Prop :=
  r.proc = RUSERSPROC_NUM ∧ (r.vers = RUSERSVERS_3 ∨ r.vers = RUSERSVERS_IDLE) ∧ r.decoded = true

instance (r : Request z) : Decidable r.counts := inferInstanceAs (Decidable (_ ∧ (_ ∨ _) ∧ _))

theorem service_counts {r : Request z} (h : r.counts) (s : Statics) :
    rusersService r s = replyNum r s ∧ expected r = expectedNum r := by
  obtain ⟨hproc, hvers, hdecoded⟩ := h
  have hknown : ¬ (r.vers ≠ RUSERSVERS_3 ∧ r.vers ≠ RUSERSVERS_IDLE) :=
    fun hne => hvers.elim hne.1 hne.2
  constructor
  · rw [rusersService, hproc, if_neg (by decide), if_pos rfl, if_pos hvers, call, if_pos hdecoded]
  · rw [expected, hproc, if_neg (by decide), if_neg (by decide), if_neg hknown, hdecoded,
      if_neg (by decide), if_pos rfl]

theorem service_expected {r : Request z} (h : Shaped z s) (hcounts : ¬ r.counts) :
    Answers r s (expected r) (rusersService r s) := by
  have hquiet (reply : Reply) : Answers r s reply (reply, s) := ⟨rfl, h, rfl⟩
  by_cases hnull : r.proc = NULLPROC
  · rw [rusersService, if_pos hnull, expected, if_pos hnull]
    exact hquiet _
  by_cases hproc : r.proc ≠ RUSERSPROC_NUM ∧ r.proc ≠ RUSERSPROC_NAMES ∧ r.proc ≠ RUSERSPROC_ALLNAMES
  · rw [rusersService, if_neg hnull, if_neg hproc.1, if_neg (not_or.mpr hproc.2), expected,
      if_neg hnull, if_pos hproc]
    exact hquiet _
  by_cases hvers : r.vers ≠ RUSERSVERS_3 ∧ r.vers ≠ RUSERSVERS_IDLE
  · have hservice : rusersService r s = (.progvers, s) := by
      rw [rusersService, if_neg hnull, if_neg (not_or.mpr hvers), if_neg hvers.1, if_neg hvers.2]
      by_cases hnum : r.proc = RUSERSPROC_NUM
      · rw [if_pos hnum]
      · have hnames : r.proc = RUSERSPROC_NAMES ∨ r.proc = RUSERSPROC_ALLNAMES := by
          by_contra hne
          exact hproc ⟨hnum, not_or.mp hne⟩
        rw [if_neg hnum, if_pos hnames]
    rw [hservice, expected, if_neg hnull, if_neg hproc, if_pos hvers]
    exact hquiet _
  have hknown : r.vers = RUSERSVERS_3 ∨ r.vers = RUSERSVERS_IDLE := by
    by_contra hne
    exact hvers (not_or.mp hne)
  have hexpected : expected r = if r.decoded = false then .decode
      else if r.proc = RUSERSPROC_NUM then expectedNum r
      else if r.vers = RUSERSVERS_3 then expectedNames3 r else expectedNames2 r := by
    rw [expected, if_neg hnull, if_neg hproc, if_neg hvers]
  by_cases hnum : r.proc = RUSERSPROC_NUM
  · have hdecoded : r.decoded = false :=
      Bool.eq_false_iff.mpr (fun hd => hcounts ⟨hnum, hknown, hd⟩)
    rw [hexpected, if_pos hdecoded, rusersService, if_neg hnull, if_pos hnum, if_pos hknown, call,
      hdecoded, if_neg Bool.false_ne_true]
    exact hquiet _
  have hnames : r.proc = RUSERSPROC_NAMES ∨ r.proc = RUSERSPROC_ALLNAMES := by
    by_contra hne
    exact hproc ⟨hnum, not_or.mp hne⟩
  rw [rusersService, if_neg hnull, if_neg hnum, if_pos hnames, hexpected, if_neg hnum, call, call]
  cases r.decoded with
  | false =>
    rw [if_pos rfl, if_neg Bool.false_ne_true, if_neg Bool.false_ne_true]
    rcases hknown with hthree | hidle
    · rw [if_pos hthree]
      exact hquiet _
    · rw [if_pos hidle, ite_self]
      exact hquiet _
  | true =>
    rw [if_neg (by decide), if_pos rfl, if_pos rfl]
    by_cases hthree : r.vers = RUSERSVERS_3
    · rw [if_pos hthree, if_pos hthree]
      exact names3_expected r h
    · rw [if_neg hthree, if_neg hthree, if_pos (hknown.resolve_left hthree)]
      exact names2_expected r h

/-! ## The server -/

/-- A process of rusersd. Started by inetd, it exits when it has served one request. -/
structure Server (z : Sizes) where
  fromInetd : Bool
  statics : Statics
  exited : Bool
  /-- The last request, and its reply. -/
  last : Option (Request z × Reply)

def Server.start (z : Sizes) (fromInetd : Bool) : Server z := ⟨fromInetd, .start z, false, none⟩

def serverStep (p : Server z) (r : Request z) : Option (Server z) :=
  if p.exited then none
  else
    let result := rusersService r p.statics
    some { p with statics := result.2, exited := p.fromInetd, last := some (r, result.1) }

def Server.Answered (p : Server z) : Prop := ∀ q ∈ p.last, q.2 = expected q.1

def Fresh (p : Server z) (r : Request z) : Prop :=
  p.exited = false → r.counts → p.statics.numUsers = 0 ∧ r.utmp.countP qualifies < 2 ^ 31

/-- What holds of a server whose counts have been right. -/
structure Sound (p : Server z) : Prop where
  shaped : Shaped z p.statics
  counter : IsInt p.statics.numUsers
  answered : p.Answered

theorem sound_start (z : Sizes) (fromInetd : Bool) : Sound (Server.start z fromInetd) :=
  ⟨shaped_start z, rfl, fun _ hq => nomatch hq⟩

theorem count_reply {r : Request z} (hcounter : IsInt s.numUsers) :
    replyNum r s = (.num (Int.bmod (s.numUsers + r.utmp.countP qualifies) (2 ^ 32)),
      { s with numUsers := Int.bmod (s.numUsers + r.utmp.countP qualifies) (2 ^ 32) }) := by
  rw [replyNum, rusersNum_eq r.utmp hcounter]

theorem step_sound {p t : Server z} {r : Request z} (h : Sound p) (hstep : serverStep p r = some t) :
    Shaped z t.statics ∧ IsInt t.statics.numUsers ∧ (t.Answered ↔ Fresh p r) := by
  unfold serverStep at hstep
  split at hstep
  · cases hstep
  · next hexited =>
    obtain rfl := Option.some.inj hstep
    have hexited : p.exited = false := Bool.eq_false_iff.mpr hexited
    by_cases hcounts : r.counts
    · obtain ⟨hreply, hexpected⟩ := service_counts hcounts p.statics
      have hs := h.shaped
      have hone : Reply.num (Int.bmod (p.statics.numUsers + r.utmp.countP qualifies) (2 ^ 32)) =
          expected r ↔ Fresh p r := by
        rw [hexpected, expectedNum, Reply.num.injEq, count_right_iff h.counter]
        exact ⟨fun h _ _ => h, fun h => h hexited hcounts⟩
      rw [hreply, count_reply h.counter]
      refine ⟨⟨hs.utmps, hs.line, hs.name, hs.host, hs.utmpIdle, hs.utmpIdlep, hs.own3, hs.own2⟩,
        isInt_bmod _, ?_⟩
      rw [← hone]
      constructor
      · intro hanswered
        exact hanswered _ rfl
      · rintro hreply q hq
        obtain rfl := Option.some.inj hq
        exact hreply
    · have hanswer := service_expected h.shaped hcounts
      refine ⟨hanswer.shaped, ?_, fun _ _ hc => absurd hc hcounts, ?_⟩
      · exact (congrArg IsInt hanswer.numUsers).mpr h.counter
      · rintro - q hq
        obtain rfl := Option.some.inj hq
        exact hanswer.reply

/-- **Replies come from utmp alone** exactly as long as every count is a first one. -/
theorem answered_iff_fresh (z : Sizes) (fromInetd : Bool) (rs : List (Request z)) :
    Steps Fresh serverStep (Server.start z fromInetd) rs ↔
      ∀ t, Reached serverStep (Server.start z fromInetd) rs t → t.Answered := by
  refine steps_iff_reached_of (I := Sound) ?_ (fun _ h => h.answered) ?_ (sound_start z fromInetd)
  · intro p r t hp hfresh hstep
    obtain ⟨hshaped, hcounter, hanswered⟩ := step_sound hp hstep
    exact ⟨hshaped, hcounter, hanswered.mpr hfresh⟩
  · intro p r hp hfresh
    have hexited : ¬ p.exited = true := by
      intro hexited
      exact hfresh (fun h => absurd (hexited.symm.trans h) (by decide))
    obtain ⟨t, ht⟩ : ∃ t, serverStep p r = some t := ⟨_, if_neg hexited⟩
    exact ⟨t, ht, fun hanswered => hfresh ((step_sound hp ht).2.2.mp hanswered)⟩

def usual : Sizes := ⟨32, 32, 256, 8, 8, 16, 100, by decide, by decide, by decide⟩

def fieldOf (size : Nat) (s : Bytes) : Field size :=
  ⟨padded size size s, length_padded (Nat.le_refl size) s, []⟩

def oneUser : Request usual where
  proc := RUSERSPROC_NUM
  vers := RUSERSVERS_3
  decoded := true
  utmp := [⟨USER_PROCESS, fieldOf 32 (ascii "tty1"), fieldOf 32 (ascii "root"), fieldOf 256 [], 0⟩]
  idle := fun _ _ => 0

/-- The second count adds to the first. -/
theorem not_answered_twice : ¬ ∀ (z : Sizes) (rs : List (Request z)) (t : Server z),
    Reached serverStep (Server.start z false) rs t → t.Answered := by
  intro h
  have hlast : (run serverStep (Server.start usual false) [oneUser, oneUser]).bind
      (fun t => t.last.map Prod.snd) = some (.num 2) := by
    decide +kernel
  obtain ⟨t, ht, hreply⟩ := Option.bind_eq_some_iff.mp hlast
  obtain ⟨q, hq, htwo⟩ := Option.map_eq_some_iff.mp hreply
  have hanswered := h usual [oneUser, oneUser] t ⟨_, List.prefix_rfl, ht⟩ q hq
  have hrequest : (run serverStep (Server.start usual false) [oneUser, oneUser]).bind
      (fun t => t.last.map (fun q => expected q.1)) = some (.num 1) := by
    decide +kernel
  rw [ht, Option.bind_some, Option.mem_def.mp hq, Option.map_some, ← hanswered, htwo] at hrequest
  exact absurd hrequest (by decide)

end Netkit.Rusersd

import Mathlib.Data.Finset.Card
import Netkit.Foundations.Queues
import Netkit.Timed.Messages

/-!
# The list of messages in memory

The list `msgslist` of `readmsg.c`, link by link: the scan, the sweep that deletes duplicates, the
new element at the tail, and the discarding of the whole list.
-/

namespace Netkit.Timed

open Netkit.Foundations

abbrev Place := ℕ

/-- `&msgslist`. -/
def head : Place := 0

/-- The field `p` and the others of each element, and the static variables of `readmsg`. An element
that has been freed has none of them. All elements lie below `brk`. -/
structure Memory where
  next : Place → Option (Option Place)
  node : Place → Option Message
  tail : Place
  msgcnt : Int
  brk : Place

namespace Memory

/-- `ptr->p = q`. -/
def setNext (ptr : Place) (q : Option Place) (m : Memory) : Option Memory :=
  (m.next ptr).map fun _ => { m with next := Function.update m.next ptr (some q) }

def free (ptr : Place) (m : Memory) : Memory :=
  { m with
    next := Function.update m.next ptr none
    node := Function.update m.node ptr none }

/-- The loop that looks for a duplicate behind `prev`, with the place in front of it. -/
def sweep (msg : Message) (m : Memory) : ℕ → Place → Option (Option (Place × Place))
  | 0, _ => none
  | passes + 1, prev => do
    match ← m.next prev with
    | none => some none
    | some ptr =>
      if duplicate msg (← m.node ptr) then some (some (prev, ptr)) else sweep msg m passes ptr

/-- The element at `ptr` is taken out, behind `prev`. -/
def delete (prev ptr : Place) (m : Memory) : Option Memory := do
  let m ← m.setNext prev (← m.next ptr)
  let m := if ptr = m.tail then { m with tail := prev } else m
  some (m.free ptr)

/-- From the label `again` on: the element at `ptr` is taken out, and the next duplicate. -/
def again : ℕ → Place → Place → Memory → Option (Message × Memory)
  | 0, _, _, _ => none
  | passes + 1, prev, ptr, m => do
    let msgin ← m.node ptr
    let m ← m.delete prev ptr
    match ← m.sweep msgin (m.brk + 1) prev with
    | none => some (msgin, { m with msgcnt := m.msgcnt - 1 })
    | some (prev, ptr) => again passes prev ptr m

def scan (nettab : List Netinfo) (f : Filter) (m : Memory) :
    ℕ → Place → Option Place → Option (Option (Message × Memory))
  | 0, _, _ => none
  | _ + 1, _, none => some none
  | passes + 1, prev, some ptr => do
    if lookat nettab f (← m.node ptr) then (m.again (m.brk + 1) prev ptr).map some
    else scan nettab f m passes ptr (← m.next ptr)

/-- `readmsg`, as far as the messages go that wait. -/
def readmsg (nettab : List Netinfo) (f : Filter) (m : Memory) :
    Option (Option (Message × Memory)) := do
  m.scan nettab f (m.brk + 1) head (← m.next head)

def discard : ℕ → Memory → Option Memory
  | 0, _ => none
  | passes + 1, m => do
    match ← m.next head with
    | none => some m
    | some ptr =>
      let m ← m.setNext head (← m.next ptr)
      discard passes (m.free ptr)

/-- A message that is not asked for. `malloc` returns `ptr`, which is not in use. -/
def arrive (msg : Message) (ptr : Place) (m : Memory) : Option Memory :=
  if m.msgcnt + 1 > NHOSTS * 3 then
    (discard (m.brk + 1) { m with msgcnt := 0 }).map fun m => { m with tail := head }
  else if (m.next ptr).isSome then none
  else do
    let m ← { m with msgcnt := m.msgcnt + 1, brk := max m.brk (ptr + 1) }.setNext m.tail (some ptr)
    some
      { m with
        tail := ptr
        next := Function.update m.next ptr (some none)
        node := Function.update m.node ptr (some msg) }

def start : Memory where
  next := Function.update (fun _ => none) head (some none)
  node := fun _ => none
  tail := head
  msgcnt := 0
  brk := 1

/-! ## The list -/

/-- The list has the elements `msgs`, at the places `ps`. -/
structure Lists (m : Memory) (ps : List Place) (msgs : List Message) : Prop where
  linked : Linked m.next head ps m.tail
  holds : Stored m.node ps msgs
  below : ∀ p ∈ ps, p < m.brk

def Represents (m : Memory) (q : Queue) : Prop := m.msgcnt = q.msgcnt ∧ ∃ ps, m.Lists ps q.msgs

variable {m : Memory} {nettab : List Netinfo} {f : Filter} {msg : Message} {prev ptr : Place}
  {us vs ps : List Place} {rs ss : List Message}

theorem Lists.length_le (h : m.Lists ps rs) : ps.length ≤ m.brk := by
  have hnodup : ps.Nodup := (List.nodup_cons.mp h.linked.nodup).2
  calc ps.length = ps.toFinset.card := (List.toFinset_card_of_nodup hnodup).symm
    _ ≤ (Finset.range m.brk).card := Finset.card_le_card fun p hp =>
        Finset.mem_range.mpr (h.below p (List.mem_toFinset.mp hp))
    _ = m.brk := Finset.card_range _

theorem start_represents : start.Represents ⟨[], 0⟩ :=
  ⟨rfl, [], ⟨rfl, rfl, List.nodup_singleton _⟩, .nil, fun _ hp => absurd hp List.not_mem_nil⟩

/-! ## A place in the list -/

/-- The elements `rs` are before `prev` or there, and the elements `ss` behind it. -/
structure Cursor (m : Memory) (us : List Place) (rs : List Message) (prev : Place) (vs : List Place)
    (ss : List Message) : Prop where
  linked : Linked m.next head (us ++ vs) m.tail
  seen : Path m.next head us prev
  before : Stored m.node us rs
  ahead : Stored m.node vs ss
  below : ∀ p ∈ us ++ vs, p < m.brk

theorem Cursor.lists (h : m.Cursor us rs prev vs ss) : m.Lists (us ++ vs) (rs ++ ss) :=
  ⟨h.linked, List.rel_append h.before h.ahead, h.below⟩

theorem Lists.cursor (h : m.Lists ps rs) : m.Cursor [] [] head ps rs :=
  ⟨h.linked, rfl, .nil, h.holds, h.below⟩

theorem Cursor.next (h : m.Cursor us rs prev vs ss) : m.next prev = some vs.head? :=
  (h.linked.link h.seen).2

theorem Cursor.length_le (h : m.Cursor us rs prev vs ss) : vs.length ≤ m.brk := by
  refine le_trans ?_ h.lists.length_le
  rw [List.length_append]
  exact Nat.le_add_left _ _

theorem Cursor.step (h : m.Cursor us rs prev (ptr :: vs) (msg :: ss)) :
    m.Cursor (us ++ [ptr]) (rs ++ [msg]) ptr vs ss := by
  have hsplit : us ++ [ptr] ++ vs = us ++ ptr :: vs := List.append_cons .. |>.symm
  have hahead := List.forall₂_cons.mp h.ahead
  refine ⟨hsplit ▸ h.linked, path_append.mpr ⟨prev, h.seen, h.next, rfl⟩, ?_, hahead.2,
    hsplit ▸ h.below⟩
  exact List.rel_append h.before (.cons hahead.1 .nil)

theorem linked_free {t : Place} (h : Linked m.next head (us ++ ptr :: vs) t)
    (hus : Path m.next head us prev) :
    let next := Function.update (Function.update m.next prev (some vs.head?)) ptr none
    Linked next head (us ++ vs) (if ptr = t then prev else t) ∧ Path next head us prev := by
  have hnodup : (head :: us ++ ptr :: vs).Nodup := h.nodup
  have hout : ptr ∉ head :: us ++ vs := (List.nodup_middle.mp hnodup).notMem
  have hne : prev ≠ ptr := fun heq => hout (heq ▸ List.mem_append_left vs hus.mem)
  refine h.unlink hus ?_ fun y hy hyprev => ?_
  · rw [Function.update_of_ne hne, Function.update_self]
  · have hyptr : y ≠ ptr := fun heq => hout (heq ▸ hy)
    rw [Function.update_of_ne hyptr, Function.update_of_ne hyprev]

theorem delete_eq {n : Option Place} (hprev : (m.next prev).isSome) (hptr : m.next ptr = some n) :
    m.delete prev ptr = some
      { m with
        next := Function.update (Function.update m.next prev (some n)) ptr none
        node := Function.update m.node ptr none
        tail := if ptr = m.tail then prev else m.tail } := by
  obtain ⟨old, hold⟩ := Option.isSome_iff_exists.mp hprev
  simp only [delete, setNext, hptr, hold, Option.map_some, Option.bind_eq_bind, Option.bind_some]
  split
  · rfl
  · rfl

theorem Cursor.delete (h : m.Cursor us rs prev (ptr :: vs) (msg :: ss)) :
    ∃ m', m.delete prev ptr = some m' ∧ m'.Cursor us rs prev vs ss ∧ m'.msgcnt = m.msgcnt ∧
      m'.brk = m.brk := by
  have hprev : (m.next prev).isSome := h.next ▸ rfl
  have hout : ptr ∉ us ++ vs := by
    have hnodup : (head :: us ++ ptr :: vs).Nodup := h.linked.nodup
    exact fun hmem => (List.nodup_middle.mp hnodup).notMem (List.mem_cons_of_mem head hmem)
  have hother : ∀ y ∈ us ++ vs, y ≠ ptr := fun y hy heq => hout (heq ▸ hy)
  refine ⟨_, delete_eq hprev h.step.next, ?_, rfl, rfl⟩
  obtain ⟨hlinked, hseen⟩ := linked_free h.linked h.seen
  refine ⟨hlinked, hseen, ?_, ?_, ?_⟩
  · exact h.before.congr fun p hp =>
      Function.update_of_ne (hother p (List.mem_append_left vs hp)) _ _
  · exact Stored.congr (List.forall₂_cons.mp h.ahead).2 fun p hp =>
      Function.update_of_ne (hother p (List.mem_append_right us hp)) _ _
  · intro p hp
    refine h.below p ?_
    rcases List.mem_append.mp hp with hp | hp
    · exact List.mem_append_left _ hp
    · exact List.mem_append_right us (List.mem_cons_of_mem ptr hp)

theorem Cursor.sweep {passes : ℕ} (h : m.Cursor us rs prev vs ss) (hpasses : vs.length < passes) :
    m.sweep msg passes prev = some none ∧ (∀ d ∈ ss, duplicate msg d = false) ∨
      ∃ ss₁ d ss₂ us' prev' x vs', ss = ss₁ ++ d :: ss₂ ∧ duplicate msg d = true ∧
        (∀ e ∈ ss₁, duplicate msg e = false) ∧ m.sweep msg passes prev = some (some (prev', x)) ∧
        m.Cursor us' (rs ++ ss₁) prev' (x :: vs') (d :: ss₂) := by
  induction vs generalizing us rs prev ss passes with
  | nil =>
    obtain ⟨passes, rfl⟩ := Nat.exists_eq_add_one.mpr (Nat.zero_lt_of_lt hpasses)
    have hnil : ss = [] := List.forall₂_nil_left_iff.mp h.ahead
    refine Or.inl ⟨?_, fun d hd => ?_⟩
    · rw [Memory.sweep, h.next]
      rfl
    · rw [hnil] at hd
      exact absurd hd List.not_mem_nil
  | cons x vs ih =>
    obtain ⟨passes, rfl⟩ := Nat.exists_eq_add_one.mpr (Nat.zero_lt_of_lt hpasses)
    obtain ⟨d, ss, hnode, -, rfl⟩ := List.forall₂_cons_left_iff.mp h.ahead
    have hsweep : m.sweep msg (passes + 1) prev =
        if duplicate msg d then some (some (prev, x)) else m.sweep msg passes x := by
      rw [Memory.sweep, h.next]
      simp only [List.head?_cons, Option.bind_eq_bind, Option.bind_some, hnode]
    cases hd : duplicate msg d with
    | true =>
      refine Or.inr ⟨[], d, ss, us, prev, x, vs, rfl, hd, fun e he => absurd he List.not_mem_nil,
        ?_, ?_⟩
      · rw [hsweep, hd, if_pos rfl]
      · rw [List.append_nil]
        exact h
    | false =>
      rw [hsweep, hd, if_neg Bool.false_ne_true]
      rcases ih h.step (Nat.lt_of_succ_lt_succ hpasses) with
        ⟨hnone, hall⟩ | ⟨ss₁, e, ss₂, us', prev', y, vs', rfl, he, hss₁, hsome, hcursor⟩
      · refine Or.inl ⟨hnone, fun e he => ?_⟩
        rcases List.mem_cons.mp he with rfl | he
        · exact hd
        · exact hall e he
      · refine Or.inr ⟨d :: ss₁, e, ss₂, us', prev', y, vs', rfl, he, fun e he => ?_, hsome, ?_⟩
        · rcases List.mem_cons.mp he with rfl | he
          · exact hd
          · exact hss₁ e he
        · rw [List.append_cons]
          exact hcursor

theorem duplicate_congr {d : Message} (h : duplicate msg d = true) :
    duplicate d = duplicate msg := by
  obtain ⟨haddr, htype⟩ := Bool.and_eq_true_iff.mp h
  funext e
  rw [duplicate, duplicate, eq_of_beq haddr, eq_of_beq htype]

/-- The element at `ptr` is taken out, and all duplicates behind it; the last one is returned. The
induction is on the duplicates. -/
theorem Cursor.again {passes : ℕ} (h : m.Cursor us rs prev (ptr :: vs) (msg :: ss))
    (hpasses : ss.length < passes) :
    ∃ (m' : Memory) (ps' : List Place), m.again passes prev ptr =
        some ((ss.filter (duplicate msg)).getLastD msg, { m' with msgcnt := m.msgcnt - 1 }) ∧
      m'.Lists ps' (rs ++ ss.filter (fun e => !duplicate msg e)) := by
  induction passes generalizing m us rs prev ptr vs msg ss with
  | zero => exact absurd hpasses (Nat.not_lt_zero _)
  | succ passes ih =>
    obtain ⟨m', hdelete, hcursor, hcnt, hbrk⟩ := h.delete
    have hnode := (List.forall₂_cons.mp h.ahead).1
    have hagain : m.again (passes + 1) prev ptr = (m'.sweep msg (m'.brk + 1) prev).bind fun o =>
        match o with
        | none => some (msg, { m' with msgcnt := m'.msgcnt - 1 })
        | some (prev, ptr) => m'.again passes prev ptr := by
      rw [Memory.again]
      simp only [hnode, hdelete, Option.bind_eq_bind, Option.bind_some]
    rcases hcursor.sweep (Nat.lt_succ_of_le hcursor.length_le) with
      ⟨hnone, hall⟩ | ⟨ss₁, d, ss₂, us', prev', x, vs', rfl, hd, hss₁, hsome, hcursor'⟩
    · have hdups : ss.filter (duplicate msg) = [] :=
        List.filter_eq_nil_iff.mpr fun e he => Bool.not_eq_true _ ▸ hall e he
      have hrest : ss.filter (fun e => !duplicate msg e) = ss :=
        List.filter_eq_self.mpr fun e he => by rw [hall e he]; rfl
      refine ⟨m', us ++ vs, ?_, hrest.symm ▸ hcursor.lists⟩
      rw [hagain, hnone, hdups, hcnt]
      rfl
    · have hdups :
          (ss₁ ++ d :: ss₂).filter (duplicate msg) = d :: ss₂.filter (duplicate msg) := by
        rw [List.filter_append, List.filter_eq_nil_iff.mpr fun e he => Bool.not_eq_true _ ▸ hss₁ e he,
          List.filter_cons_of_pos hd, List.nil_append]
      have hrest : (ss₁ ++ d :: ss₂).filter (fun e => !duplicate msg e) =
          ss₁ ++ ss₂.filter (fun e => !duplicate msg e) := by
        rw [List.filter_append, List.filter_cons_of_neg (by rw [hd]; decide),
          List.filter_eq_self.mpr fun e he => by rw [hss₁ e he]; rfl]
      have hshort : ss₂.length < passes := by
        rw [List.length_append, List.length_cons] at hpasses
        omega
      obtain ⟨m'', ps', hagain', hlists⟩ := ih hcursor' hshort
      rw [duplicate_congr hd] at hagain' hlists
      refine ⟨m'', ps', ?_, ?_⟩
      · rw [hagain, hsome, Option.bind_some]
        dsimp only
        rw [hagain', hcnt, hdups]
        cases ss₂.filter (duplicate msg) with
        | nil => rfl
        | cons e es => rfl
      · rw [hrest, ← List.append_assoc]
        exact hlists

theorem Cursor.scan (nettab : List Netinfo) (f : Filter) {passes : ℕ}
    (h : m.Cursor us rs prev vs ss) (hpasses : vs.length < passes) :
    takeMsg nettab f ss = none ∧ m.scan nettab f passes prev vs.head? = some none ∨
      ∃ r ss', ∃ (m' : Memory) (ps' : List Place), takeMsg nettab f ss = some (r, ss') ∧
        m.scan nettab f passes prev vs.head? =
          some (some (r, { m' with msgcnt := m.msgcnt - 1 })) ∧ m'.Lists ps' (rs ++ ss') := by
  induction vs generalizing us rs prev ss passes with
  | nil =>
    obtain ⟨passes, rfl⟩ := Nat.exists_eq_add_one.mpr (Nat.zero_lt_of_lt hpasses)
    have hnil : ss = [] := List.forall₂_nil_left_iff.mp h.ahead
    exact Or.inl ⟨hnil ▸ rfl, rfl⟩
  | cons x vs ih =>
    obtain ⟨passes, rfl⟩ := Nat.exists_eq_add_one.mpr (Nat.zero_lt_of_lt hpasses)
    obtain ⟨d, ss, hnode, -, rfl⟩ := List.forall₂_cons_left_iff.mp h.ahead
    have hscan : m.scan nettab f (passes + 1) prev (some x) =
        if lookat nettab f d then (m.again (m.brk + 1) prev x).map some
        else m.scan nettab f passes x vs.head? := by
      rw [Memory.scan]
      simp only [hnode, h.step.next, Option.bind_eq_bind, Option.bind_some]
    rw [List.head?_cons, hscan, takeMsg]
    by_cases hd : lookat nettab f d = true
    · have hshort : ss.length < m.brk + 1 := by
        rw [← h.step.ahead.length_eq]
        exact Nat.lt_succ_of_le h.step.length_le
      obtain ⟨m', ps', hagain, hlists⟩ := h.again hshort
      rw [if_pos hd, if_pos hd, hagain]
      exact Or.inr ⟨_, _, m', ps', rfl, rfl, hlists⟩
    · rw [if_neg hd, if_neg hd]
      rcases ih h.step (Nat.lt_of_succ_lt_succ hpasses) with
        ⟨hnone, hscan'⟩ | ⟨r, ss', m', ps', hsome, hscan', hlists⟩
      · rw [hnone]
        exact Or.inl ⟨rfl, hscan'⟩
      · rw [hsome]
        refine Or.inr ⟨r, d :: ss', m', ps', rfl, hscan', ?_⟩
        rw [List.append_cons]
        exact hlists

theorem readmsg_represents (nettab : List Netinfo) (f : Filter) {q : Queue}
    (h : m.Represents q) :
    q.readmsg nettab f = none ∧ m.readmsg nettab f = some none ∨
      ∃ r q' m', q.readmsg nettab f = some (r, q') ∧ m.readmsg nettab f = some (some (r, m')) ∧
        m'.Represents q' := by
  obtain ⟨hcnt, ps, hlists⟩ := h
  have hcursor := hlists.cursor
  have hstart : m.readmsg nettab f = m.scan nettab f (m.brk + 1) head ps.head? := by
    rw [Memory.readmsg, hcursor.next]
    rfl
  rw [hstart, Queue.readmsg]
  rcases hcursor.scan nettab f (Nat.lt_succ_of_le hcursor.length_le) with
    ⟨hnone, hscan⟩ | ⟨r, ss', m', ps', hsome, hscan, hlists'⟩
  · rw [hnone]
    exact Or.inl ⟨rfl, hscan⟩
  · rw [hsome]
    exact Or.inr ⟨r, ⟨ss', q.msgcnt - 1⟩, _, rfl, hscan, congrArg (· - 1) hcnt, ps',
      hlists'.linked, hlists'.holds, hlists'.below⟩

/-! ## Arrival -/

theorem discard_empties {t : Place} {passes : ℕ} (h : Linked m.next head ps t)
    (hpasses : ps.length < passes) :
    ∃ m', discard passes m = some m' ∧ m'.next head = some none ∧ m'.msgcnt = m.msgcnt := by
  induction ps generalizing m t passes with
  | nil =>
    obtain ⟨passes, rfl⟩ := Nat.exists_eq_add_one.mpr (Nat.zero_lt_of_lt hpasses)
    have hnext : m.next head = some none := h.next_head
    refine ⟨m, ?_, hnext, rfl⟩
    rw [discard, hnext]
    rfl
  | cons ptr ps ih =>
    obtain ⟨passes, rfl⟩ := Nat.exists_eq_add_one.mpr (Nat.zero_lt_of_lt hpasses)
    have hnext : m.next head = some (some ptr) := h.next_head
    have hptr : m.next ptr = some ps.head? := by
      have hsplit : Linked m.next head ([ptr] ++ ps) t := h
      exact (hsplit.link ⟨hnext, rfl⟩).2
    have hsplit : Linked m.next head ([] ++ ptr :: ps) t := h
    obtain ⟨hlinked, -⟩ := linked_free hsplit rfl
    have hstep : discard (passes + 1) m = discard passes
        { m with
          next := Function.update (Function.update m.next head (some ps.head?)) ptr none
          node := Function.update m.node ptr none } := by
      rw [discard]
      simp only [hnext, hptr, setNext, Option.map_some, Option.bind_eq_bind, Option.bind_some]
      rfl
    rw [hstep]
    exact ih hlinked (Nat.lt_of_succ_lt_succ hpasses)

/-- `readmsg` does to the list what `Queue.arrive` says, where `malloc` returns a place that is not
in use. -/
theorem arrive_represents (msg : Message) (ptr : Place) {q : Queue} (h : m.Represents q) :
    (∃ m', m.arrive msg ptr = some m' ∧ m'.Represents (q.arrive msg)) ∨
      (m.arrive msg ptr = none ∧ m.next ptr ≠ none) := by
  obtain ⟨hcnt, ps, hlists⟩ := h
  rw [arrive, Queue.arrive, hcnt]
  split
  · left
    obtain ⟨m', hdiscard, hnext, hcnt'⟩ := discard_empties
      (m := { m with msgcnt := 0 }) hlists.linked (Nat.lt_succ_of_le hlists.length_le)
    have hempty : Linked m'.next head [] head := ⟨rfl, hnext, List.nodup_singleton _⟩
    refine ⟨{ m' with tail := head }, ?_, hcnt', [], hempty, .nil,
      fun _ hp => absurd hp List.not_mem_nil⟩
    rw [hdiscard]
    rfl
  · by_cases hptr : m.next ptr = none
    case neg =>
      refine Or.inr ⟨?_, hptr⟩
      rw [if_pos (Option.isSome_iff_ne_none.mpr hptr)]
    left
    have hlast := hlists.linked.tail
    have hunused : ptr ∉ head :: ps := by
      intro hmem
      obtain ⟨n, hn⟩ := hlists.linked.exists_next hmem
      rw [hptr] at hn
      cases hn
    have htail : m.tail ≠ ptr := fun heq => hunused (heq ▸ hlists.linked.path.mem)
    have hne : ∀ y ∈ head :: ps, y ≠ ptr := fun y hy heq => hunused (heq ▸ hy)
    rw [if_neg (by rw [hptr]; exact Bool.false_ne_true)]
    simp only [setNext, hlast, Option.map_some, Option.bind_eq_bind, Option.bind_some]
    refine ⟨_, rfl, rfl, ps ++ [ptr], ?_, ?_, fun p hp => ?_⟩
    · refine hlists.linked.extend hunused ?_ ?_ fun y hy hytail => ?_
      · dsimp only
        rw [Function.update_of_ne htail, Function.update_self]
      · exact Function.update_self _ _ _
      · dsimp only
        rw [Function.update_of_ne (hne y hy), Function.update_of_ne hytail]
    · refine List.rel_append (hlists.holds.congr fun p hp => ?_) (.cons ?_ .nil)
      · exact Function.update_of_ne (hne p (List.mem_cons_of_mem head hp)) _ _
      · exact Function.update_self _ _ _
    · rcases List.mem_append.mp hp with hp | hp
      · exact Nat.lt_of_lt_of_le (hlists.below p hp) (Nat.le_max_left _ _)
      · rw [List.mem_singleton.mp hp]
        exact Nat.le_max_right _ _

theorem Represents.unique {q q' : Queue} (h : m.Represents q) (h' : m.Represents q') : q = q' := by
  obtain ⟨hcnt, ps, hlists⟩ := h
  obtain ⟨hcnt', ps', hlists'⟩ := h'
  obtain rfl := hlists.linked.unique hlists'.linked
  obtain ⟨msgs, msgcnt⟩ := q
  obtain ⟨msgs', msgcnt'⟩ := q'
  obtain rfl : msgs = msgs' := hlists.holds.unique hlists'.holds
  exact congrArg (Queue.mk msgs) (hcnt.symm.trans hcnt')

end Memory

end Netkit.Timed

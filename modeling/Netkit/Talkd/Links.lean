import Netkit.Foundations.Queues
import Netkit.Foundations.Rings
import Netkit.Talkd.Process

/-!
# The links of the table of talkd

The entries of the table in memory: a list that is linked forward and backward and begins at
`table`. `expire` deletes entries of the list that it walks over, and after `deleteit` it takes
the link of an entry that is no longer there.

* `expires_iff`: the walk stays inside the table exactly if there is nothing to expire.
-/

namespace Netkit.Talkd

open Netkit.Foundations

abbrev Place := ℕ

/-- The variable `table`, and the fields `next`, `last` and the others of each entry. An entry
that has been freed has none. -/
structure Memory where
  table : Option Place
  next : Place → Option (Option Place)
  last : Place → Option (Option Place)
  entry : Place → Option TableEntry

namespace Memory

/-- `ptr->next = q`. -/
def setNext (ptr : Place) (q : Option Place) (m : Memory) : Option Memory :=
  (m.next ptr).map fun _ => { m with next := Function.update m.next ptr (some q) }

/-- `ptr->last = q`. -/
def setLast (ptr : Place) (q : Option Place) (m : Memory) : Option Memory :=
  (m.last ptr).map fun _ => { m with last := Function.update m.last ptr (some q) }

def free (ptr : Place) (m : Memory) : Memory where
  table := m.table
  next := Function.update m.next ptr none
  last := Function.update m.last ptr none
  entry := Function.update m.entry ptr none

/-- The part of `insert_table` behind `malloc`. -/
def insert (ptr : Place) (e : TableEntry) (m : Memory) : Option Memory :=
  let new : Memory :=
    { table := some ptr
      next := Function.update m.next ptr (some m.table)
      last := Function.update m.last ptr (some none)
      entry := Function.update m.entry ptr (some e) }
  match m.table with
  | some first => new.setLast first (some ptr)
  | none => some new

def deleteit (ptr : Place) (m : Memory) : Option Memory := do
  let m ← if m.table = some ptr then do
      let next ← m.next ptr
      some { m with table := next }
    else do
      match ← m.last ptr with
      | some prev => m.setNext prev (← m.next ptr)
      | none => some m
  let m ← match ← m.next ptr with
    | some behind => do m.setLast behind (← m.last ptr)
    | none => some m
  some (m.free ptr)

/-- The loop of `expire`. When `ptr` has been freed, `ptr->next` reads as `stale` says, given what
was there. -/
def expireLoop (stale : Option Place → Option (Option Place)) (now : Int) :
    ℕ → Option Place → Memory → Option Memory
  | 0, _, _ => none
  | _ + 1, none, m => some m
  | passes + 1, some ptr, m => do
    let e ← m.entry ptr
    let next ← m.next ptr
    if now - e.time > MAX_LIFE then
      let m ← m.deleteit ptr
      let ptr ← stale next
      expireLoop stale now passes ptr m
    else expireLoop stale now passes next m

/-! ## The list as a ring -/

/-- The links, with NULL as the place in front of the first entry and behind the last one. NULL is
linked back to `tail`, which is not in memory. -/
def cells (tail : Option Place) (m : Memory) : Cells (Option Place) TableEntry where
  forw p := p.elim (some m.table) m.next
  back p := p.elim (some tail) m.last
  val p := p.elim none m.entry

def Holds (m : Memory) (ps : List Place) (es : List TableEntry) : Prop :=
  List.Forall₂ (fun p e => m.entry p = some e) ps es

/-- The list that begins at `table` has the entries `es`, and the links back lead from each of them
to the one in front of it. -/
def Represents (m : Memory) (es : List TableEntry) : Prop :=
  ∃ tail ps, Ring (m.cells tail) none (ps.map some) ∧ m.Holds ps es

variable {m : Memory} {tail : Option Place} {ptr : Place} {ps ds ts : List Place}
  {es : List TableEntry} {e : TableEntry} {now : Int}

/-- The link from `p` to `n` and the one back. -/
def link (p n : Option Place) (m : Memory) : Memory where
  table := match p with
    | some _ => m.table
    | none => n
  next := match p with
    | some prev => Function.update m.next prev (some n)
    | none => m.next
  last := match n with
    | some behind => Function.update m.last behind (some p)
    | none => m.last
  entry := m.entry

theorem elim_update {α : Type} (a b : α) (f : Place → α) (p : Place) :
    (fun q : Option Place => q.elim a (Function.update f p b)) =
      Function.update (fun q : Option Place => q.elim a f) (some p) b := by
  funext q
  cases q with
  | none =>
    rw [Function.update_of_ne (Option.some_ne_none p).symm]
    rfl
  | some q =>
    by_cases hq : q = p
    · subst hq
      rw [Function.update_self]
      exact Function.update_self _ _ _
    · rw [Function.update_of_ne (by simpa using hq)]
      exact Function.update_of_ne hq _ _

theorem elim_none {α : Type} (a b : α) (f : Place → α) :
    (fun q : Option Place => q.elim b f) =
      Function.update (fun q : Option Place => q.elim a f) none b := by
  funext q
  cases q with
  | none => rw [Function.update_self]; rfl
  | some q => rw [Function.update_of_ne (by simp)]; rfl

theorem cells_free (ptr : Place) (m : Memory) :
    (m.free ptr).cells tail = (m.cells tail).free (some ptr) := by
  ext1
  · exact elim_update _ _ _ _
  · exact elim_update _ _ _ _
  · exact elim_update _ _ _ _

theorem cells_link (tail p n : Option Place) (m : Memory) :
    ∃ tail', (m.link p n).cells tail' = (m.cells tail).join p n := by
  have hforw : ((m.link p n).cells tail).forw = ((m.cells tail).join p n).forw := by
    cases p with
    | some prev => exact elim_update _ _ _ _
    | none => exact elim_none _ _ _
  cases n with
  | some behind =>
    refine ⟨tail, ?_⟩
    ext1
    · exact hforw
    · exact elim_update _ _ _ _
    · rfl
  | none =>
    refine ⟨p, ?_⟩
    ext1
    · exact hforw
    · exact elim_none _ _ _
    · rfl

theorem deleteit_eq {p n : Option Place} (hp : (m.cells tail).Linked p (some ptr))
    (hn : (m.cells tail).Linked (some ptr) n) (hptr : p ≠ some ptr)
    (htable : m.table = some ptr → p = none) :
    m.deleteit ptr = some ((m.link p n).free ptr) := by
  have hnext : m.next ptr = some n := hn.1
  have hlast : m.last ptr = some p := hp.2
  unfold deleteit link
  cases p with
  | none =>
    have hfirst : m.table = some ptr := Option.some.inj hp.1
    rw [if_pos hfirst, hnext]
    cases n with
    | none => simp [hnext]
    | some behind =>
      have hback : m.last behind = some (some ptr) := hn.2
      simp [hnext, hlast, setLast, hback]
  | some prev =>
    have hprev : m.next prev = some (some ptr) := hp.1
    have hne : ptr ≠ prev := fun heq => hptr (congrArg some heq.symm)
    rw [if_neg (fun heq => Option.some_ne_none prev (htable heq)), hlast]
    cases n with
    | none => simp [hnext, setNext, hprev, Function.update_of_ne hne]
    | some behind =>
      have hback : m.last behind = some (some ptr) := hn.2
      simp [hnext, hlast, setNext, setLast, hprev, hback, Function.update_of_ne hne]

theorem deleteit_ring (h : Ring (m.cells tail) none ((ds ++ ptr :: ts).map some)) :
    ∃ m' tail', m.deleteit ptr = some m' ∧ Ring (m'.cells tail') none ((ds ++ ts).map some) ∧
      ∀ q, q ≠ ptr → m'.entry q = m.entry q := by
  rw [List.map_append, List.map_cons] at h
  obtain ⟨p, hp, hn, hring, hlinked, -⟩ := h.unlink
  have hptr : p ≠ some ptr := by
    rintro rfl
    exact absurd (hlinked.1.symm.trans (Function.update_self _ _ _)) (Option.some_ne_none _)
  have htable : m.table = some ptr → p = none := by
    intro heq
    have hfirst := h.first
    have hforw : (m.cells tail).forw none = some (some ptr) := congrArg some heq
    have hhead := Option.some.inj (hfirst.1.symm.trans hforw)
    rw [hhead] at hfirst
    exact hp.back_inj hfirst
  obtain ⟨tail', hcells⟩ := cells_link tail p ((ts.map some).headD none) m
  refine ⟨_, tail', deleteit_eq hp hn hptr htable, ?_, fun q hq => Function.update_of_ne hq _ _⟩
  rw [cells_free, hcells, List.map_append]
  exact hring

/-! ## The walk -/

/-- An entry that `expire` leaves. -/
def young (now : Int) (e : TableEntry) : Bool := decide (¬ now - e.time > MAX_LIFE)

theorem headD_map_some (ps : List Place) : (ps.map some).headD none = ps.head? := by
  cases ps with
  | nil => rfl
  | cons p ps => rfl

/-- The walk leaves the young entries, if there are no others or the link of an entry is still what
it was when the entry has been freed. The induction is on the entries that are still to be
visited. -/
theorem expireLoop_kept (stale : Option Place → Option (Option Place)) (now : Int)
    {kept : List TableEntry} {passes : ℕ}
    (hring : Ring (m.cells tail) none ((ds ++ ts).map some)) (hds : m.Holds ds kept)
    (hts : m.Holds ts es) (hpasses : ts.length < passes)
    (hstale : (∀ e ∈ es, young now e = true) ∨ ∀ next, stale next = some next) :
    ∃ m', expireLoop stale now passes ts.head? m = some m' ∧
      m'.Represents (kept ++ es.filter (young now)) := by
  induction es generalizing ds ts kept m tail passes with
  | nil =>
    cases hts
    obtain ⟨passes, rfl⟩ := Nat.exists_eq_add_one.mpr (Nat.zero_lt_of_lt hpasses)
    rw [List.append_nil] at hring
    rw [List.filter_nil, List.append_nil]
    exact ⟨m, rfl, tail, ds, hring, hds⟩
  | cons e es ih =>
    obtain ⟨passes, rfl⟩ := Nat.exists_eq_add_one.mpr (Nat.zero_lt_of_lt hpasses)
    cases hts with
    | @cons ptr _ ts _ hentry hts =>
      rw [List.length_cons, Nat.add_lt_add_iff_right] at hpasses
      have hforw := hring
      rw [List.map_append, List.map_cons] at hforw
      have hnext : m.next ptr = some ts.head? :=
        hforw.next.trans (congrArg some (headD_map_some ts))
      have hrest := hstale.imp_left fun h x hx => h x (List.mem_cons_of_mem e hx)
      rw [List.head?_cons, expireLoop, hentry, hnext]
      dsimp only [Option.bind_eq_bind, Option.bind_some]
      by_cases hold : now - e.time > MAX_LIFE
      · have hyoung : young now e = false := decide_eq_false (not_not.mpr hold)
        have hlink : ∀ next, stale next = some next := by
          refine hstale.resolve_left fun h => ?_
          rw [h e List.mem_cons_self] at hyoung
          cases hyoung
        obtain ⟨m', tail', hdelete, hring', hsame⟩ := deleteit_ring hring
        have hapart : ∀ q ∈ ds ++ ts, q ≠ ptr := by
          rintro q hq rfl
          refine hforw.apart.1 (List.mem_cons_of_mem none ?_)
          rw [← List.map_append]
          exact List.mem_map_of_mem hq
        rw [if_pos hold, hdelete, Option.bind_some, hlink, Option.bind_some,
          List.filter_cons_of_neg (by rw [hyoung]; exact Bool.false_ne_true)]
        refine ih hring' (Stored.congr hds fun q hq => hsame q ?_)
          (Stored.congr hts fun q hq => hsame q ?_) hpasses hrest
        · exact hapart q (List.mem_append_left ts hq)
        · exact hapart q (List.mem_append_right ds hq)
      · have hyoung : young now e = true := decide_eq_true hold
        have hsplit : ds ++ ptr :: ts = ds ++ [ptr] ++ ts := by simp
        have hsplit' : kept ++ e :: es.filter (young now) =
            kept ++ [e] ++ es.filter (young now) := by simp
        have hvisited : m.Holds (ds ++ [ptr]) (kept ++ [e]) :=
          List.rel_append hds (.cons hentry .nil)
        rw [if_neg hold, List.filter_cons_of_pos hyoung, hsplit']
        rw [hsplit] at hring
        exact ih hring hvisited hts hpasses hrest

theorem expireLoop_stale {passes : ℕ} (hring : Ring (m.cells tail) none ((ds ++ ts).map some))
    (hts : m.Holds ts es) (hold : ∃ e ∈ es, young now e = false) :
    expireLoop (fun _ => none) now passes ts.head? m = none := by
  induction es generalizing ds ts passes with
  | nil =>
    obtain ⟨e, he, -⟩ := hold
    exact absurd he List.not_mem_nil
  | cons e es ih =>
    cases passes with
    | zero => rfl
    | succ passes =>
      cases hts with
      | @cons ptr _ ts _ hentry hts =>
        have hforw := hring
        rw [List.map_append, List.map_cons] at hforw
        have hnext : m.next ptr = some ts.head? :=
          hforw.next.trans (congrArg some (headD_map_some ts))
        rw [List.head?_cons, expireLoop, hentry, hnext]
        dsimp only [Option.bind_eq_bind, Option.bind_some]
        by_cases hage : now - e.time > MAX_LIFE
        · rw [if_pos hage]
          cases m.deleteit ptr with
          | none => rfl
          | some m' => rfl
        · rw [if_neg hage]
          have hsplit : ds ++ ptr :: ts = ds ++ [ptr] ++ ts := by simp
          rw [hsplit] at hring
          refine ih hring hts ?_
          obtain ⟨x, hx, hxold⟩ := hold
          rcases List.mem_cons.mp hx with rfl | hx
          · exact absurd (decide_eq_true hage) (ne_true_of_eq_false hxold)
          · exact ⟨x, hx, hxold⟩

/-- `expire` comes to its end without a look at an entry that has been freed, and leaves the entries
that are not too old, in their order and linked from `table`. -/
def Expires (now : Int) (m : Memory) (t : Table) : Prop :=
  ∃ passes m', m.expireLoop (fun _ => none) now passes m.table = some m' ∧
    m'.Represents (expire now t).table

theorem Represents.walk {t : Table} (h : m.Represents t.table) :
    ∃ tail ts, Ring (m.cells tail) none ((([] : List Place) ++ ts).map some) ∧
      m.Holds ts t.table ∧ m.table = ts.head? := by
  obtain ⟨tail, ts, hring, hts⟩ := h
  have hstart : some m.table = some ((ts.map some).headD none) := hring.start
  exact ⟨tail, ts, hring, hts, (Option.some.inj hstart).trans (headD_map_some ts)⟩

/-- **The walk of `expire`** stays in the table exactly if no entry is too old. -/
theorem expires_iff (now : Int) (t : Table) (h : m.Represents t.table) :
    m.Expires now t ↔ ∀ e ∈ t.table, now - e.time ≤ MAX_LIFE := by
  obtain ⟨tail, ts, hring, hts, htable⟩ := h.walk
  have hyoung (e : TableEntry) : young now e = true ↔ now - e.time ≤ MAX_LIFE :=
    decide_eq_true_iff.trans not_lt
  constructor
  · rintro ⟨passes, m', hrun, -⟩ e he
    rw [← hyoung]
    by_contra hold
    rw [htable, expireLoop_stale hring hts ⟨e, he, Bool.eq_false_iff.mpr hold⟩] at hrun
    cases hrun
  · intro hall
    obtain ⟨m', hrun, hkept⟩ := expireLoop_kept (fun _ => none) now hring .nil hts
      (Nat.lt_succ_self _) (Or.inl fun e he => (hyoung e).mpr (hall e he))
    rw [← htable] at hrun
    exact ⟨_, m', hrun, hkept⟩

theorem expireLoop_represents (now : Int) {t : Table} (h : m.Represents t.table) :
    ∃ passes m', m.expireLoop some now passes m.table = some m' ∧
      m'.Represents (expire now t).table := by
  obtain ⟨tail, ts, hring, hts, htable⟩ := h.walk
  obtain ⟨m', hrun, hkept⟩ := expireLoop_kept some now hring .nil hts
    (Nat.lt_succ_self _) (Or.inr fun _ => rfl)
  rw [← htable] at hrun
  exact ⟨_, m', hrun, hkept⟩

/-! ## The memory of a table -/

def empty : Memory := ⟨none, fun _ => none, fun _ => none, fun _ => none⟩

theorem represents_empty : empty.Represents [] :=
  ⟨none, [], ⟨List.isChain_pair.mpr ⟨rfl, rfl⟩, List.nodup_singleton _⟩, .nil⟩

theorem Holds.entry_ne_none (h : m.Holds ps es) : ∀ p ∈ ps, m.entry p ≠ none := by
  induction h with
  | nil => exact fun p hp => absurd hp List.not_mem_nil
  | cons hentry _ ih =>
    intro q hq
    rcases List.mem_cons.mp hq with rfl | hq
    · rw [hentry]
      exact Option.some_ne_none _
    · exact ih q hq

def malloc (ptr : Place) (e : TableEntry) (m : Memory) : Memory where
  table := m.table
  next := Function.update m.next ptr (some (some ptr))
  last := Function.update m.last ptr (some (some ptr))
  entry := Function.update m.entry ptr (some e)

theorem cells_malloc (ptr : Place) (e : TableEntry) (m : Memory) :
    (m.malloc ptr e).cells tail = (m.cells tail).alloc (some ptr) e := by
  ext1
  · exact elim_update _ _ _ _
  · exact elim_update _ _ _ _
  · exact elim_update _ _ _ _

theorem insert_eq (e : TableEntry) (hback : ∀ first, m.table = some first → m.last first ≠ none)
    (hptr : m.table ≠ some ptr) :
    m.insert ptr e =
      some (((m.malloc ptr e).link none (some ptr)).link (some ptr) m.table) := by
  unfold insert link malloc
  cases htable : m.table with
  | none => simp [Function.update_idem]
  | some first =>
    have hne : first ≠ ptr := fun heq => hptr (htable.trans (congrArg some heq))
    obtain ⟨back, hlast⟩ := Option.ne_none_iff_exists'.mp (hback first htable)
    simp [Function.update_idem, setLast, Function.update_of_ne hne, hlast]

theorem insert_represents (h : m.Represents es) (hfresh : m.entry ptr = none) (e : TableEntry) :
    ∃ m', m.insert ptr e = some m' ∧ m'.Represents (e :: es) ∧
      ∀ p, p ≠ ptr → m'.entry p = m.entry p := by
  obtain ⟨tail, ps, hring, hps⟩ := h
  have hptr : ∀ p ∈ ps, p ≠ ptr := by
    rintro p hp rfl
    exact hps.entry_ne_none p hp hfresh
  have hfirst := hring.first
  have hhead : m.table = ps.head? :=
    (Option.some.inj hring.start).trans (headD_map_some ps)
  rw [headD_map_some, ← hhead] at hfirst
  have htable : m.table ≠ some ptr := by
    intro heq
    rw [hhead] at heq
    exact hptr ptr (List.mem_of_mem_head? heq) rfl
  have hout : some ptr ∉ none :: ps.map some := by
    intro hmem
    rcases List.mem_cons.mp hmem with hnone | hmem
    · cases hnone
    · obtain ⟨p, hp, heq⟩ := List.mem_map.mp hmem
      exact hptr p hp (Option.some.inj heq)
  have hback : ∀ first, m.table = some first → m.last first ≠ none := by
    intro first heq
    rw [heq] at hfirst
    have hlast : m.last first = some none := hfirst.2
    rw [hlast]
    exact Option.some_ne_none _
  obtain ⟨m₁, hinsque, hring', -, -⟩ := hring.insque hout e
  obtain ⟨tail₁, hcells₁⟩ := cells_link tail none (some ptr) (m.malloc ptr e)
  obtain ⟨tail₂, hcells₂⟩ :=
    cells_link tail₁ (some ptr) m.table ((m.malloc ptr e).link none (some ptr))
  rw [hcells₁, cells_malloc] at hcells₂
  rw [Cells.insque_eq hfirst (Option.some_ne_none ptr).symm htable e] at hinsque
  rw [← Option.some.inj hinsque, ← hcells₂, ← List.map_cons] at hring'
  refine ⟨_, insert_eq e hback htable, ⟨tail₂, ptr :: ps, hring', .cons ?_ ?_⟩,
    fun p hp => Function.update_of_ne hp _ _⟩
  · exact Function.update_self _ _ _
  · exact Stored.congr hps fun p hp => Function.update_of_ne (hptr p hp) _ _

/-- Every table is what calls of `insert_table` have put into memory. -/
theorem exists_represents (es : List TableEntry) :
    ∃ m : Memory, m.Represents es ∧ ∀ p, es.length ≤ p → m.entry p = none := by
  induction es with
  | nil => exact ⟨empty, represents_empty, fun p _ => rfl⟩
  | cons e es ih =>
    obtain ⟨m, hm, hfree⟩ := ih
    obtain ⟨m', -, hm', hothers⟩ := insert_represents hm (hfree es.length (Nat.le_refl _)) e
    refine ⟨m', hm', fun p hp => ?_⟩
    rw [List.length_cons] at hp
    rw [hothers p (Nat.ne_of_gt hp), hfree p (Nat.le_of_succ_le hp)]

/-! ## One invitation -/

def invitation : TableEntry :=
  ⟨⟨TALK_VERSION, LEAVE_INVITE, 1, {}, 1, [97], [98]⟩, 0, 1⟩

def single : Memory where
  table := some 0
  next := Function.update (fun _ => none) 0 (some none)
  last := Function.update (fun _ => none) 0 (some none)
  entry := Function.update (fun _ => none) 0 (some invitation)

theorem represents_single : single.Represents [invitation] := by
  obtain ⟨m', hinsert, hm', -⟩ :=
    insert_represents represents_empty (rfl : empty.entry 0 = none) invitation
  obtain rfl : single = m' := Option.some.inj hinsert
  exact hm'

/-- After a minute it is still there. -/
theorem expires_minute : single.Expires 60 { table := [invitation] } := by
  refine (expires_iff 60 _ represents_single).mpr fun e he => ?_
  rw [List.mem_singleton.mp he]
  decide

/-- A second later the loop goes on from an entry that has been freed. -/
theorem not_expires_old :
    ¬ ∀ (now : Int) (m : Memory) (t : Table), m.Represents t.table → m.Expires now t := by
  intro h
  obtain ⟨passes, m', hrun, -⟩ := h 61 single { table := [invitation] } represents_single
  cases passes with
  | zero => cases hrun
  | succ passes => cases hrun

end Memory

end Netkit.Talkd

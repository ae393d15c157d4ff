import Netkit.Foundations.Rings
import Netkit.Routed.Main

/-!
# The walk of the timer

The chains of the tables are rings in memory, and the loops of `timer.c` walk along their links
while `rtdelete` takes routes out of them and frees them.
-/

namespace Netkit.Routed

open Netkit.Foundations

/-! ## The loops -/

/-- A chain: `true` for `hosthash`, `false` for `nethash`, and its number. -/
abbrev Bucket := Bool × Fin ROUTEHASHSIZ

/-- A `struct rthash`, or a `struct rt_entry`. -/
inductive Place where
  | head (k : Bucket)
  | entry (id : ℕ)
  deriving DecidableEq

def place (rt : RtEntry) : Place := .entry rt.id

structure Memory where
  cells : Cells Place RtEntry
  ioctls : List Ioctl

namespace Memory

/-- The program writes to the route `rt`. -/
def modify (rt : Place) (f : RtEntry → RtEntry) (m : Memory) : Option Memory := do
  let e ← m.cells.val rt
  some { m with cells := m.cells.write rt (f e) }

def rtchange (env : Env) (rt : Place) (gate : Sockaddr) (metric : Int) (m : Memory) :
    Option Memory := do
  let e ← m.cells.val rt
  some ⟨m.cells.write rt (changeEntry env gate metric e),
    m.ioctls ++ changeIoctls env gate metric e⟩

def rtdelete (env : Env) (rt : Place) (m : Memory) : Option Memory := do
  let e ← m.cells.val rt
  let cells ← m.cells.remque rt
  some ⟨cells.free rt, m.ioctls ++ deleteIoctls env e⟩

end Memory

/-- The inner loop of `timer`, at the place `rt` of the chain `rh`. The first number bounds the
passes. -/
def ageLoop (env : Env) (supplier : Int) (rh : Place) : ℕ → Place → Memory → Option Memory
  | 0, _, _ => none
  | passes + 1, rt, m =>
    if rt = rh then some m
    else do
      let m ← m.modify rt (fun e => { e with timer := advanced supplier e })
      let e ← m.cells.val rt
      if e.timer ≥ GARBAGE_TIME then
        let rt ← m.cells.back rt
        let next ← m.cells.forw rt
        let m ← m.rtdelete env next
        let rt ← m.cells.forw rt
        ageLoop env supplier rh passes rt m
      else
        let m ← if e.timer ≥ EXPIRE_TIME ∧ e.metric < HOPCNT_INFINITY then
          m.rtchange env rt e.router HOPCNT_INFINITY else some m
        let m ← m.modify rt (fun e => { e with changed := false })
        let rt ← m.cells.forw rt
        ageLoop env supplier rh passes rt m

/-- The chains in the order of the loops: `hosthash`, and `again` with `nethash`. -/
def buckets : List Bucket :=
  (List.finRange ROUTEHASHSIZ).map (fun b => (true, b)) ++
    (List.finRange ROUTEHASHSIZ).map (fun b => (false, b))

def ageMemory (env : Env) (supplier : Int) (passes : ℕ) (m : Memory) : Option Memory :=
  buckets.foldlM (fun m k => do
    let rt ← m.cells.forw (.head k)
    ageLoop env supplier (.head k) passes rt m) m

/-! ## One chain -/

variable {env : Env} {supplier : Int} {rh rt : Place} {passes : ℕ} {m : Memory} {e : RtEntry}

theorem ageLoop_end : ageLoop env supplier rh (passes + 1) rh m = some m := if_pos rfl

theorem ageLoop_stay {y : RtEntry} (hne : rt ≠ rh) (hval : m.cells.val rt = some e)
    (hy : ageEntry env supplier e = some y) :
    ageLoop env supplier rh (passes + 1) rt m = (m.cells.forw rt).bind fun next =>
      ageLoop env supplier rh passes next
        ⟨m.cells.write rt y, m.ioctls ++ ageIoctls env supplier e⟩ := by
  have hwrite (a b : RtEntry) : (m.cells.write rt a).write rt b = m.cells.write rt b := by
    unfold Cells.write
    rw [Function.update_idem]
  rw [ageLoop, if_neg hne]
  unfold ageEntry at hy
  unfold ageIoctls
  dsimp only at hy ⊢
  by_cases hgarbage : advanced supplier e ≥ GARBAGE_TIME
  · rw [if_pos hgarbage] at hy
    cases hy
  · rw [if_neg hgarbage] at hy ⊢
    obtain rfl := Option.some.inj hy
    by_cases hexpired : advanced supplier e ≥ EXPIRE_TIME ∧ e.metric < HOPCNT_INFINITY
    · simp [Memory.modify, Memory.rtchange, hval, hgarbage, hexpired, hwrite]
      rfl
    · simp [Memory.modify, hval, hgarbage, hexpired, hwrite]
      rfl

/-- A route that goes: the loop steps back, lets `rtdelete` take out what is then the next one, and
goes on behind it. -/
theorem ageLoop_gone {p next : Place} {cells : Cells Place RtEntry} (hne : rt ≠ rh)
    (hval : m.cells.val rt = some e) (hgone : ageEntry env supplier e = none)
    (hback : m.cells.back rt = some p) (hforw : m.cells.forw p = some rt)
    (hremque : (m.cells.write rt { e with timer := advanced supplier e }).remque rt = some cells)
    (hnext : (cells.free rt).forw p = some next) :
    ageLoop env supplier rh (passes + 1) rt m = ageLoop env supplier rh passes next
      ⟨cells.free rt, m.ioctls ++ ageIoctls env supplier e⟩ := by
  have hgarbage : advanced supplier e ≥ GARBAGE_TIME := by
    by_contra hyoung
    unfold ageEntry at hgone
    dsimp only at hgone
    rw [if_neg hyoung] at hgone
    cases hgone
  have hlinks : (m.cells.write rt { e with timer := advanced supplier e }).back rt = some p ∧
      (m.cells.write rt { e with timer := advanced supplier e }).forw p = some rt :=
    ⟨hback, hforw⟩
  rw [ageLoop, if_neg hne]
  unfold ageIoctls
  dsimp only
  rw [if_pos hgarbage]
  simp [Memory.modify, Memory.rtdelete, hval, hgarbage, hlinks, hremque, hnext]

/-- What the inner loop does to the chain `ds ++ ts` of `rh`, of which `ts` are still to be
visited. -/
structure Aged (env : Env) (supplier : Int) (rh : Place) (ds : List Place) (ts : List RtEntry)
    (m m' : Memory) : Prop where
  ring : Ring m'.cells rh (ds ++ (ts.filterMap (ageEntry env supplier)).map place)
  val : ∀ e ∈ ts.filterMap (ageEntry env supplier), m'.cells.val (place e) = some e
  visited : ∀ d ∈ ds, m'.cells.val d = m.cells.val d
  other : ∀ q ∉ rh :: (ds ++ ts.map place), m.cells.Same m'.cells q
  ioctls : m'.ioctls = m.ioctls ++ ts.flatMap (ageIoctls env supplier)

theorem place_ageEntry {y : RtEntry} (h : ageEntry env supplier e = some y) : place y = place e :=
  congrArg Place.entry (ageEntry_inPlace env supplier e y h).id

/-- The loop comes to its end, and has visited every route once. The induction is on the routes that
are still to be visited. -/
theorem ageLoop_aged (env : Env) (supplier : Int) (ds : List Place) (ts : List RtEntry) (m : Memory)
    (passes : ℕ)
    (hring : Ring m.cells rh (ds ++ ts.map place))
    (hval : ∀ e ∈ ts, m.cells.val (place e) = some e) (hpasses : ts.length < passes) :
    ∃ m', ageLoop env supplier rh passes ((ts.map place).headD rh) m = some m' ∧
      Aged env supplier rh ds ts m m' := by
  induction ts generalizing ds m passes with
  | nil =>
    obtain ⟨passes, rfl⟩ := Nat.exists_eq_add_one.mpr (Nat.zero_lt_of_lt hpasses)
    refine ⟨m, ageLoop_end, ⟨hring, ?_, fun _ _ => rfl, fun _ _ => ⟨rfl, rfl, rfl⟩, ?_⟩⟩
    · exact fun e he => absurd he List.not_mem_nil
    · exact (List.append_nil m.ioctls).symm
  | cons e ts ih =>
    obtain ⟨passes, rfl⟩ := Nat.exists_eq_add_one.mpr (Nat.zero_lt_of_lt hpasses)
    rw [List.length_cons, Nat.add_lt_add_iff_right] at hpasses
    rw [List.map_cons] at hring
    obtain ⟨hapart, -⟩ := hring.apart
    have hne : place e ≠ rh := fun heq => hapart (heq ▸ List.mem_cons_self)
    have hds : ∀ d ∈ ds, d ≠ place e := fun d hd heq =>
      hapart (List.mem_cons_of_mem rh (List.mem_append_left _ (heq ▸ hd)))
    have hts : ∀ x ∈ ts, place x ≠ place e := fun x hx heq =>
      hapart (List.mem_cons_of_mem rh (List.mem_append_right _ (heq ▸ List.mem_map_of_mem hx)))
    have he := hval e List.mem_cons_self
    have hrest : ∀ x ∈ ts, m.cells.val (place x) = some x := fun x hx =>
      hval x (List.mem_cons_of_mem e hx)
    have hout {q : Place} (hq : q ∉ rh :: (ds ++ (e :: ts).map place)) :
        q ≠ place e ∧ q ∉ rh :: (ds ++ ts.map place) := by
      rw [List.map_cons, Ring.mem_middle, not_or] at hq
      exact hq
    rw [List.map_cons, List.headD_cons]
    cases hage : ageEntry env supplier e with
    | none =>
      have hfilter : (e :: ts).filterMap (ageEntry env supplier) =
          ts.filterMap (ageEntry env supplier) := List.filterMap_cons_none hage
      obtain ⟨p, cells, hback, hforw, hremque, hring', hnext, hsame, hvals⟩ :=
        (hring.write (x := place e) { e with timer := advanced supplier e }).remque
      have hvals' {q : Place} (hq : q ≠ place e) : (cells.free (place e)).val q = m.cells.val q :=
        (hvals q hq).trans (Cells.write_same hq).val
      obtain ⟨m', hrun, haged⟩ := ih ds
        ⟨cells.free (place e), m.ioctls ++ ageIoctls env supplier e⟩ passes hring'
        (fun x hx => (hvals' (hts x hx)).trans (hrest x hx)) hpasses
      refine ⟨m', ?_, ⟨hfilter ▸ haged.ring, hfilter ▸ haged.val, fun d hd => ?_, fun q hq => ?_,
        ?_⟩⟩
      · rw [ageLoop_gone hne he hage hback hforw hremque hnext]
        exact hrun
      · exact (haged.visited d hd).trans (hvals' (hds d hd))
      · obtain ⟨hqe, hq'⟩ := hout hq
        exact (Cells.write_same hqe).trans ((hsame q hq).trans (haged.other q hq'))
      · rw [haged.ioctls, List.flatMap_cons, List.append_assoc]
    | some y =>
      have hfilter : (e :: ts).filterMap (ageEntry env supplier) =
          y :: ts.filterMap (ageEntry env supplier) := List.filterMap_cons_some hage
      have hplace := place_ageEntry hage
      have hring' := hring.write (x := place e) y
      have hsplit : ds ++ place e :: ts.map place = ds ++ [place e] ++ ts.map place :=
        (List.append_assoc ds [place e] _).symm
      obtain ⟨m', hrun, haged⟩ := ih (ds ++ [place e])
        ⟨m.cells.write (place e) y, m.ioctls ++ ageIoctls env supplier e⟩ passes (hsplit ▸ hring')
        (fun x hx => (Cells.write_same (hts x hx)).val.trans (hrest x hx)) hpasses
      refine ⟨m', ?_, ⟨?_, fun x hx => ?_, fun d hd => ?_, fun q hq => ?_, ?_⟩⟩
      · rw [ageLoop_stay hne he hage, hring.next, Option.bind_some]
        exact hrun
      · rw [hfilter, List.map_cons, hplace]
        have hdone := haged.ring
        rwa [List.append_assoc] at hdone
      · rw [hfilter] at hx
        rcases List.mem_cons.mp hx with rfl | hx
        · rw [hplace, haged.visited _ (List.mem_append_right ds (List.mem_singleton_self _))]
          exact Cells.write_val _ _
        · exact haged.val x hx
      · exact (haged.visited d (List.mem_append_left _ hd)).trans
          (Cells.write_same (hds d hd)).val
      · obtain ⟨hqe, -⟩ := hout hq
        refine (Cells.write_same hqe).trans (haged.other q ?_)
        rw [← hsplit]
        exact hq
      · rw [haged.ioctls, List.flatMap_cons, List.append_assoc]

/-! ## All chains -/

def Tables.chain (t : Tables) (k : Bucket) : List RtEntry :=
  if k.1 then t.hosthash k.2 else t.nethash k.2

/-- The chains `c` stand in the memory, no route in two of them. -/
structure Holds (m : Memory) (c : Bucket → List RtEntry) : Prop where
  ring : ∀ k, Ring m.cells (.head k) ((c k).map place)
  val : ∀ k, ∀ e ∈ c k, m.cells.val (place e) = some e
  apart : ∀ k l, ∀ e ∈ c k, ∀ x ∈ c l, e.id = x.id → k = l

structure Represents (m : Memory) (t : Tables) : Prop where
  holds : Holds m t.chain
  ioctls : m.ioctls = t.ioctls

theorem ageChain_holds (env : Env) (supplier : Int) {c : Bucket → List RtEntry} (h : Holds m c)
    (k : Bucket) (hpasses : (c k).length < passes) :
    ∃ rt m', m.cells.forw (.head k) = some rt ∧
      ageLoop env supplier (.head k) passes rt m = some m' ∧
      Holds m' (Function.update c k ((c k).filterMap (ageEntry env supplier))) ∧
      m'.ioctls = m.ioctls ++ (c k).flatMap (ageIoctls env supplier) := by
  have hring := h.ring k
  obtain ⟨m', hrun, haged⟩ := ageLoop_aged env supplier [] (c k) m passes
    hring (h.val k) hpasses
  -- What stands in another chain is not a place of this one.
  have hhead {l : Bucket} (hl : l ≠ k) :
      Place.head l ∉ Place.head k :: ([] ++ (c k).map place) := by
    intro hmem
    rcases List.mem_cons.mp hmem with heq | hmem
    · exact hl (Place.head.inj heq)
    · obtain ⟨x, -, heq⟩ := List.mem_map.mp hmem
      cases heq
  have hplace {l : Bucket} (hl : l ≠ k) {e : RtEntry} (he : e ∈ c l) :
      place e ∉ Place.head k :: ([] ++ (c k).map place) := by
    intro hmem
    rcases List.mem_cons.mp hmem with heq | hmem
    · cases heq
    · obtain ⟨x, hx, heq⟩ := List.mem_map.mp hmem
      exact hl (h.apart l k e he x hx (Place.entry.inj heq).symm)
  have hfrom (l : Bucket) {e : RtEntry}
      (he : e ∈ Function.update c k ((c k).filterMap (ageEntry env supplier)) l) :
      ∃ x ∈ c l, e.id = x.id := by
    by_cases hl : l = k
    · rw [hl, Function.update_self] at he
      obtain ⟨x, hx, hxe⟩ := List.mem_filterMap.mp he
      exact ⟨x, hl ▸ hx, (ageEntry_inPlace env supplier x e hxe).id⟩
    · rw [Function.update_of_ne hl] at he
      exact ⟨e, he, rfl⟩
  refine ⟨_, m', hring.start, hrun, ⟨fun l => ?_, fun l e he => ?_, ?_⟩, haged.ioctls⟩
  · by_cases hl : l = k
    · rw [hl, Function.update_self]
      exact haged.ring
    · rw [Function.update_of_ne hl]
      have hsame : ∀ q ∈ Place.head l :: (c l).map place, m.cells.Same m'.cells q := by
        intro q hq
        rcases List.mem_cons.mp hq with rfl | hq
        · exact haged.other _ (hhead hl)
        · obtain ⟨x, hx, rfl⟩ := List.mem_map.mp hq
          exact haged.other _ (hplace hl hx)
      exact (h.ring l).congr (fun q hq => (hsame q hq).forw) (fun q hq => (hsame q hq).back)
  · by_cases hl : l = k
    · rw [hl, Function.update_self] at he
      exact haged.val e he
    · rw [Function.update_of_ne hl] at he
      exact (haged.other _ (hplace hl he)).val.trans (h.val l e he)
  · intro l l' e he x hx hid
    obtain ⟨y, hy, hye⟩ := hfrom l he
    obtain ⟨z, hz, hzx⟩ := hfrom l' hx
    exact h.apart l l' y hy z hz (hye.symm.trans (hid.trans hzx))

/-- The induction is on the chains that are still to be walked. -/
theorem ageChains_holds (env : Env) (supplier : Int) {c : Bucket → List RtEntry} (h : Holds m c)
    (ks : List Bucket) (hks : ks.Nodup) (hpasses : ∀ k, (c k).length < passes) :
    ∃ m', ks.foldlM (fun m k => do
        let rt ← m.cells.forw (.head k)
        ageLoop env supplier (.head k) passes rt m) m = some m' ∧
      Holds m' (fun k => if k ∈ ks then (c k).filterMap (ageEntry env supplier) else c k) ∧
      m'.ioctls = m.ioctls ++ (ks.flatMap c).flatMap (ageIoctls env supplier) := by
  induction ks generalizing m c with
  | nil => exact ⟨m, rfl, h, (List.append_nil m.ioctls).symm⟩
  | cons k ks ih =>
    obtain ⟨hk, hks⟩ := List.nodup_cons.mp hks
    obtain ⟨rt, m₁, hstart, hrun, hholds, hioctls⟩ :=
      ageChain_holds env supplier h k (hpasses k)
    obtain ⟨m', hrun', hholds', hioctls'⟩ := ih hholds hks (fun l => by
      by_cases hl : l = k
      · rw [hl, Function.update_self]
        exact (List.length_filterMap_le _ _).trans_lt (hpasses k)
      · rw [Function.update_of_ne hl]
        exact hpasses l)
    refine ⟨m', ?_, ?_, ?_⟩
    · rw [List.foldlM_cons, hstart]
      dsimp only [Option.bind_eq_bind, Option.bind_some]
      rw [hrun]
      exact hrun'
    · have hchains :
          (fun l => if l ∈ k :: ks then (c l).filterMap (ageEntry env supplier) else c l) =
          fun l => if l ∈ ks then (Function.update c k ((c k).filterMap (ageEntry env supplier)) l
            ).filterMap (ageEntry env supplier)
            else Function.update c k ((c k).filterMap (ageEntry env supplier)) l := by
        funext l
        by_cases hl : l = k
        · subst hl
          rw [if_pos List.mem_cons_self, if_neg hk, Function.update_self]
        · rw [Function.update_of_ne hl]
          exact if_congr (List.mem_cons.trans (or_iff_right hl)) rfl rfl
      rw [hchains]
      exact hholds'
    · have hchains : ks.flatMap (Function.update c k ((c k).filterMap (ageEntry env supplier))) =
          ks.flatMap c := List.flatMap_congr (fun l hl =>
        Function.update_of_ne (fun heq : l = k => hk (heq ▸ hl)) _ _)
      rw [hioctls', hioctls, hchains, List.flatMap_cons, List.flatMap_append, List.append_assoc]

theorem nodup_buckets : buckets.Nodup := by
  have hnodup (host : Bool) :
      ((List.finRange ROUTEHASHSIZ).map (fun b => (host, b))).Nodup :=
    (List.nodup_finRange ROUTEHASHSIZ).map (fun _ _ h => (Prod.mk.inj h).2)
  refine (hnodup true).append (hnodup false) (fun k htrue hfalse => ?_)
  obtain ⟨b, -, rfl⟩ := List.mem_map.mp htrue
  obtain ⟨b', -, heq⟩ := List.mem_map.mp hfalse
  cases heq

theorem mem_buckets (k : Bucket) : k ∈ buckets := by
  obtain ⟨host, b⟩ := k
  cases host with
  | true => exact List.mem_append_left _ (List.mem_map_of_mem (List.mem_finRange b))
  | false => exact List.mem_append_right _ (List.mem_map_of_mem (List.mem_finRange b))

theorem flatMap_chain (t : Tables) : buckets.flatMap t.chain = t.entries := by
  rw [buckets, List.flatMap_append, List.flatMap_map, List.flatMap_map]
  rfl

/-- The loops of `timer` come to their end, and leave the tables with every route aged once; what
they ask of the kernel is what `ageTables` says. -/
theorem ageMemory_represents {t : Tables} (h : Represents m t)
    (hpasses : ∀ k, (t.chain k).length < passes) :
    ∃ m', ageMemory env supplier passes m = some m' ∧
      Represents m' (ageTables env supplier t) := by
  obtain ⟨m', hrun, hholds, hioctls⟩ := ageChains_holds env supplier
    h.holds buckets nodup_buckets hpasses
  refine ⟨m', hrun, ⟨?_, ?_⟩⟩
  · have hchain : (ageTables env supplier t).chain =
        fun k => if k ∈ buckets then (t.chain k).filterMap (ageEntry env supplier)
          else t.chain k := by
      funext k
      rw [if_pos (mem_buckets k)]
      unfold Tables.chain
      split <;> rfl
    rw [hchain]
    exact hholds
  · rw [hioctls, flatMap_chain, h.ioctls]
    rfl

/-! ## The memory of any tables -/

/-- `rtinit`: every head is linked to itself. -/
def Memory.rtinit : Memory where
  cells :=
    { forw := fun q => match q with
        | .head k => some (.head k)
        | .entry _ => none
      back := fun q => match q with
        | .head k => some (.head k)
        | .entry _ => none
      val := fun _ => none }
  ioctls := []

/-- `malloc` and `insque` of `rtadd`. -/
def Memory.insque (k : Bucket) (rt : RtEntry) (m : Memory) : Option Memory := do
  let cells ← (m.cells.alloc (place rt) rt).insque (place rt) (.head k)
  some { m with cells := cells }

theorem rtinit_holds : Holds Memory.rtinit (fun _ => []) where
  ring _ := ⟨List.isChain_pair.mpr ⟨rfl, rfl⟩, List.nodup_singleton _⟩
  val _ _ he := absurd he List.not_mem_nil
  apart _ _ _ he := absurd he List.not_mem_nil

theorem insque_holds {c : Bucket → List RtEntry} (h : Holds m c) (k : Bucket) (rt : RtEntry)
    (hfresh : ∀ l, ∀ e ∈ c l, e.id ≠ rt.id) :
    ∃ m', m.insque k rt = some m' ∧ Holds m' (Function.update c k (rt :: c k)) ∧
      m'.ioctls = m.ioctls := by
  have hplace {l : Bucket} {e : RtEntry} (he : e ∈ c l) : place e ≠ place rt := fun heq =>
    hfresh l e he (Place.entry.inj heq)
  have hout : place rt ∉ Place.head k :: (c k).map place := by
    intro hmem
    rcases List.mem_cons.mp hmem with heq | hmem
    · cases heq
    · obtain ⟨x, hx, heq⟩ := List.mem_map.mp hmem
      exact hplace hx heq
  obtain ⟨cells, hrun, hring, hsame, hval⟩ := (h.ring k).insque hout rt
  have hother {l : Bucket} (hl : l ≠ k) : ∀ q ∈ Place.head l :: (c l).map place,
      q ∉ Place.head k :: place rt :: (c k).map place := by
    intro q hq hmem
    rcases List.mem_cons.mp hq with rfl | hq
    · rcases List.mem_cons.mp hmem with heq | hmem
      · exact hl (Place.head.inj heq)
      · rcases List.mem_cons.mp hmem with heq | hmem
        · cases heq
        · obtain ⟨x, -, heq⟩ := List.mem_map.mp hmem
          cases heq
    · obtain ⟨e, he, rfl⟩ := List.mem_map.mp hq
      rcases List.mem_cons.mp hmem with heq | hmem
      · cases heq
      · rcases List.mem_cons.mp hmem with heq | hmem
        · exact hplace he heq
        · obtain ⟨x, hx, heq⟩ := List.mem_map.mp hmem
          exact hl (h.apart l k e he x hx (Place.entry.inj heq).symm)
  have hmem {l : Bucket} {e : RtEntry} (he : e ∈ Function.update c k (rt :: c k) l) :
      l = k ∧ e = rt ∨ e ∈ c l := by
    by_cases hl : l = k
    · rw [hl, Function.update_self] at he
      exact (List.mem_cons.mp he).imp (fun he => ⟨hl, he⟩) (fun he => hl ▸ he)
    · rw [Function.update_of_ne hl] at he
      exact Or.inr he
  refine ⟨{ m with cells := cells }, ?_, ⟨fun l => ?_, fun l e he => ?_, ?_⟩, rfl⟩
  · rw [Memory.insque, hrun]
    rfl
  · by_cases hl : l = k
    · rw [hl, Function.update_self]
      exact hring
    · rw [Function.update_of_ne hl]
      exact (h.ring l).congr (fun q hq => (hsame q (hother hl q hq)).forw)
        (fun q hq => (hsame q (hother hl q hq)).back)
  · change cells.val (place e) = some e
    rw [hval]
    rcases hmem he with ⟨-, rfl⟩ | he
    · exact Function.update_self _ _ _
    · exact (Function.update_of_ne (hplace he) _ _).trans (h.val l e he)
  · intro l l' e he x hx hid
    rcases hmem he with ⟨hl, heq⟩ | hold
    · rcases hmem hx with ⟨hl', -⟩ | hold'
      · exact hl.trans hl'.symm
      · exact absurd (hid.symm.trans (congrArg RtEntry.id heq)) (hfresh l' x hold')
    · rcases hmem hx with ⟨-, heq'⟩ | hold'
      · exact absurd (hid.trans (congrArg RtEntry.id heq')) (hfresh l e hold)
      · exact h.apart l l' e hold x hold' hid

/-- The induction is on the routes of the chain, the last one is put in first. -/
theorem exists_chain {c : Bucket → List RtEntry} (h : Holds m c) (k : Bucket) (hk : c k = [])
    (l : List RtEntry) (hnodup : (l.map RtEntry.id).Nodup)
    (hfresh : ∀ x ∈ l, ∀ k', ∀ e ∈ c k', e.id ≠ x.id) :
    ∃ m', Holds m' (Function.update c k l) := by
  induction l with
  | nil => exact ⟨m, hk ▸ (Function.update_eq_self k c).symm ▸ h⟩
  | cons x l ih =>
    obtain ⟨hx, hnodup⟩ := List.nodup_cons.mp hnodup
    obtain ⟨m₁, hholds⟩ := ih hnodup (fun y hy => hfresh y (List.mem_cons_of_mem x hy))
    obtain ⟨m', -, hholds', -⟩ := insque_holds hholds k x (fun k' e he hid => by
      by_cases hk' : k' = k
      · rw [hk', Function.update_self] at he
        exact hx (hid ▸ List.mem_map_of_mem he)
      · rw [Function.update_of_ne hk'] at he
        exact hfresh x List.mem_cons_self k' e he hid)
    rw [Function.update_self, Function.update_idem] at hholds'
    exact ⟨m', hholds'⟩

theorem exists_holds (c : Bucket → List RtEntry) (hnodup : ∀ k, ((c k).map RtEntry.id).Nodup)
    (hapart : ∀ k l, ∀ e ∈ c k, ∀ x ∈ c l, e.id = x.id → k = l) (ks : List Bucket)
    (hks : ks.Nodup) : ∃ m, Holds m (fun k => if k ∈ ks then c k else []) := by
  induction ks with
  | nil => exact ⟨Memory.rtinit, rtinit_holds⟩
  | cons k ks ih =>
    obtain ⟨hk, hks⟩ := List.nodup_cons.mp hks
    obtain ⟨m, hholds⟩ := ih hks
    obtain ⟨m', hholds'⟩ := exists_chain hholds k (if_neg hk) (c k) (hnodup k)
      (fun x hx l e he hid => by
        split at he
        · next hl => exact hk (hapart l k e he x hx hid ▸ hl)
        · exact absurd he List.not_mem_nil)
    refine ⟨m', ?_⟩
    have hchains : (fun l => if l ∈ k :: ks then c l else []) =
        Function.update (fun l => if l ∈ ks then c l else []) k (c k) := by
      funext l
      by_cases hl : l = k
      · rw [hl, Function.update_self, if_pos List.mem_cons_self]
      · rw [Function.update_of_ne hl]
        exact if_congr (List.mem_cons.trans (or_iff_right hl)) rfl rfl
    rw [hchains]
    exact hholds'

theorem mem_chain {t : Tables} {k : Bucket} {e : RtEntry} (he : e ∈ t.chain k) :
    e ∈ t.entries ∧ k = (e.host, bucket e.hash) := by
  obtain ⟨host, b⟩ := k
  cases host with
  | true =>
    have hmem : e ∈ t.hosthash.elements := Chains.mem_elements.mpr ⟨b, he⟩
    exact ⟨mem_entries.mpr (Or.inl hmem), Prod.ext (t.wellFormed.hosts e hmem).symm
      (t.wellFormed.hostChains b e he).symm⟩
  | false =>
    have hmem : e ∈ t.nethash.elements := Chains.mem_elements.mpr ⟨b, he⟩
    exact ⟨mem_entries.mpr (Or.inr hmem), Prod.ext (t.wellFormed.nets e hmem).symm
      (t.wellFormed.netChains b e he).symm⟩

theorem exists_represents (t : Tables) : ∃ m, Represents m t := by
  have hnodup : ∀ k, ((t.chain k).map RtEntry.id).Nodup := by
    intro k
    have hdistinct := t.wellFormed.distinct
    rw [show t.hosthash.elements ++ t.nethash.elements = buckets.flatMap t.chain from
      (flatMap_chain t).symm] at hdistinct
    exact List.pairwise_map.mpr ((List.pairwise_flatMap.mp hdistinct).1 k (mem_buckets k))
  have hapart : ∀ k l, ∀ e ∈ t.chain k, ∀ x ∈ t.chain l, e.id = x.id → k = l := by
    intro k l e he x hx hid
    obtain ⟨hmem, hk⟩ := mem_chain he
    obtain ⟨hmem', hl⟩ := mem_chain hx
    obtain rfl := entry_eq hmem hmem' hid
    exact hk.trans hl.symm
  obtain ⟨m, hholds⟩ := exists_holds t.chain hnodup hapart buckets nodup_buckets
  have hall : (fun k => if k ∈ buckets then t.chain k else []) = t.chain :=
    funext (fun k => if_pos (mem_buckets k))
  rw [hall] at hholds
  exact ⟨⟨m.cells, t.ioctls⟩, ⟨hholds.ring, hholds.val, hholds.apart⟩, rfl⟩

end Netkit.Routed

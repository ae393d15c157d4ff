import Netkit.Timed.Registration

/-!
# The array of networkdelta

`networkdelta` collects the deltas of the hosts in an array, first those of the trusted hosts behind
its own zero, and then all that are near their median, its own one among them.

* `networkdelta_inside`: only a full table makes them store outside.
-/

namespace Netkit.Timed.Hosttbl

open Netkit.Foundations

def HOSTDOWN : ℤ := 0x7fffffff

def MIN_ROUND : ℤ := (1000 - 1) / 100

def VALID_RANGE : ℕ := 20 * 1000

def GOOD_RANGE : ℤ := MIN_ROUND * 2

def VGOOD_RANGE : ℤ := MIN_ROUND - 1

def Table.marked (t : Table) (good : ℕ → Bool) (noanswer : ℕ → ℕ) : Table :=
  { t with slot := fun i => { t.slot i with good := good i, noanswer := noanswer i } }

/-! ## The function -/

/-- `x[i] = v`, if the array has such an element. -/
def put (x : ℕ → ℤ) (i : ℕ) (v : ℤ) : Option (ℕ → ℤ) :=
  if i < NHOSTS then some (Function.update x i v) else none

/-- From `htp` on to `&self`, with at most so many rounds. -/
def walk {σ : Type} (t : Table) (body : σ → ℕ → Option σ) : ℕ → ℕ → σ → Option σ
  | 0, _, _ => none
  | fuel + 1, htp, s =>
    if htp = 0 then some s
    else do
      let s ← body s htp
      let htp ← (t.slot htp).lFwd
      walk t body fuel htp s

/-- The variables of the first loop. -/
structure Sum where
  med : ℤ
  numdelta : ℕ
  x : ℕ → ℤ
  xp : ℕ
  counted : numdelta = xp + 1

def Collected (t : Table) (delta : ℕ → ℤ) (htp : ℕ) : Prop :=
  (t.slot htp).good = true ∧ (t.slot htp).noanswer = 0 ∧ delta htp ≠ HOSTDOWN

instance (t : Table) (delta : ℕ → ℤ) (htp : ℕ) : Decidable (Collected t delta htp) :=
  inferInstanceAs (Decidable (_ ∧ _ ∧ _))

def collect (t : Table) (delta : ℕ → ℤ) (s : Sum) (htp : ℕ) : Option Sum :=
  if Collected t delta htp then do
    let x ← put s.x (s.xp + 1) (delta htp)
    some ⟨s.med + delta htp, s.numdelta + 1, x, s.xp + 1, by rw [s.counted]⟩
  else some s

def Near (t : Table) (delta : ℕ → ℤ) (med : ℤ) (htp : ℕ) : Prop :=
  (t.slot htp).noanswer = 0 ∧ med - GOOD_RANGE ≤ delta htp ∧ delta htp ≤ med + GOOD_RANGE ∧
    ((t.slot htp).good = true ∨ med - VGOOD_RANGE ≤ delta htp ∧ delta htp ≤ med + VGOOD_RANGE)

instance (t : Table) (delta : ℕ → ℤ) (med : ℤ) (htp : ℕ) : Decidable (Near t delta med htp) :=
  inferInstanceAs (Decidable (_ ∧ _ ∧ _ ∧ _))

def select (t : Table) (delta : ℕ → ℤ) (med : ℤ) (s : (ℕ → ℤ) × ℕ) (htp : ℕ) :
    Option ((ℕ → ℤ) × ℕ) :=
  if Near t delta med htp then do
    let x ← put s.1 s.2 (delta htp)
    some (x, s.2 + 1)
  else some s

/-- What `median` gets, with the numbers of floating point `ε`, and what it returns and leaves in
`eps`. -/
abbrev Median (ε : Type) := ℤ → ε → List ℤ → ℕ → ℤ × ε

/-- The value of the first `median`. -/
def Sum.median {ε : Type} (median : Median ε) (float : ℤ → ε) (s : Sum) : ℤ × ε :=
  let med := s.med.tdiv s.numdelta
  median med (float (med - s.x 0)) ((List.range (s.xp + 1)).map s.x) VALID_RANGE

/-- `compute the median of the good values`. -/
def firstPass (t : Table) (delta x : ℕ → ℤ) : Option Sum := do
  let x ← put x 0 0
  let htp ← (t.slot 0).lFwd
  walk t (collect t delta) (NHOSTS + 1) htp ⟨0, 1, x, 0, rfl⟩

/-- `compute the median of all values near the good median`. -/
def secondPass (t : Table) (delta : ℕ → ℤ) (med : ℤ) (x : ℕ → ℤ) : Option ((ℕ → ℤ) × ℕ) := do
  let r ← select t delta med (x, 0) 0
  let htp ← (t.slot 0).lFwd
  walk t (select t delta med) (NHOSTS + 1) htp r

def networkdelta {ε : Type} (median : Median ε) (float : ℤ → ε) (t : Table) (delta x : ℕ → ℤ) :
    Option ℤ := do
  let s ← firstPass t delta x
  if s.numdelta = 1 then some 0
  else
    let (med, eps) := s.median median float
    let (x, xp) ← secondPass t delta med s.x
    if xp = 0 then some med
    else if xp = 1 then some (x 0)
    else some (median med eps ((List.range xp).map x) 1).1

/-! ## The loops -/

variable {t : Table} {delta : ℕ → ℤ} {order : List ℕ}

theorem walk_rest {σ : Type} (body : σ → ℕ → Option σ) (ds : List ℕ) {ts : List ℕ}
    {fuel : ℕ}    (H : Ring t.view.list 0 (ds ++ ts)) (hfuel : ts.length < fuel) (s : σ) :
    walk t body fuel (ts.headD 0) s = ts.foldlM body s := by
  induction ts generalizing ds fuel s with
  | nil =>
    obtain ⟨fuel, rfl⟩ := Nat.exists_eq_add_of_lt hfuel
    rfl
  | cons x ts ih =>
    obtain ⟨fuel, rfl⟩ : ∃ fuel', fuel = fuel' + 1 := ⟨fuel - 1, by omega⟩
    have hx : x ≠ 0 := by
      rintro rfl
      exact H.apart.1 List.mem_cons_self
    have hnext : (t.slot x).lFwd = some (ts.headD 0) := H.next
    have hrest : Ring t.view.list 0 ((ds ++ [x]) ++ ts) := by
      rwa [List.append_assoc, List.singleton_append]
    rw [List.headD_cons, walk, if_neg hx, List.foldlM_cons, hnext]
    apply bind_congr
    intro s'
    exact ih _ hrest (Nat.lt_of_succ_lt_succ hfuel) s'

theorem walk_eq {σ : Type} (body : σ → ℕ → Option σ) (H : Ring t.view.list 0 order)
    (hlength : order.length ≤ NHOSTS) (s : σ) :
    (do walk t body (NHOSTS + 1) (← (t.slot 0).lFwd) s) = order.foldlM body s := by
  have hfirst : (t.slot 0).lFwd = some (order.headD 0) := H.start
  rw [hfirst, Option.bind_eq_bind, Option.bind_some]
  exact walk_rest body [] H (Nat.lt_succ_of_le hlength) s

/-- A body that takes one of the places left for each host with `p`. -/
theorem foldlM_fill {σ : Type} {body : σ → ℕ → Option σ} {pos : σ → ℕ} {p : ℕ → Bool} {room : ℕ}
    (hstep : ∀ s i, (body s i).map pos =
      if p i then if pos s < room then some (pos s + 1) else none else some (pos s))
    (is : List ℕ) {s : σ} (hs : pos s ≤ room) :
    (is.foldlM body s).map pos =
      if pos s + is.countP p ≤ room then some (pos s + is.countP p) else none := by
  induction is generalizing s with
  | nil => simp [hs]
  | cons i is ih =>
    have hi := hstep s i
    rw [List.foldlM_cons, List.countP_cons]
    cases hbody : body s i with
    | none =>
      rw [hbody, Option.map_none] at hi
      by_cases hp : p i = true
      · have hroom : ¬ pos s < room := by
          intro hlt
          simp [hp, hlt] at hi
        rw [if_pos hp, if_neg (by omega)]
        rfl
      · simp [hp] at hi
    | some s' =>
      rw [hbody, Option.map_some] at hi
      rw [Option.bind_eq_bind, Option.bind_some]
      split_ifs at hi with hp hroom
      · have hpos := Option.some.inj hi
        rw [ih (by omega), if_pos hp, hpos, Nat.add_assoc, Nat.add_comm 1]
      · have hpos := Option.some.inj hi
        rw [ih (by omega), if_neg hp, hpos, Nat.add_zero]

theorem collect_xp (t : Table) (delta : ℕ → ℤ) (s : Sum) (i : ℕ) :
    (collect t delta s i).map Sum.xp =
      if decide (Collected t delta i) then if s.xp < NHOSTS - 1 then some (s.xp + 1) else none
      else some s.xp := by
  have hroom : s.xp + 1 < NHOSTS ↔ s.xp < NHOSTS - 1 := by unfold NHOSTS; omega
  simp only [collect, put, hroom, decide_eq_true_eq]
  split_ifs <;> rfl

theorem select_xp (t : Table) (delta : ℕ → ℤ) (med : ℤ) (s : (ℕ → ℤ) × ℕ) (i : ℕ) :
    (select t delta med s i).map Prod.snd =
      if decide (Near t delta med i) then if s.2 < NHOSTS then some (s.2 + 1) else none
      else some s.2 := by
  simp only [select, put, decide_eq_true_eq]
  split_ifs <;> rfl

theorem firstPass_xp (delta : ℕ → ℤ) (H : Ring t.view.list 0 order)
    (hlength : order.length ≤ NHOSTS) (x : ℕ → ℤ) : (firstPass t delta x).map Sum.xp =
      if order.countP (fun i => Collected t delta i) < NHOSTS then
        some (order.countP fun i => Collected t delta i)
      else none := by
  have hput : put x 0 0 = some (Function.update x 0 0) := if_pos (by decide)
  have hcount := foldlM_fill (collect_xp t delta) order
    (s := ⟨0, 1, Function.update x 0 0, 0, rfl⟩) (Nat.zero_le _)
  have hroom (n : ℕ) : n ≤ NHOSTS - 1 ↔ n < NHOSTS := by unfold NHOSTS; omega
  simp only [Nat.zero_add, hroom] at hcount
  rw [firstPass, hput, Option.bind_eq_bind, Option.bind_some]
  exact (congrArg _ (walk_eq (collect t delta) H hlength _)).trans hcount

theorem secondPass_isSome (H : Ring t.view.list 0 order) (hlength : order.length ≤ NHOSTS)
    (med : ℤ) (x : ℕ → ℤ) : (secondPass t delta med x).isSome ↔
      (0 :: order).countP (fun i => Near t delta med i) ≤ NHOSTS := by
  have hcount := foldlM_fill (select_xp t delta med) (0 :: order) (s := (x, 0)) (Nat.zero_le _)
  have hwalk : secondPass t delta med x = (0 :: order).foldlM (select t delta med) (x, 0) := by
    rw [secondPass, List.foldlM_cons]
    apply bind_congr
    intro r
    exact walk_eq (select t delta med) H hlength r
  rw [hwalk, ← Option.isSome_map, hcount, Nat.zero_add]
  split_ifs with hroom <;> simp [hroom]

/-- What the stores depend on, with the value that `median` returns. -/
theorem networkdelta_isSome {ε : Type} (median : Median ε) (float : ℤ → ε)
    (delta x : ℕ → ℤ) (H : Ring t.view.list 0 order) (hlength : order.length ≤ NHOSTS) :
    (networkdelta median float t delta x).isSome ↔
      ∃ s, firstPass t delta x = some s ∧
        (order.countP (fun i => Collected t delta i) = 0 ∨
          (0 :: order).countP (fun i => Near t delta (s.median median float).1 i) ≤ NHOSTS) := by
  have hxp := firstPass_xp delta H hlength x
  cases hs : firstPass t delta x with
  | none => simp [networkdelta, hs]
  | some s =>
    rw [hs, Option.map_some] at hxp
    have hcount : s.xp = order.countP fun i => Collected t delta i := by
      split_ifs at hxp
      exact Option.some.inj hxp
    simp only [Option.some.injEq, exists_eq_left']
    rw [← secondPass_isSome H hlength _ s.x, ← hcount, networkdelta, hs]
    simp only [Option.bind_eq_bind, Option.bind_some, s.counted, Nat.add_eq_right]
    by_cases hzero : s.xp = 0
    · simp [hzero]
    · cases secondPass t delta (s.median median float).1 s.x with
      | none => simp [hzero]
      | some r =>
        simp only [hzero, if_false, Option.bind_some, Option.isSome_some, or_true, iff_true]
        split_ifs <;> rfl

/-! ## A full table -/

/-- The table has as many hosts as `x` has elements, and in one of the passes none of the values is
left out. -/
def Overfull (t : Table) (delta : ℕ → ℤ) : Prop :=
  t.slvcount = NHOSTS ∧
    ((∀ i, 0 < i → i ≤ NHOSTS → Collected t delta i) ∨
      (∃ i, 0 < i ∧ i ≤ NHOSTS ∧ Collected t delta i) ∧
        ∃ med, ∀ i ≤ NHOSTS, Near t delta med i)

variable {hostname : Bytes}

theorem Inv.length_le_NHOSTS (H : Inv hostname t order) : order.length ≤ NHOSTS := by
  have hlength := H.length_le H.nodup fun i hi => hi
  rwa [List.length_cons, Nat.add_le_add_iff_right] at hlength

theorem Inv.mem_full (H : Inv hostname t order) (hfull : order.length = NHOSTS) {i : ℕ} :
    i ∈ 0 :: order ↔ i ≤ NHOSTS := by
  have hsub : 0 :: order ⊆ List.range (NHOSTS + 1) := by
    intro j hj
    rw [List.mem_range, Nat.lt_succ_iff]
    rcases List.mem_cons.mp hj with rfl | hj
    · exact Nat.zero_le NHOSTS
    · exact H.range j hj
  have hperm : (0 :: order).Perm (List.range (NHOSTS + 1)) := by
    apply (List.subperm_of_subset H.nodup hsub).perm_of_length_le
    rw [List.length_range, List.length_cons, hfull]
  rw [hperm.mem_iff, List.mem_range, Nat.lt_succ_iff]

theorem Inv.marked (H : Inv hostname t order) (good : ℕ → Bool) (noanswer : ℕ → ℕ) :
    Inv hostname (t.marked good noanswer) order :=
  ⟨H.rings, H.self, H.free, H.count, H.range, H.taken, H.empty⟩

theorem countP_lt {p : ℕ → Prop} [DecidablePred p] (is : List ℕ) {n : ℕ} (hn : is.length ≤ n) :
    is.countP (fun i => p i) < n ↔ ¬ (is.length = n ∧ ∀ i ∈ is, p i) := by
  have hle : is.countP (fun i => p i) ≤ is.length := List.countP_le_length
  have hall := List.countP_eq_length (p := fun i => decide (p i)) (l := is)
  simp only [decide_eq_true_eq] at hall
  rw [← hall]
  omega

theorem Inv.overfull_iff (H : Inv hostname t order) : Overfull t delta ↔
    order.length = NHOSTS ∧ ((∀ i ∈ order, Collected t delta i) ∨
      (∃ i ∈ order, Collected t delta i) ∧ ∃ med, ∀ i ∈ 0 :: order, Near t delta med i) := by
  rw [Overfull, H.count]
  apply and_congr_right
  intro hfull
  have hmem (i : ℕ) : i ∈ order ↔ 0 < i ∧ i ≤ NHOSTS := by
    rw [← H.mem_full hfull, List.mem_cons, Nat.pos_iff_ne_zero]
    constructor
    · intro hi
      exact ⟨(H.rings.ne_first hi).symm, .inr hi⟩
    · rintro ⟨hne, hi⟩
      exact hi.resolve_left hne
  simp only [hmem, H.mem_full hfull, and_imp, and_assoc]

/-- The stores stay inside for whatever `median` returns exactly if the table is not overfull. -/
theorem Inv.networkdelta_iff (H : Inv hostname t order) {ε : Type} (float : ℤ → ε) (x : ℕ → ℤ) :
    (∀ median : Median ε, (networkdelta median float t delta x).isSome) ↔ ¬ Overfull t delta := by
  have hlength := H.length_le_NHOSTS
  have hring := H.rings.list
  have hfirst := firstPass_xp delta hring hlength x
  have hstores (median : Median ε) := networkdelta_isSome median float delta x hring hlength
  simp only [hstores, H.overfull_iff]
  have hall := countP_lt (p := Collected t delta) order hlength
  have hnear (med : ℤ) := countP_lt (p := Near t delta med) (0 :: order)
    (Nat.succ_le_succ hlength)
  constructor
  · rintro h ⟨hfull, hcollected | ⟨⟨i, hi, hcollected⟩, med, hmed⟩⟩
    · obtain ⟨s, hs, -⟩ := h fun _ _ _ _ => (0, float 0)
      rw [hs, if_neg fun hlt => hall.mp hlt ⟨hfull, hcollected⟩] at hfirst
      exact absurd hfirst nofun
    · obtain ⟨s, -, hzero | hle⟩ := h fun _ _ _ _ => (med, float 0)
      · have hnot := List.countP_eq_zero.mp hzero i hi
        exact hnot (decide_eq_true hcollected)
      · exact (hnear med).mp (Nat.lt_succ_of_le hle) ⟨congrArg (· + 1) hfull, hmed⟩
  · intro h median
    rw [if_pos (hall.mpr fun hover => h ⟨hover.1, .inl hover.2⟩)] at hfirst
    obtain ⟨s, hs, -⟩ := Option.map_eq_some_iff.mp hfirst
    refine ⟨s, hs, ?_⟩
    by_cases hsome : ∃ i ∈ order, Collected t delta i
    · right
      apply Nat.le_of_lt_succ
      apply (hnear _).mpr
      rintro ⟨hfull, hmed⟩
      exact h ⟨Nat.succ.inj hfull, .inr ⟨hsome, _, hmed⟩⟩
    · left
      apply List.countP_eq_zero.mpr
      intro i hi hcollected
      exact hsome ⟨i, hi, of_decide_eq_true hcollected⟩

/-- In every table that timed reaches, with all marks and deltas, `networkdelta` stores inside of
`x` exactly if the table is not overfull. -/
theorem networkdelta_inside (trusted : Bytes → Bool) (hostname : Bytes) (hhost : hostname ≠ [])
    (ops : List Op) (hproper : ∀ op ∈ ops, op.Proper hostname) :
    ∃ t, run (step trusted) (Table.start hostname) ops = some t ∧
      ∀ (good : ℕ → Bool) (noanswer : ℕ → ℕ) (delta x : ℕ → ℤ) (ε : Type) (float : ℤ → ε),
        (∀ median : Median ε,
          (networkdelta median float (t.marked good noanswer) delta x).isSome) ↔
          ¬ Overfull (t.marked good noanswer) delta := by
  obtain ⟨t, order, hrun, hinv, -⟩ :=
    run_inv (start_inv hostname) List.map_nil hhost trusted ops hproper
  exact ⟨t, hrun, fun good noanswer delta x ε float =>
    (hinv.marked good noanswer).networkdelta_iff float x⟩

/-- One host. -/
theorem networkdelta_inside_one : ∃ t, run (step fun _ => true) (Table.start [109])
      [.addmach ⟨[97, 97], by decide⟩ 1] = some t ∧
    ∀ (good : ℕ → Bool) (noanswer : ℕ → ℕ) (delta x : ℕ → ℤ) (ε : Type) (float : ℤ → ε),
      (∀ median : Median ε,
        (networkdelta median float (t.marked good noanswer) delta x).isSome) ↔
        ¬ Overfull (t.marked good noanswer) delta :=
  networkdelta_inside (fun _ => true) [109] (by decide) _ fun op hop =>
    List.mem_singleton.mp hop ▸ (⟨by decide, by decide, 485, by decide⟩ : Proper [109] [97, 97])

def twoCharacters (i : Fin NHOSTS) : Bytes := [.ofNat (i / 100 + 1), .ofNat (i % 100 + 1)]

theorem twoCharacters_proper : ∀ i : Fin NHOSTS,
    0 ∉ twoCharacters i ∧ twoCharacters i ≠ [109] ∧ (home (twoCharacters i)).isSome := by
  decide +kernel

theorem twoCharacters_injective : Function.Injective twoCharacters := by
  intro i j hij
  have hbyte {m n : ℕ} (hm : m < 256) (hn : n < 256) (h : UInt8.ofNat m = .ofNat n) : m = n := by
    have htoNat := congrArg UInt8.toNat h
    rwa [UInt8.toNat_ofNat_of_lt' hm, UInt8.toNat_ofNat_of_lt' hn] at htoNat
  obtain ⟨hi, hj⟩ : i.val < 1013 ∧ j.val < 1013 := ⟨i.isLt, j.isLt⟩
  obtain ⟨hfirst, hsecond⟩ := List.cons_eq_cons.mp hij
  have hdiv := hbyte (by omega) (by omega) hfirst
  have hmod := hbyte (by omega) (by omega) (List.cons_eq_cons.mp hsecond).1
  ext
  omega

def addAll : List Op :=
  (List.finRange NHOSTS).map fun i =>
    .addmach ⟨twoCharacters i, (twoCharacters_proper i).1, by simp [twoCharacters]⟩ 1

theorem foldl_register {ι : Type} {name : ι → HostName} {is : List ι} {hosts : List Host}
    (hnew : ∀ i ∈ is, (name i).val ∉ hosts.map Prod.fst) (hnodup : (is.map name).Nodup)
    (hroom : hosts.length + is.length ≤ NHOSTS) :
    ((is.map fun i => Op.addmach (name i) 1).foldl register hosts).length =
      hosts.length + is.length := by
  induction is generalizing hosts with
  | nil => rfl
  | cons i is ih =>
    rw [List.map_cons, List.nodup_cons] at hnodup
    rw [List.length_cons] at hroom
    have hi : register hosts (.addmach (name i) 1) = hosts ++ [((name i).val, 1)] := by
      apply if_neg
      rintro (hmem | hfull)
      · exact hnew i List.mem_cons_self hmem
      · omega
    have hrest := @ih (hosts ++ [((name i).val, 1)]) (fun j hj hmem => by
      rw [List.map_append, List.mem_append] at hmem
      rcases hmem with hmem | hmem
      · exact hnew j (List.mem_cons_of_mem i hj) hmem
      · have heq : name j = name i := Subtype.ext (List.mem_singleton.mp hmem)
        exact hnodup.1 (heq ▸ List.mem_map_of_mem hj)) hnodup.2 (by simp; omega)
    rw [List.map_cons, List.foldl_cons, hi, hrest, List.length_append, List.length_singleton,
      List.length_cons, Nat.add_assoc, Nat.add_comm 1]

/-- A full table of trusted hosts, with all clocks right: with the own zero there are `NHOSTS + 1`
values. -/
theorem not_networkdelta_inside :
    ¬ ∀ (trusted : Bytes → Bool) (hostname : Bytes) (ops : List Op), hostname ≠ [] →
      (∀ op ∈ ops, op.Proper hostname) →
      ∃ t, run (step trusted) (Table.start hostname) ops = some t ∧
        ∀ (good : ℕ → Bool) (noanswer : ℕ → ℕ) (delta x : ℕ → ℤ) (ε : Type) (float : ℤ → ε)
          (median : Median ε),
          (networkdelta median float (t.marked good noanswer) delta x).isSome := by
  intro h
  have hproper : ∀ op ∈ addAll, op.Proper [109] := by
    intro op hop
    obtain ⟨i, -, rfl⟩ := List.mem_map.mp hop
    obtain ⟨-, hother, hhome⟩ := twoCharacters_proper i
    exact ⟨List.cons_ne_nil _ _, hother, Option.isSome_iff_exists.mp hhome⟩
  obtain ⟨t, hrun, hinside⟩ := h (fun _ => true) [109] addAll (by decide) hproper
  obtain ⟨t', order, hrun', hinv, hhosts⟩ :=
    run_inv (start_inv [109]) List.map_nil (by decide) (fun _ => true) addAll hproper
  obtain rfl := Option.some.inj (hrun.symm.trans hrun')
  have hfull : order.length = NHOSTS := by
    rw [← List.length_map (f := t.host), hhosts, addAll, foldl_register]
    · rw [List.length_finRange]
      rfl
    · exact fun i _ => List.not_mem_nil
    · apply (List.nodup_finRange NHOSTS).map
      intro i j hij
      exact twoCharacters_injective (congrArg Subtype.val hij)
    · rw [List.length_finRange]
      rfl
  have hmarked := hinv.marked (fun _ => true) fun _ => 0
  refine (hmarked.networkdelta_iff id fun _ => 0).mp (hinside _ _ (fun _ => 0) _ _ _) ?_
  rw [hmarked.overfull_iff]
  exact ⟨hfull, .inl fun i _ => ⟨rfl, rfl, (by decide : (0 : ℤ) ≠ HOSTDOWN)⟩⟩

end Netkit.Timed.Hosttbl

import Netkit.Foundations.Runs
import Netkit.Talkd.Process

/-!
# The ids of invitations

Ids count up to 15999 and then start again from 1, whether or not an entry still has the id.
An entry that is touched often enough stays, so two entries come to have one id when 15999 ids
have been handed out since the first of them got its own.

* `ids_sound`: all states are sound exactly if all requests are fresh.
-/

namespace Netkit.Talkd

open Netkit.Foundations

/-- The id that is handed out as the `n`th, counted from 1. -/
def idOf (n : ℕ) : ℕ := if n = 0 then 0 else (n - 1) % (MAX_ID - 1) + 1

theorem idOf_succ (n : ℕ) : idOf (n + 1) = newId (idOf n) := by
  unfold idOf newId MAX_ID
  rcases Nat.eq_zero_or_pos n with rfl | hn
  · rfl
  · have hne : n ≠ 0 := by omega
    simp only [Nat.succ_ne_zero, hne, if_false]
    split <;> omega

theorem idOf_lt (n : ℕ) : idOf n < MAX_ID := by
  unfold idOf MAX_ID
  split <;> omega

theorem idOf_pos {n : ℕ} (h : 0 < n) : 0 < idOf n := by
  unfold idOf
  rw [if_neg (by omega)]
  omega

theorem idOf_inj {a b : ℕ} (ha : 0 < a) (hab : a < b) (hb : b < a + (MAX_ID - 1)) :
    idOf a ≠ idOf b := by
  unfold idOf MAX_ID at *
  rw [if_neg (by omega), if_neg (by omega)]
  omega

theorem idOf_wrap {a : ℕ} (ha : 0 < a) : idOf (a + (MAX_ID - 1)) = idOf a := by
  unfold idOf MAX_ID
  rw [if_neg (by omega), if_neg (by omega)]
  omega

theorem ofNat_idOf_inj {a b : ℕ} (h : UInt32.ofNat (idOf a) = UInt32.ofNat (idOf b)) :
    idOf a = idOf b := by
  have ha := idOf_lt a
  have hb := idOf_lt b
  unfold MAX_ID at ha hb
  have heq := congrArg UInt32.toNat h
  rw [UInt32.toNat_ofNat', UInt32.toNat_ofNat'] at heq
  omega

/-! ## What a request does -/

/-- The message as `process_request` reads it. -/
def Event.message (e : Event) : CtlMsg :=
  { e.mp with lName := terminated e.mp.lName, rName := terminated e.mp.rName }

/-- The entries beside the one to which an announcement gives an id, if it gives one. -/
def announced (t : Table) (e : Event) : Option (List TableEntry) :=
  let young := (expire e.env.now t).table
  if e.env.user ≠ SUCCESS then none
  else
    match young.findIdx? (isRequest e.message) with
    | none => some young
    | some i =>
      match young[i]? with
      | some ptr =>
        if reannounces e.message ptr.request.idNum then some (young.eraseIdx i) else none
      | none => none

/-- The entries beside the one to which an invitation gives an id, if it gives one. -/
def invited (t : Table) (e : Event) : Option (List TableEntry) :=
  let young := (expire e.env.now t).table
  if (young.findIdx? (isRequest e.message)).isNone then some young else none

/-- If the request hands out an id: the entries that stay beside the one that gets it. -/
def others (t : Table) (e : Event) : Option (List TableEntry) :=
  if e.message.vers ≠ TALK_VERSION then none
  else if e.message.type = ANNOUNCE then announced t e
  else if e.message.type = LEAVE_INVITE then invited t e
  else none

def Fresh (t : Table) (e : Event) : Prop :=
  ∀ stay, others t e = some stay → ∀ x ∈ stay, t.issued + 1 < x.serial + (MAX_ID - 1)

/-- What the ids are about: the id of an entry and when it was handed out. -/
def keys (entries : List TableEntry) : List (ℕ × UInt32) :=
  entries.map (fun x => (x.serial, x.request.idNum))

/-- A request that hands out an id adds it to the ids that stay. Any other request only loses
ids. -/
structure Handled (t : Table) (stay : Option (List TableEntry)) (u : Table) : Prop where
  issue : ∀ kept, stay = some kept → u.issued = t.issued + 1 ∧ u.currentId = newId t.currentId ∧
    (keys u.table).Perm ((t.issued + 1, UInt32.ofNat (newId t.currentId)) :: keys kept) ∧
    (keys kept).Sublist (keys t.table)
  keep : stay = none → u.issued = t.issued ∧ u.currentId = t.currentId ∧
    (keys u.table).Sublist (keys t.table)

variable {t u : Table} {e : Event}

theorem keys_expire (now : Int) : (keys (expire now t).table).Sublist (keys t.table) :=
  List.Sublist.map _ List.filter_sublist

theorem keys_touch (i : ℕ) (later : Int) (entries : List TableEntry) :
    keys (entries.modify i (fun e => { e with time := later })) = keys entries := by
  induction entries generalizing i with
  | nil => rw [List.modify_nil]
  | cons x entries ih =>
    cases i with
    | zero => rfl
    | succ i => exact congrArg ((x.serial, x.request.idNum) :: ·) (ih i)

theorem keys_renumber {i : ℕ} {entries : List TableEntry} (hi : i < entries.length) (n : ℕ)
    (id : UInt32) :
    (keys (entries.modify i (fun e =>
        { e with request := { e.request with idNum := id }, serial := n }))).Perm
      ((n, id) :: keys (entries.eraseIdx i)) := by
  induction entries generalizing i with
  | nil => exact absurd hi (Nat.not_lt_zero i)
  | cons x entries ih =>
    cases i with
    | zero => exact List.Perm.refl _
    | succ i =>
      have hrest := ih (Nat.lt_of_succ_lt_succ hi)
      exact (hrest.cons (x.serial, x.request.idNum)).trans (List.Perm.swap _ _ _)

theorem keys_eraseIdx (i : ℕ) (entries : List TableEntry) :
    (keys (entries.eraseIdx i)).Sublist (keys entries) :=
  (List.eraseIdx_sublist entries i).map _

theorem eraseIdx_touch (i : ℕ) (f : TableEntry → TableEntry) (entries : List TableEntry) :
    (entries.modify i f).eraseIdx i = entries.eraseIdx i := by
  induction entries generalizing i with
  | nil => rw [List.modify_nil]
  | cons x entries ih =>
    cases i with
    | zero => rfl
    | succ i => exact congrArg (x :: ·) (ih i)

theorem handled_none (hissued : u.issued = t.issued) (hid : u.currentId = t.currentId)
    (hkeys : (keys u.table).Sublist (keys t.table)) : Handled t none u :=
  ⟨fun _ h => (nomatch h), fun _ => ⟨hissued, hid, hkeys⟩⟩

theorem handled_insert (now later : Int) (mp : CtlMsg) :
    Handled t (some (expire now t).table) (insertTable later mp (expire now t)).1 := by
  refine ⟨fun kept h => ?_, fun h => absurd h (Option.some_ne_none _)⟩
  obtain rfl := Option.some.inj h
  exact ⟨rfl, rfl, List.Perm.refl _, keys_expire now⟩

theorem findIdx_lt {p : TableEntry → Bool} {entries : List TableEntry} {i : ℕ}
    (h : entries.findIdx? p = some i) : i < entries.length := by
  rw [List.findIdx?_eq_some_iff_getElem] at h
  exact h.1

theorem doAnnounce_handled (t : Table) (e : Event) (rp : CtlResponse) :
    Handled t (announced t e) (doAnnounce e.env e.message rp t).1 := by
  unfold announced doAnnounce
  by_cases huser : e.env.user = SUCCESS
  · simp only [huser, ne_eq, not_true_eq_false, if_false, findRequest]
    cases hfind : (expire e.env.now t).table.findIdx? (isRequest e.message) with
    | none => exact handled_insert e.env.now e.env.later e.message
    | some i =>
      have hi := findIdx_lt hfind
      simp only [List.getElem?_modify_eq, List.getElem?_eq_getElem hi, Option.map_eq_map,
        Option.map_some]
      split
      · refine ⟨fun kept h => ?_, fun h => absurd h (Option.some_ne_none _)⟩
        obtain rfl := Option.some.inj h
        refine ⟨rfl, rfl, ?_, (keys_eraseIdx i _).trans (keys_expire _)⟩
        have hlt : i < ((expire e.env.now t).table.modify i
            (fun x => { x with time := e.env.later })).length := by simpa using hi
        have hperm := keys_renumber hlt (t.issued + 1) (UInt32.ofNat (newId t.currentId))
        rw [eraseIdx_touch] at hperm
        exact hperm
      · refine handled_none rfl rfl ?_
        rw [keys_touch]
        exact keys_expire _
  · simp only [huser, ne_eq, not_false_eq_true, if_true]
    exact handled_none rfl rfl (List.Sublist.refl _)

theorem leaveInvite_handled (t : Table) (e : Event) (rp : CtlResponse) :
    Handled t (invited t e) (leaveInvite e.env e.message rp t).1 := by
  unfold invited leaveInvite findRequest
  cases hfind : (expire e.env.now t).table.findIdx? (isRequest e.message) with
  | none =>
    simp only [hfind, Option.isNone_none, if_true]
    exact handled_insert e.env.now e.env.later e.message
  | some i =>
    have hi := findIdx_lt hfind
    simp only [hfind, Option.isNone_some, Bool.false_eq_true, if_false, List.getElem?_modify_eq,
      List.getElem?_eq_getElem hi, Option.map_eq_map, Option.map_some]
    refine handled_none rfl rfl ?_
    rw [keys_touch]
    exact keys_expire _

theorem lookUp_handled (t : Table) (e : Event) (rp : CtlResponse) :
    Handled t none (lookUp e.env e.message rp t).1 := by
  have hexpired : Handled t none (expire e.env.now t) := handled_none rfl rfl (keys_expire _)
  unfold lookUp findMatch
  cases hfind : ((expire e.env.now t).table.find? (isMatch e.message)).map
      TableEntry.request with
  | none =>
    simp only [hfind]
    exact hexpired
  | some ptr =>
    simp only [hfind]
    exact hexpired

theorem deleteInvite_handled (t : Table) (idNum : UInt32) :
    Handled t none (deleteInvite idNum t).1 := by
  unfold deleteInvite
  split
  · exact handled_none rfl rfl (List.eraseP_sublist.map _)
  · exact handled_none rfl rfl (List.Sublist.refl _)

theorem processRequest_handled (t : Table) (e : Event) :
    Handled t (others t e) (processRequest e.env e.mp t).1 := by
  have hsame : Handled t none t := handled_none rfl rfl (List.Sublist.refl _)
  have hprocess : processRequest e.env e.mp t =
      let rp : CtlResponse :=
        { vers := TALK_VERSION, type := e.message.type, answer := none, idNum := 0, addr := none }
      if e.message.vers ≠ TALK_VERSION then (t, { rp with answer := some BADVERSION })
      else if e.message.type = ANNOUNCE then doAnnounce e.env e.message rp t
      else if e.message.type = LEAVE_INVITE then leaveInvite e.env e.message rp t
      else if e.message.type = LOOK_UP then lookUp e.env e.message rp t
      else if e.message.type = DELETE then
        ((deleteInvite e.message.idNum t).1,
          { rp with answer := some (deleteInvite e.message.idNum t).2 })
      else (t, { rp with answer := some UNKNOWN_REQUEST }) := rfl
  rw [hprocess]
  unfold others
  by_cases hvers : e.message.vers ≠ TALK_VERSION
  · simp only [if_pos hvers]
    exact hsame
  simp only [if_neg hvers]
  by_cases hannounce : e.message.type = ANNOUNCE
  · simp only [if_pos hannounce]
    exact doAnnounce_handled t e _
  simp only [if_neg hannounce]
  by_cases hleave : e.message.type = LEAVE_INVITE
  · simp only [if_pos hleave]
    exact leaveInvite_handled t e _
  simp only [if_neg hleave]
  by_cases hlook : e.message.type = LOOK_UP
  · simp only [if_pos hlook]
    exact lookUp_handled t e _
  simp only [if_neg hlook]
  split
  · exact deleteInvite_handled t _
  · exact hsame

/-! ## The invariant -/

/-- The ids are those of the serial numbers, and no number is in use twice. -/
structure Numbering (t : Table) : Prop where
  current : t.currentId = idOf t.issued
  keys : ∀ k ∈ keys t.table, 0 < k.1 ∧ k.1 ≤ t.issued ∧ k.2 = UInt32.ofNat (idOf k.1)
  nodup : ((Talkd.keys t.table).map Prod.fst).Nodup

def Young (t : Table) : Prop := ∀ k ∈ keys t.table, t.issued < k.1 + (MAX_ID - 1)

/-- The ids are distinct and not 0, and the deletion of an id takes away the entry that has it
and no other. -/
structure Sound (t : Table) : Prop where
  distinct : (t.table.map (fun x => x.request.idNum)).Nodup
  nonzero : ∀ x ∈ t.table, x.request.idNum ≠ 0
  delete : ∀ x ∈ t.table, ∀ y ∈ t.table,
    y ∈ (deleteInvite x.request.idNum t).1.table ↔ y ≠ x

theorem numbering_start : Numbering {} :=
  ⟨rfl, fun _ h => absurd h List.not_mem_nil, List.nodup_nil⟩

theorem young_start : Young {} := fun _ h => absurd h List.not_mem_nil

theorem step_numbering (h : Numbering t) (hstep : talkdStep t e = some u) : Numbering u := by
  obtain rfl := Option.some.inj hstep
  have hhandled := processRequest_handled t e
  cases hothers : others t e with
  | none =>
    rw [hothers] at hhandled
    obtain ⟨hissued, hid, hkeys⟩ := hhandled.keep rfl
    refine ⟨by rw [hid, hissued, h.current], fun k hk => ?_, ?_⟩
    · rw [hissued]
      exact h.keys k (hkeys.subset hk)
    · exact h.nodup.sublist (hkeys.map _)
  | some stay =>
    rw [hothers] at hhandled
    obtain ⟨hissued, hid, hperm, hkeys⟩ := hhandled.issue stay rfl
    refine ⟨by rw [hid, hissued, h.current, idOf_succ], fun k hk => ?_, ?_⟩
    · rcases List.mem_cons.mp (hperm.mem_iff.mp hk) with rfl | hk
      · refine ⟨Nat.succ_pos _, hissued.ge, ?_⟩
        rw [idOf_succ, h.current]
      · obtain ⟨hpos, hle, hk2⟩ := h.keys k (hkeys.subset hk)
        exact ⟨hpos, by omega, hk2⟩
    · refine (hperm.map Prod.fst).nodup_iff.mpr ?_
      refine List.nodup_cons.mpr ⟨fun hmem => ?_, h.nodup.sublist (hkeys.map _)⟩
      obtain ⟨k, hk, heq⟩ := List.mem_map.mp hmem
      have hle := (h.keys k (hkeys.subset hk)).2.1
      simp only at heq
      omega

theorem step_young (hyoung : Young t) (hstep : talkdStep t e = some u) :
    Fresh t e ↔ Young u := by
  obtain rfl := Option.some.inj hstep
  have hhandled := processRequest_handled t e
  cases hothers : others t e with
  | none =>
    rw [hothers] at hhandled
    obtain ⟨hissued, -, hkeys⟩ := hhandled.keep rfl
    constructor
    · intro _ k hk
      rw [hissued]
      exact hyoung k (hkeys.subset hk)
    · intro _ stay hstay
      rw [hothers] at hstay
      cases hstay
  | some stay =>
    rw [hothers] at hhandled
    obtain ⟨hissued, -, hperm, -⟩ := hhandled.issue stay rfl
    constructor
    · intro hfresh k hk
      rw [hissued]
      rcases List.mem_cons.mp (hperm.mem_iff.mp hk) with rfl | hk
      · unfold MAX_ID
        omega
      · obtain ⟨x, hx, rfl⟩ := List.mem_map.mp hk
        exact hfresh stay hothers x hx
    · intro hall stay' hstay x hx
      obtain rfl := Option.some.inj (hothers.symm.trans hstay)
      have hk := hall (x.serial, x.request.idNum)
        (hperm.mem_iff.mpr (List.mem_cons_of_mem _ (List.mem_map_of_mem hx)))
      rwa [hissued] at hk

theorem distinct_of_young (h : Numbering t) (hyoung : Young t) :
    (t.table.map (fun x => x.request.idNum)).Nodup := by
  have hnodup : ((keys t.table).map Prod.fst).Nodup := h.nodup
  have hids : t.table.map (fun x => x.request.idNum) = (keys t.table).map Prod.snd := by
    simp [keys]
  rw [hids]
  refine (List.Nodup.of_map Prod.fst hnodup).map_on (fun a ha b hb heq => ?_)
  obtain ⟨hapos, hale, haid⟩ := h.keys a ha
  obtain ⟨hbpos, hble, hbid⟩ := h.keys b hb
  have hserial : a.1 = b.1 := by
    have hid : idOf a.1 = idOf b.1 := ofNat_idOf_inj (haid.symm.trans (heq.trans hbid))
    have hayoung := hyoung a ha
    have hbyoung := hyoung b hb
    rcases Nat.lt_trichotomy a.1 b.1 with hlt | heq | hlt
    · exact absurd hid (idOf_inj hapos hlt (by omega))
    · exact heq
    · exact absurd hid.symm (idOf_inj hbpos hlt (by omega))
  exact Prod.ext hserial heq

theorem sound_of_young (h : Numbering t) (hyoung : Young t) : Sound t := by
  have hdistinct := distinct_of_young h hyoung
  refine ⟨hdistinct, fun x hx hzero => ?_, fun x hx y hy => ?_⟩
  · obtain ⟨hpos, -, hid⟩ := h.keys (x.serial, x.request.idNum) (List.mem_map_of_mem hx)
    have hzero' : UInt32.ofNat (idOf x.serial) = UInt32.ofNat (idOf 0) := hid.symm.trans hzero
    have := idOf_pos hpos
    rw [ofNat_idOf_inj hzero'] at this
    exact Nat.lt_irrefl 0 this
  · have hany : t.table.any (fun z => z.request.idNum == x.request.idNum) = true :=
      List.any_eq_true.mpr ⟨x, hx, by simp⟩
    obtain ⟨z, front, back, -, hz, htable, herase⟩ :=
      List.exists_of_eraseP (p := fun z => z.request.idNum == x.request.idNum) hx (by simp)
    have hzx : z = x := by
      refine List.inj_on_of_nodup_map hdistinct ?_ hx (beq_iff_eq.mp hz)
      rw [htable]
      simp
    have hnodup : (front ++ z :: back).Nodup := htable ▸ List.Nodup.of_map _ hdistinct
    rw [List.nodup_middle, List.nodup_cons] at hnodup
    unfold deleteInvite
    rw [if_pos hany]
    simp only [herase]
    rw [htable, List.mem_append, List.mem_cons] at hy
    subst hzx
    constructor
    · rintro hmem rfl
      exact hnodup.1 hmem
    · intro hne
      rcases hy with hy | hy | hy
      · exact List.mem_append_left _ hy
      · exact absurd hy hne
      · exact List.mem_append_right _ hy

theorem not_sound_of_stale (h : Numbering t) (hyoung : Young t) (hstale : ¬ Fresh t e) :
    ∃ u, talkdStep t e = some u ∧ ¬ Sound u := by
  refine ⟨_, rfl, fun hsound => ?_⟩
  simp only [Fresh, not_forall, exists_prop] at hstale
  obtain ⟨stay, hothers, x, hx, hold⟩ := hstale
  have hhandled := processRequest_handled t e
  rw [hothers] at hhandled
  obtain ⟨-, -, hperm, hkeys⟩ := hhandled.issue stay rfl
  have hxkey : (x.serial, x.request.idNum) ∈ keys stay := List.mem_map_of_mem hx
  obtain ⟨hpos, -, hid⟩ := h.keys _ (hkeys.subset hxkey)
  have hage := hyoung _ (hkeys.subset hxkey)
  have hserial : t.issued + 1 = x.serial + (MAX_ID - 1) := by
    simp only at hage
    omega
  have hwrap : x.request.idNum = UInt32.ofNat (newId t.currentId) := by
    rw [h.current, ← idOf_succ, hserial, idOf_wrap hpos]
    exact hid
  have hids := (hperm.map Prod.snd).nodup_iff.mp (by
    rw [keys, List.map_map]
    exact hsound.distinct)
  exact (List.nodup_cons.mp hids).1 (List.mem_map.mpr ⟨_, hxkey, hwrap⟩)

/-- From the start of talkd, all states that a run reaches are sound exactly if no request hands
out an id while an entry stays that got its own 15999 ids before. -/
theorem ids_sound (es : List Event) :
    Steps Fresh talkdStep {} es ↔ ∀ u, Reached talkdStep {} es u → Sound u := by
  refine steps_iff_reached_of (I := fun t => Numbering t ∧ Young t) ?_ ?_ ?_
    ⟨numbering_start, young_start⟩
  · rintro t e u ⟨h, hyoung⟩ hfresh hstep
    exact ⟨step_numbering h hstep, (step_young hyoung hstep).mp hfresh⟩
  · rintro t ⟨h, hyoung⟩
    exact sound_of_young h hyoung
  · rintro t e ⟨h, hyoung⟩ hstale
    exact not_sound_of_stale h hyoung hstale

/-! ## A collision -/

/-- An invitation of `a` for `b`. -/
def invitation : CtlMsg :=
  { vers := TALK_VERSION, type := LEAVE_INVITE, idNum := 0, addr := {}, pid := 7
    lName := [97, 0, 0, 0, 0, 0, 0, 0, 0, 0, 0, 0], rName := [98, 0, 0, 0, 0, 0, 0, 0, 0, 0, 0, 0] }

/-- An announcement of `c` for `d`, with a large id, as of a client that announces again. -/
def announcement : CtlMsg :=
  { vers := TALK_VERSION, type := ANNOUNCE, idNum := 0xffffffff, addr := {}, pid := 8
    lName := [99, 0, 0, 0, 0, 0, 0, 0, 0, 0, 0, 0], rName := [100, 0, 0, 0, 0, 0, 0, 0, 0, 0, 0, 0] }

/-- The clock stands still, and `d` is logged in. -/
def still : Env := ⟨0, 0, SUCCESS, SUCCESS⟩

/-- The invitation, and the announcement after it has got id number `n`. -/
def announcedAgain (n : ℕ) : Table :=
  { table := [⟨{ announcement with idNum := UInt32.ofNat (idOf n) }, 0, n⟩,
      ⟨{ invitation with idNum := 1 }, 0, 1⟩]
    currentId := idOf n
    issued := n }

theorem announce_again (n : ℕ) :
    (processRequest still announcement (announcedAgain n)).1 = announcedAgain (n + 1) := by
  have hlt := idOf_lt n
  unfold MAX_ID at hlt
  have hre : reannounces announcement (UInt32.ofNat (idOf n)) = true := by
    have hgt : UInt32.ofNat (idOf n) < announcement.idNum := by
      rw [UInt32.lt_iff_toNat_lt, UInt32.toNat_ofNat']
      exact Nat.lt_of_le_of_lt (Nat.mod_le _ _) (hlt.trans (by decide))
    unfold reannounces
    rw [decide_eq_true hgt, Bool.true_or]
  have hfind : findRequest 0 0 announcement (announcedAgain n) = (announcedAgain n, some 0) := rfl
  have hprocess : (processRequest still announcement (announcedAgain n)).1 =
      (doAnnounce still announcement
        ⟨TALK_VERSION, ANNOUNCE, none, 0, none⟩ (announcedAgain n)).1 := rfl
  have hplace : (announcedAgain n).table[0]? = some
      ⟨{ announcement with idNum := UInt32.ofNat (idOf n) }, 0, n⟩ := rfl
  rw [hprocess]
  unfold doAnnounce
  simp only [still, ne_eq, not_true_eq_false, if_false, hfind, hplace, hre, if_true]
  simp only [Table.renumber, Table.takeId, announcedAgain, idOf_succ, List.modify_zero_cons]

/-- From the first announcement on, `n` announcements again. -/
theorem announce_times (n : ℕ) :
    run talkdStep (announcedAgain 2) (List.replicate n ⟨still, announcement⟩) =
      some (announcedAgain (2 + n)) := by
  induction n with
  | zero => rfl
  | succ n ih =>
    rw [List.replicate_succ', run_append_eq_some]
    refine ⟨_, ih, ?_⟩
    rw [run_cons_eq_some]
    exact ⟨_, congrArg some (announce_again (2 + n)), rfl⟩

/-- The first invitation stays while the other party announces 15998 times more. Both have the
id 1 then, and the deletion of the invitation takes away the announcement. -/
theorem ids_collide : ¬ ∀ es u, Reached talkdStep {} es u → Sound u := by
  intro h
  have hstart : run talkdStep {} [⟨still, invitation⟩, ⟨still, announcement⟩] =
      some (announcedAgain 2) := rfl
  have hsound := h _ (announcedAgain (2 + 15998)) ⟨_, List.prefix_rfl,
    run_append_eq_some.mpr ⟨_, hstart, announce_times 15998⟩⟩
  have hdistinct := hsound.distinct
  simp [announcedAgain, idOf, MAX_ID] at hdistinct

end Netkit.Talkd

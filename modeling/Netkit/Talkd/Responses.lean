import Netkit.Talkd.Process

/-!
# What the response of talkd depends on

`do_one_packet` does not clear the response that `process_request` fills in, so a field that is
not set is sent as it was on the stack.

* `determined_iff`: the response does not depend on what was there before only if a `LOOK_UP` has
  found an invitation; `answer` does not, except for a new invitation.
-/

namespace Netkit.Talkd

/-- `CTL_RESPONSE`, all of it. -/
@[ext] structure Response where
  vers : UInt8
  type : UInt8
  answer : UInt8
  idNum : UInt32
  addr : TalkAddr
  deriving DecidableEq

/-- The response structure that held `before` when the fields of `rp` were set. -/
def CtlResponse.fill (rp : CtlResponse) (before : Response) : Response where
  vers := rp.vers
  type := rp.type
  answer := rp.answer.getD before.answer
  idNum := rp.idNum
  addr := rp.addr.getD before.addr

/-- What `process_request` makes of a response structure. -/
def respond (env : Env) (mp : CtlMsg) (t : Table) (before : Response) : Response :=
  (processRequest env mp t).2.fill before

def CtlMsg.terminated (mp : CtlMsg) : CtlMsg :=
  { mp with lName := Talkd.terminated mp.lName, rName := Talkd.terminated mp.rName }

/-- The entries that `expire` leaves. -/
def Table.Young (now : Int) (t : Table) (e : TableEntry) : Prop :=
  e ∈ t.table ∧ now - e.time ≤ MAX_LIFE

/-- The request is a `LOOK_UP` for which there is an invitation. -/
def LooksUp (env : Env) (mp : CtlMsg) (t : Table) : Prop :=
  mp.vers = TALK_VERSION ∧ mp.type = LOOK_UP ∧
    ∃ e, t.Young env.now e ∧ isMatch mp.terminated e = true

/-- The request is a `LEAVE_INVITE` that is not in the table yet. -/
def NewInvite (env : Env) (mp : CtlMsg) (t : Table) : Prop :=
  mp.vers = TALK_VERSION ∧ mp.type = LEAVE_INVITE ∧
    ∀ e, t.Young env.now e → isRequest mp.terminated e = false

/-- The response is that of the request and the table; a new invitation is answered with
`SUCCESS`. -/
structure Determined (env : Env) (mp : CtlMsg) (t : Table) : Prop where
  same : ∀ r₁ r₂ : Response, respond env mp t r₁ = respond env mp t r₂
  success : NewInvite env mp t → ∀ before, (respond env mp t before).answer = SUCCESS

variable {env : Env} {mp : CtlMsg} {rp : CtlResponse} {t : Table} {e : TableEntry} {now later : Int}

theorem mem_expire : e ∈ (expire now t).table ↔ t.Young now e := by
  rw [expire, List.mem_filter]
  simp [Table.Young]

/-! ## The searches -/

theorem findRequest_isSome (later : Int) :
    (findRequest now later mp t).2.isSome ↔ ∃ e, t.Young now e ∧ isRequest mp e = true := by
  have hsearch : (findRequest now later mp t).2 =
      (expire now t).table.findIdx? (isRequest mp) := by
    unfold findRequest
    cases hfind : (expire now t).table.findIdx? (isRequest mp) with
    | none => simp only [hfind]
    | some i => simp only [hfind]
  rw [hsearch, List.findIdx?_isSome, List.any_eq_true]
  exact exists_congr fun e => and_congr_left fun _ => mem_expire

theorem findRequest_entry {t' : Table} {i : ℕ} (h : findRequest now later mp t = (t', some i)) :
    ∃ ptr, t'.table[i]? = some ptr := by
  unfold findRequest at h
  cases hfind : (expire now t).table.findIdx? (isRequest mp) with
  | none =>
    simp only [hfind, Prod.mk.injEq] at h
    cases h.2
  | some j =>
    simp only [hfind, Prod.mk.injEq, Option.some.injEq] at h
    obtain ⟨rfl, rfl⟩ := h
    obtain ⟨hlt, -⟩ := List.findIdx?_eq_some_iff_getElem.mp hfind
    exact ⟨_, List.getElem?_eq_getElem (by rw [List.length_modify]; exact hlt)⟩

theorem findMatch_isSome :
    (findMatch now mp t).2.isSome ↔ ∃ e, t.Young now e ∧ isMatch mp e = true := by
  rw [findMatch, Option.isSome_map, List.find?_isSome]
  exact exists_congr fun e => and_congr_left fun _ => mem_expire

/-! ## What each request sets -/

theorem doAnnounce_answer : (doAnnounce env mp rp t).2.answer.isSome := by
  unfold doAnnounce
  split
  · rfl
  · rcases h : findRequest env.now env.later mp t with ⟨t', _ | i⟩
    · rfl
    · obtain ⟨ptr, hptr⟩ := findRequest_entry h
      dsimp only
      rw [hptr]
      dsimp only
      split
      · rfl
      · rfl

theorem doAnnounce_addr : (doAnnounce env mp rp t).2.addr = rp.addr := by
  unfold doAnnounce
  split
  · rfl
  · rcases findRequest env.now env.later mp t with ⟨t', _ | i⟩
    · rfl
    · dsimp only
      cases t'.table[i]? with
      | none => rfl
      | some ptr =>
        dsimp only
        split
        · rfl
        · rfl

theorem leaveInvite_addr : (leaveInvite env mp rp t).2.addr = rp.addr := by
  unfold leaveInvite
  rcases findRequest env.now env.later mp t with ⟨t', _ | i⟩
  · rfl
  · dsimp only
    cases t'.table[i]? with
    | none => rfl
    | some ptr => rfl

theorem leaveInvite_answer (hrp : rp.answer = none) : (leaveInvite env mp rp t).2.answer.isSome ↔
    ∃ e, t.Young env.now e ∧ isRequest mp e = true := by
  rw [← findRequest_isSome env.later, leaveInvite]
  rcases h : findRequest env.now env.later mp t with ⟨t', _ | i⟩
  · dsimp only
    rw [hrp]
    exact Iff.rfl
  · obtain ⟨ptr, hptr⟩ := findRequest_entry h
    dsimp only
    rw [hptr]
    exact Iff.rfl

theorem lookUp_answer : (lookUp env mp rp t).2.answer.isSome := by
  unfold lookUp
  rcases findMatch env.now mp t with ⟨t', _ | ptr⟩
  · rfl
  · rfl

theorem lookUp_addr (hrp : rp.addr = none) : (lookUp env mp rp t).2.addr.isSome ↔
    ∃ e, t.Young env.now e ∧ isMatch mp e = true := by
  rw [← findMatch_isSome, lookUp]
  rcases findMatch env.now mp t with ⟨t', _ | ptr⟩
  · dsimp only
    rw [hrp]
    exact Iff.rfl
  · exact Iff.rfl

theorem processRequest_answer :
    (processRequest env mp t).2.answer.isSome ↔ ¬ NewInvite env mp t := by
  unfold processRequest
  dsimp only
  by_cases hvers : mp.vers = TALK_VERSION
  · rw [if_neg (not_not.mpr hvers)]
    by_cases hinvite : mp.type = LEAVE_INVITE
    · have hnot : mp.type ≠ ANNOUNCE := by
        rw [hinvite]
        decide
      rw [if_neg hnot, if_pos hinvite, leaveInvite_answer rfl]
      constructor
      · rintro ⟨e, he, hrequest⟩ ⟨-, -, hnone⟩
        exact Bool.false_ne_true ((hnone e he).symm.trans hrequest)
      · intro hold
        by_contra hnone
        refine hold ⟨hvers, hinvite, fun e he => Bool.eq_false_iff.mpr fun hrequest => ?_⟩
        exact hnone ⟨e, he, hrequest⟩
    · have hnot : ¬ NewInvite env mp t := fun h => hinvite h.2.1
      refine ⟨fun _ => hnot, fun _ => ?_⟩
      split
      · exact doAnnounce_answer
      · split
        · exact lookUp_answer
        · split
          · rfl
          · rfl
  · rw [if_pos hvers]
    exact ⟨fun _ h => hvers h.1, fun _ => rfl⟩

/-- `addr` is set when a `LOOK_UP` has found an invitation. -/
theorem processRequest_addr : (processRequest env mp t).2.addr.isSome ↔ LooksUp env mp t := by
  unfold processRequest
  dsimp only
  by_cases hvers : mp.vers = TALK_VERSION
  · rw [if_neg (not_not.mpr hvers)]
    by_cases hlook : mp.type = LOOK_UP
    · have hnot : mp.type ≠ ANNOUNCE ∧ mp.type ≠ LEAVE_INVITE := by
        rw [hlook]
        decide
      rw [if_neg hnot.1, if_neg hnot.2, if_pos hlook, lookUp_addr rfl]
      exact ⟨fun h => ⟨hvers, hlook, h⟩, fun h => h.2.2⟩
    · refine ⟨fun h => ?_, fun h => absurd h.2.1 hlook⟩
      rw [if_neg hlook] at h
      split at h
      · rw [doAnnounce_addr] at h
        cases h
      · split at h
        · rw [leaveInvite_addr] at h
          cases h
        · split at h
          · cases h
          · cases h
  · rw [if_pos hvers]
    exact ⟨fun h => absurd h Bool.false_ne_true, fun h => absurd h.1 hvers⟩

/-! ## Two runs -/

theorem getD_const_iff {α : Type} {a b : α} (hab : a ≠ b) (x : Option α) :
    (∀ c d : α, x.getD c = x.getD d) ↔ x.isSome := by
  cases x with
  | none => exact ⟨fun h => absurd (h a b) hab, fun h => absurd h Bool.false_ne_true⟩
  | some y => exact ⟨fun _ => rfl, fun _ _ _ => rfl⟩

theorem respond_answer_iff :
    (∀ r₁ r₂, (respond env mp t r₁).answer = (respond env mp t r₂).answer) ↔
      ¬ NewInvite env mp t := by
  rw [← processRequest_answer, ← getD_const_iff (by decide : (0 : UInt8) ≠ 1)]
  exact ⟨fun h c d => h ⟨0, 0, c, 0, {}⟩ ⟨0, 0, d, 0, {}⟩, fun h r₁ r₂ => h r₁.answer r₂.answer⟩

theorem respond_addr_iff :
    (∀ r₁ r₂, (respond env mp t r₁).addr = (respond env mp t r₂).addr) ↔ LooksUp env mp t := by
  rw [← processRequest_addr, ← getD_const_iff (by decide : ({} : TalkAddr) ≠ { port := 1 })]
  exact ⟨fun h c d => h ⟨0, 0, 0, 0, c⟩ ⟨0, 0, 0, 0, d⟩, fun h r₁ r₂ => h r₁.addr r₂.addr⟩

theorem LooksUp.not_newInvite (h : LooksUp env mp t) : ¬ NewInvite env mp t := by
  rintro ⟨-, hinvite, -⟩
  exact absurd (hinvite.symm.trans h.2.1) (by decide)

/-- **The response is that of the request and the table** exactly if a `LOOK_UP` has found an
invitation. Without its address it is, but for a new invitation. -/
theorem determined_iff (env : Env) (mp : CtlMsg) (t : Table) :
    (Determined env mp t ↔ LooksUp env mp t) ∧
      ((∀ r₁ r₂, { respond env mp t r₁ with addr := {} } =
        { respond env mp t r₂ with addr := {} }) ↔ ¬ NewInvite env mp t) := by
  constructor
  · constructor
    · intro h
      exact respond_addr_iff.mp fun r₁ r₂ => congrArg Response.addr (h.same r₁ r₂)
    · intro h
      have hanswer := respond_answer_iff.mpr h.not_newInvite
      refine ⟨fun r₁ r₂ => ?_, fun hnew => absurd hnew h.not_newInvite⟩
      have haddr := respond_addr_iff.mpr h r₁ r₂
      exact Response.ext rfl rfl (hanswer r₁ r₂) rfl haddr
  · rw [← respond_answer_iff]
    constructor
    · intro h r₁ r₂
      have hsame := congrArg Response.answer (h r₁ r₂)
      exact hsame
    · intro h r₁ r₂
      exact Response.ext rfl rfl (h r₁ r₂) rfl rfl

/-! ## A new invitation -/

/-- A `LEAVE_INVITE`, and the machine that it comes to. -/
def leave : CtlMsg := ⟨TALK_VERSION, LEAVE_INVITE, 0, {}, 1, [97], [98]⟩

def quietEnv : Env := ⟨0, 0, SUCCESS, SUCCESS⟩

/-- The answer to a new invitation is what was on the stack. -/
theorem not_determined_invite : ¬ ∀ env mp t, Determined env mp t := by
  intro h
  have hsame := (h quietEnv leave {}).same ⟨0, 0, 0, 0, {}⟩ ⟨0, 0, 1, 0, {}⟩
  exact absurd (congrArg Response.answer hsame) (by decide)

end Netkit.Talkd

import Netkit.Foundations.Runs
import Netkit.Timed.Readmsg

/-!
# The messages that wait, over all calls

Every sequence of calls of `readmsg` and of arriving packets.

* `run_keeps_iff`: so does a run.
-/

namespace Netkit.Timed

open Netkit.Foundations

/-- Between two calls, with what the last one returned, or in a call. -/
inductive Phase where
  | returned (msg : Option Message)
  | waiting (f : Filter)

structure State where
  memory : Memory
  phase : Phase

/-- What happens: a call, a packet, for which `malloc` returns `ptr`, or the end of the time. -/
inductive Action where
  | call (f : Filter)
  | arrive (msg : Message) (ptr : Place)
  | timeout

def State.start : State := ⟨.start, .returned none⟩

def step (nettab : List Netinfo) (hostname : Name) (s : State) : Action → Option State
  | .call f =>
    match s.phase with
    | .waiting _ => none
    | .returned _ =>
      match s.memory.readmsg nettab f with
      | none => none
      | some none => some ⟨s.memory, .waiting f⟩
      | some (some (msg, m)) => some ⟨m, .returned (some msg)⟩
  | .arrive msg ptr =>
    match s.phase with
    | .returned _ => none
    | .waiting f =>
      if discards nettab hostname msg then some s
      else if lookat nettab f msg then some ⟨s.memory, .returned (some msg)⟩
      else (s.memory.arrive msg ptr).map fun m => ⟨m, .waiting f⟩
  | .timeout =>
    match s.phase with
    | .returned _ => none
    | .waiting _ => some ⟨s.memory, .returned none⟩

/-! ## What it should do -/

/-- `tail` is the place of the last message, and `msgcnt` the number of messages. -/
def State.Sound (s : State) : Prop := ∃ q, s.memory.Represents q ∧ q.msgcnt = q.msgs.length

def State.asks (s : State) : Action → Option Filter
  | .call f => some f
  | _ =>
    match s.phase with
    | .waiting f => some f
    | .returned _ => none

def Phase.takes (phase : Phase) (m : Message) : Prop :=
  ∃ msg, phase = .returned (some msg) ∧ (m = msg ∨ duplicate msg m = true)

/-- The messages that wait afterwards: those before, without what is returned and its duplicates,
and what has arrived; or none, when they were too many. -/
def Leaves (q q' : Queue) (e : Action) (phase : Phase) : Prop :=
  (∃ kept added, Loses phase.takes q.msgs kept ∧ q'.msgs = kept ++ added ∧
      ∀ m ∈ added, ∃ ptr, e = .arrive m ptr) ∨
    (q'.msgs = [] ∧ NHOSTS * 3 < q.msgs.length + 1)

/-- What a step may do. -/
structure Keeps (nettab : List Netinfo) (s : State) (e : Action) (t : State) : Prop where
  sound : t.Sound
  asked : ∀ f msg, s.asks e = some f → t.phase = .returned (some msg) → lookat nettab f msg = true
  leaves : ∃ q q', s.memory.Represents q ∧ t.memory.Represents q' ∧ Leaves q q' e t.phase

def NoDuplicate (nettab : List Netinfo) (s : State) (e : Action) : Prop :=
  ∀ r f q us msg vs, s.phase = .returned r → e = .call f → s.memory.Represents q →
    q.msgs = us ++ msg :: vs → (∀ u ∈ us, lookat nettab f u = false) →
    lookat nettab f msg = true → ∀ v ∈ vs, duplicate msg v = false

variable {nettab : List Netinfo} {hostname : Name} {f : Filter} {s t : State} {e : Action}
  {q q' : Queue} {msg : Message}

theorem step_call (nettab : List Netinfo) (hostname : Name) (f : Filter) {r : Option Message}
    (hq : s.memory.Represents q) (hphase : s.phase = .returned r) :
    (q.readmsg nettab f = none ∧
        step nettab hostname s (.call f) = some ⟨s.memory, .waiting f⟩) ∨
      ∃ msg q' m, q.readmsg nettab f = some (msg, q') ∧ m.Represents q' ∧
        step nettab hostname s (.call f) = some ⟨m, .returned (some msg)⟩ := by
  rcases Memory.readmsg_represents nettab f hq with
    ⟨hnone, hread⟩ | ⟨msg, q', m, hsome, hread, hq'⟩
  · left
    refine ⟨hnone, ?_⟩
    simp only [step, hphase, hread]
  · right
    refine ⟨msg, q', m, hsome, hq', ?_⟩
    simp only [step, hphase, hread]

theorem State.Sound.count (h : s.Sound) (hq : s.memory.Represents q) :
    q.msgcnt = q.msgs.length := by
  obtain ⟨q', hq', hcount⟩ := h
  obtain rfl := hq.unique hq'
  exact hcount

theorem keeps_same {phase : Phase} (h : s.Sound)
    (hasked : ∀ f msg, s.asks e = some f → phase = .returned (some msg) →
      lookat nettab f msg = true) : Keeps nettab s e ⟨s.memory, phase⟩ := by
  obtain ⟨q, hq, hcount⟩ := h
  refine ⟨⟨q, hq, hcount⟩, hasked, q, q, hq, hq, Or.inl ⟨q.msgs, [], .refl _, ?_, ?_⟩⟩
  · exact (List.append_nil _).symm
  · exact fun m hm => absurd hm List.not_mem_nil

theorem keeps_arrive {ptr : Place} {m : Memory} (h : s.Sound)
    (harrive : s.memory.arrive msg ptr = some m) :
    Keeps nettab s (.arrive msg ptr) ⟨m, .waiting f⟩ := by
  obtain ⟨q, hq, hcount⟩ := h
  have hq' : m.Represents (q.arrive msg) := by
    rcases Memory.arrive_represents msg ptr hq with ⟨m', hm', hq'⟩ | ⟨hnone, -⟩
    · obtain rfl := Option.some.inj (harrive.symm.trans hm')
      exact hq'
    · rw [harrive] at hnone
      cases hnone
  refine ⟨⟨_, hq', ?_⟩, fun f msg _ hphase => Phase.noConfusion hphase, q, _, hq, hq', ?_⟩
  · rw [Queue.arrive]
    split
    · rfl
    · rw [hcount, List.length_append, List.length_singleton]
      rfl
  · rw [Queue.arrive, hcount]
    split
    · next hmany => exact Or.inr ⟨rfl, by exact_mod_cast hmany⟩
    · refine Or.inl ⟨q.msgs, [msg], .refl _, rfl, fun d hd => ⟨ptr, ?_⟩⟩
      rw [List.mem_singleton.mp hd]

theorem keeps_found {m : Memory} (h : s.Sound) (hq : s.memory.Represents q)
    (hread : q.readmsg nettab f = some (msg, q')) (hq' : m.Represents q')
    (hdups : ∀ us d vs, q.msgs = us ++ d :: vs → (∀ u ∈ us, lookat nettab f u = false) →
      lookat nettab f d = true → ∀ v ∈ vs, duplicate d v = false) :
    Keeps nettab s (.call f) ⟨m, .returned (some msg)⟩ := by
  obtain ⟨⟨r, ss⟩, htake, heq⟩ := Option.map_eq_some_iff.mp hread
  cases heq
  obtain ⟨us, d, vs, hmsgs, hus, hd, hr, hss⟩ := takeMsg_eq_some_iff.mp htake
  have hnone : vs.filter (duplicate d) = [] :=
    List.filter_eq_nil_iff.mpr fun v hv => Bool.not_eq_true _ ▸ hdups us d vs hmsgs hus hd v hv
  have hall : vs.filter (fun v => !duplicate d v) = vs :=
    List.filter_eq_self.mpr fun v hv => by rw [hdups us d vs hmsgs hus hd v hv]; rfl
  rw [hnone, List.getLastD_nil] at hr
  rw [hall] at hss
  subst hr hss
  refine ⟨⟨_, hq', ?_⟩, ?_, q, _, hq, hq', Or.inl ⟨us ++ vs, [], ?_, ?_, ?_⟩⟩
  · rw [h.count hq, hmsgs]
    simp only [List.length_append, List.length_cons]
    omega
  · rintro g msg hasks hphase
    cases hasks
    cases hphase
    exact hd
  · rw [hmsgs]
    exact .middle ⟨r, rfl, Or.inl rfl⟩ us vs
  · exact (List.append_nil _).symm
  · exact fun m hm => absurd hm List.not_mem_nil

/-- When the count is right afterwards, there was no duplicate: all of them are deleted, and the
count goes down by one. -/
theorem noDuplicate_of_sound {m : Memory} {r : Message} {us vs : List Message} (h : s.Sound)
    (hq : s.memory.Represents q) (hread : q.readmsg nettab f = some (r, q')) (hq' : m.Represents q')
    {phase : Phase} (hsound : State.Sound ⟨m, phase⟩) (hmsgs : q.msgs = us ++ msg :: vs)
    (hus : ∀ u ∈ us, lookat nettab f u = false) (hmsg : lookat nettab f msg = true) :
    ∀ v ∈ vs, duplicate msg v = false := by
  have htake := takeMsg_eq_some_iff.mpr ⟨us, msg, vs, hmsgs, hus, hmsg, rfl, rfl⟩
  rw [Queue.readmsg, htake] at hread
  cases hread
  have hbefore := h.count hq
  have hafter := hsound.count hq'
  have hlength : (vs.filter fun v => !duplicate msg v).length = vs.length := by
    rw [hmsgs] at hbefore
    simp only [List.length_append, List.length_cons] at hbefore hafter
    omega
  intro v hv
  exact Bool.not_eq_true' _ |>.mp (List.length_filter_eq_length_iff.mp hlength v hv)

theorem keeps_call (h : s.Sound) (hdups : NoDuplicate nettab s (.call f))
    (hstep : step nettab hostname s (.call f) = some t) : Keeps nettab s (.call f) t := by
  obtain ⟨q, hq, -⟩ := id h
  cases hphase : s.phase with
  | waiting g => simp only [step, hphase, reduceCtorEq] at hstep
  | returned r =>
    rcases step_call nettab hostname f hq hphase with ⟨-, hwaits⟩ | ⟨msg, q', m, hread, hq', hfinds⟩
    · obtain rfl := Option.some.inj (hwaits.symm.trans hstep)
      exact keeps_same h fun _ _ _ hphase => Phase.noConfusion hphase
    · obtain rfl := Option.some.inj (hfinds.symm.trans hstep)
      exact keeps_found h hq hread hq' fun us d vs => hdups r f q us d vs hphase rfl hq

theorem keeps_packet {ptr : Place} (h : s.Sound)
    (hstep : step nettab hostname s (.arrive msg ptr) = some t) :
    Keeps nettab s (.arrive msg ptr) t := by
  cases hphase : s.phase with
  | returned r => simp only [step, hphase, reduceCtorEq] at hstep
  | waiting f =>
    simp only [step, hphase] at hstep
    split at hstep
    · cases hstep
      refine keeps_same h fun f msg _ hreturned => ?_
      rw [hphase] at hreturned
      cases hreturned
    · split at hstep
      · next hlookat =>
        cases hstep
        refine keeps_same h fun g d hasks hreturned => ?_
        simp only [State.asks, hphase, Option.some.injEq] at hasks
        cases hreturned
        rw [← hasks]
        exact hlookat
      · obtain ⟨m, harrive, rfl⟩ := Option.map_eq_some_iff.mp hstep
        exact keeps_arrive h harrive

theorem keeps_timeout (h : s.Sound) (hstep : step nettab hostname s .timeout = some t) :
    Keeps nettab s .timeout t := by
  cases hphase : s.phase with
  | returned r => simp only [step, hphase, reduceCtorEq] at hstep
  | waiting f =>
    simp only [step, hphase] at hstep
    cases hstep
    refine keeps_same h fun g d _ hreturned => ?_
    cases hreturned

theorem keeps_iff (h : s.Sound) : NoDuplicate nettab s e ↔
    ∀ t, step nettab hostname s e = some t → Keeps nettab s e t := by
  constructor
  · intro hdups t ht
    cases e with
    | call f => exact keeps_call h hdups ht
    | arrive msg ptr => exact keeps_packet h ht
    | timeout => exact keeps_timeout h ht
  · rintro hkeeps r f q us msg vs hphase rfl hq hmsgs hus hmsg
    have htake := takeMsg_eq_some_iff.mpr ⟨us, msg, vs, hmsgs, hus, hmsg, rfl, rfl⟩
    rcases step_call nettab hostname f hq hphase with ⟨hnone, -⟩ | ⟨r', q', m, hread, hq', hstep⟩
    · rw [Queue.readmsg, htake] at hnone
      cases hnone
    · exact noDuplicate_of_sound h hq hread hq' (hkeeps _ hstep).sound hmsgs hus hmsg

theorem start_sound : State.start.Sound := ⟨_, Memory.start_represents, rfl⟩

/-- In a run every step does what it may do, exactly if no call finds a message behind which a
duplicate of it waits. -/
theorem run_keeps_iff (nettab : List Netinfo) (hostname : Name) (es : List Action) :
    Steps (NoDuplicate nettab) (step nettab hostname) State.start es ↔
      Transitions (Keeps nettab) (step nettab hostname) State.start es :=
  steps_iff_transitions (I := State.Sound) (fun _ _ _ h => h.sound) (fun _ _ h => keeps_iff h)
    start_sound

/-! ## Two messages of one host -/

def twice : Message := ⟨⟨.ack, 1, 0, [104]⟩, 0, ⟨0, 525⟩⟩

/-- While a call waits for a message of another type, two acknowledgments arrive. The next call
takes both, and counts one. -/
def twiceRun : List Action :=
  [.call ⟨.masterack, none, none⟩, .arrive twice 1, .arrive twice 2, .timeout] ++
    [.call ⟨.ack, none, none⟩]

def aSlave : List Netinfo := [⟨0, 0, .slave, 0⟩]

theorem not_keeps_twice : ¬ ∀ nettab hostname es,
    Transitions (Keeps nettab) (step nettab hostname) State.start es := by
  intro h
  have hcount : (run (step aSlave []) State.start twiceRun).map
      (fun t => (t.memory.msgcnt, t.memory.next head)) = some (1, some none) := by decide +kernel
  obtain ⟨t, hrun, heq⟩ := Option.map_eq_some_iff.mp hcount
  obtain ⟨hcnt, hhead⟩ : t.memory.msgcnt = 1 ∧ t.memory.next head = some none :=
    Prod.mk.injEq _ _ _ _ ▸ heq
  obtain ⟨_, hkeeps⟩ := (h aSlave [] twiceRun).last hrun
  obtain ⟨q, ⟨hq, ps, hlists⟩, hlength⟩ := hkeeps.sound
  have hnone : ps.head? = none :=
    Option.some.inj (hlists.linked.next_head.symm.trans hhead)
  rw [List.head?_eq_none_iff.mp hnone] at hlists
  rw [List.forall₂_nil_left_iff.mp hlists.holds, ← hq, hcnt] at hlength
  cases hlength

end Netkit.Timed

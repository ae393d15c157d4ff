import Mathlib.Data.List.Basic
import Mathlib.Data.List.Induction

/-!
# Runs of partial labelled steps

A component is described by a partial step function `step : σ → ε → Option σ`: the label
says what happens (a message arrives, a timer expires, a caller asks for something) and
`none` says that it cannot happen in that state. This file collects the facts about whole
runs that the components share.
-/

namespace Netkit.Foundations

variable {σ ε : Type*}

/-- The state after the labels `es`, if every one of them is possible in its turn. -/
def run (step : σ → ε → Option σ) : σ → List ε → Option σ
  | s, [] => some s
  | s, e :: es => (step s e).bind (fun t => run step t es)

variable {step : σ → ε → Option σ}

@[simp] theorem run_nil (s : σ) : run step s [] = some s := rfl

@[simp] theorem run_cons (s : σ) (e : ε) (es : List ε) :
    run step s (e :: es) = (step s e).bind (fun t => run step t es) := rfl

theorem run_cons_eq_some {s u : σ} {e : ε} {es : List ε} :
    run step s (e :: es) = some u ↔ ∃ t, step s e = some t ∧ run step t es = some u := by
  rw [run_cons, Option.bind_eq_some_iff]

theorem run_append (s : σ) (es fs : List ε) :
    run step s (es ++ fs) = (run step s es).bind (fun t => run step t fs) := by
  induction es generalizing s with
  | nil => rfl
  | cons e es ih =>
    rw [List.cons_append, run_cons, run_cons]
    cases step s e with
    | none => rfl
    | some t => exact ih t

theorem run_append_eq_some {s u : σ} {es fs : List ε} :
    run step s (es ++ fs) = some u ↔
      ∃ t, run step s es = some t ∧ run step t fs = some u := by
  rw [run_append, Option.bind_eq_some_iff]

theorem run_snoc_eq_some {s u : σ} {es : List ε} {e : ε} :
    run step s (es ++ [e]) = some u ↔ ∃ t, run step s es = some t ∧ step t e = some u := by
  rw [run_append_eq_some]
  constructor
  · rintro ⟨t, ht, hu⟩
    obtain ⟨v, hv, hvu⟩ := run_cons_eq_some.mp hu
    cases hvu
    exact ⟨t, ht, hv⟩
  · rintro ⟨t, ht, hu⟩
    exact ⟨t, ht, run_cons_eq_some.mpr ⟨u, hu, rfl⟩⟩

/-! ## Invariants -/

theorem run_invariant {I : σ → Prop} (hstep : ∀ s e t, I s → step s e = some t → I t)
    {s t : σ} {es : List ε} (hs : I s) (hrun : run step s es = some t) : I t := by
  induction es generalizing s with
  | nil => cases hrun; exact hs
  | cons e es ih =>
    obtain ⟨u, hu, hrun⟩ := run_cons_eq_some.mp hrun
    exact ih (hstep s e u hs hu) hrun

/-- The invariant rule with the labels read so far: the induction is on the last label. -/
theorem run_history {I : List ε → σ → Prop} {s : σ} (hs : I [] s)
    (hstep : ∀ es t e u, I es t → step t e = some u → I (es ++ [e]) u)
    {es : List ε} {t : σ} (hrun : run step s es = some t) : I es t := by
  induction es using List.reverseRecOn generalizing t with
  | nil => cases hrun; exact hs
  | append_singleton es e ih =>
    obtain ⟨u, hu, hstep'⟩ := run_snoc_eq_some.mp hrun
    exact hstep es u e t (ih hu) hstep'

/-- `t` is a state that the run of `es` from `s` goes through. -/
def Reached (step : σ → ε → Option σ) (s : σ) (es : List ε) (t : σ) : Prop :=
  ∃ pre, pre <+: es ∧ run step s pre = some t

theorem reached_start (s : σ) (es : List ε) : Reached step s es s :=
  ⟨[], List.nil_prefix, rfl⟩

theorem reached_cons {s t u : σ} {e : ε} {es : List ε} (h : step s e = some t)
    (hu : Reached step t es u) : Reached step s (e :: es) u := by
  obtain ⟨pre, hpre, hrun⟩ := hu
  exact ⟨e :: pre, (List.prefix_cons_inj e).mpr hpre, run_cons_eq_some.mpr ⟨t, h, hrun⟩⟩

theorem reached_cons_cases {s u : σ} {e : ε} {es : List ε}
    (hu : Reached step s (e :: es) u) :
    u = s ∨ ∃ t, step s e = some t ∧ Reached step t es u := by
  obtain ⟨pre, hpre, hrun⟩ := hu
  cases pre with
  | nil => left; cases hrun; rfl
  | cons f pre =>
    obtain ⟨rfl, hpre'⟩ := List.cons_prefix_cons.mp hpre
    obtain ⟨t, ht, hrun'⟩ := run_cons_eq_some.mp hrun
    exact Or.inr ⟨t, ht, pre, hpre', hrun'⟩

/-- Every step of the run of `es` from `s` that takes place meets `ok`, a condition on the
label and on the state before the step. -/
def Steps (ok : σ → ε → Prop) (step : σ → ε → Option σ) : σ → List ε → Prop
  | _, [] => True
  | s, e :: es => ok s e ∧ ∀ t, step s e = some t → Steps ok step t es

instance decidableSteps {ok : σ → ε → Prop} {step : σ → ε → Option σ}
    [∀ s e, Decidable (ok s e)] : ∀ s es, Decidable (Steps ok step s es)
  | _, [] => isTrue trivial
  | s, e :: es =>
    match h : step s e with
    | none => decidable_of_iff (ok s e)
      ⟨fun hok => ⟨hok, fun t ht => absurd (h.symm.trans ht) (Option.some_ne_none t).symm⟩,
        fun hsteps => hsteps.1⟩
    | some u =>
      have := @decidableSteps ok step _ u es
      decidable_of_iff (ok s e ∧ Steps ok step u es)
        ⟨fun hok => ⟨hok.1, fun t ht => by
          obtain rfl := Option.some.inj (h.symm.trans ht)
          exact hok.2⟩, fun hsteps => ⟨hsteps.1, hsteps.2 u h⟩⟩

variable {ok : σ → ε → Prop} {I : σ → Prop}

theorem steps_iff_front {s : σ} {es : List ε} :
    Steps ok step s es ↔
      ∀ pre e, pre ++ [e] <+: es → ∀ t, run step s pre = some t → ok t e := by
  induction es generalizing s with
  | nil =>
    constructor
    · intro _ pre e hpre
      exact absurd (List.prefix_nil.mp hpre) (List.append_ne_nil_of_right_ne_nil _ (by simp))
    · intro _
      trivial
  | cons f es ih =>
    constructor
    · rintro ⟨hf, hrest⟩ pre e hpre t ht
      cases pre with
      | nil =>
        obtain ⟨rfl, -⟩ := List.cons_prefix_cons.mp hpre
        cases ht
        exact hf
      | cons g pre =>
        obtain ⟨rfl, hpre'⟩ := List.cons_prefix_cons.mp hpre
        obtain ⟨u, hu, hrun⟩ := run_cons_eq_some.mp ht
        exact ih.mp (hrest u hu) pre e hpre' t hrun
    · intro h
      refine ⟨h [] f (List.cons_prefix_cons.mpr ⟨rfl, List.nil_prefix⟩) s rfl, fun u hu => ?_⟩
      refine ih.mpr (fun pre e hpre t ht => ?_)
      exact h (f :: pre) e (List.cons_prefix_cons.mpr ⟨rfl, hpre⟩) t
        (run_cons_eq_some.mpr ⟨u, hu, ht⟩)

/-- Two conditions that agree on every possible step under an invariant agree on a run. -/
theorem steps_congr {ok' : σ → ε → Prop} (hI : ∀ s e t, I s → step s e = some t → I t)
    (hiff : ∀ s e t, I s → step s e = some t → (ok s e ↔ ok' s e)) {s u : σ} {es : List ε}
    (hs : I s) (hrun : run step s es = some u) : Steps ok step s es ↔ Steps ok' step s es := by
  induction es generalizing s with
  | nil => exact Iff.rfl
  | cons e es ih =>
    obtain ⟨t, ht, hrest⟩ := run_cons_eq_some.mp hrun
    refine and_congr (hiff s e t hs ht) (forall_congr' fun v => imp_congr_right fun hv => ?_)
    obtain rfl := Option.some.inj (ht.symm.trans hv)
    exact ih (hI s e t hs ht) hrest

theorem steps_reached (hstep : ∀ s e t, I s → ok s e → step s e = some t → I t)
    {s : σ} {es : List ε} (hs : I s) (hok : Steps ok step s es) {t : σ}
    (ht : Reached step s es t) : I t := by
  induction es generalizing s with
  | nil =>
    obtain ⟨pre, hpre, hrun⟩ := ht
    obtain rfl := List.prefix_nil.mp hpre
    cases hrun
    exact hs
  | cons e es ih =>
    rcases reached_cons_cases ht with rfl | ⟨u, hu, ht⟩
    · exact hs
    · exact ih (hstep s e u hs hok.1 hu) (hok.2 u hu) ht

/-- One step keeps `I` exactly when it meets `ok`, so a run keeps `I` all along exactly
when all its steps meet `ok`. -/
theorem steps_iff_reached (hstep : ∀ s e, I s → (ok s e ↔ ∀ t, step s e = some t → I t))
    {s : σ} {es : List ε} (hs : I s) :
    Steps ok step s es ↔ ∀ t, Reached step s es t → I t := by
  constructor
  · intro hok t ht
    exact steps_reached (fun s e t hs hok h => (hstep s e hs).mp hok t h) hs hok ht
  · induction es generalizing s with
    | nil => intro _; trivial
    | cons e es ih =>
      intro h
      have hI : ∀ t, step s e = some t → I t := fun t ht =>
        h t (reached_cons ht (reached_start t es))
      exact ⟨(hstep s e hs).mpr hI,
        fun t ht => ih (hI t ht) (fun u hu => h u (reached_cons ht hu))⟩

/-- The steps that meet `ok` keep `I`, under which `D` holds, and any other step breaks `D`: a run
meets the condition at every step exactly when `D` holds all along. -/
theorem steps_iff_reached_of {D : σ → Prop}
    (hkeep : ∀ s e t, I s → ok s e → step s e = some t → I t) (hD : ∀ s, I s → D s)
    (hbreak : ∀ s e, I s → ¬ ok s e → ∃ t, step s e = some t ∧ ¬ D t)
    {s : σ} {es : List ε} (hs : I s) :
    Steps ok step s es ↔ ∀ t, Reached step s es t → D t := by
  constructor
  · intro hok t ht
    exact hD t (steps_reached hkeep hs hok ht)
  · induction es generalizing s with
    | nil => intro _; trivial
    | cons e es ih =>
      intro h
      have hok : ok s e := by
        by_contra hnot
        obtain ⟨t, ht, hbroken⟩ := hbreak s e hs hnot
        exact hbroken (h t (reached_cons ht (reached_start t es)))
      exact ⟨hok, fun t ht => ih (hkeep s e t hs hok ht) (fun u hu => h u (reached_cons ht hu))⟩

/-- Every step of the run of `es` from `s` that takes place is of the kind `Q`. -/
def Transitions (Q : σ → ε → σ → Prop) (step : σ → ε → Option σ) : σ → List ε → Prop
  | _, [] => True
  | s, e :: es => ∀ t, step s e = some t → Q s e t ∧ Transitions Q step t es

/-- The same for steps: when under `I` a step is of the kind `Q`, and keeps `I`, exactly if it
meets `ok`, all steps of a run are exactly if all meet it. -/
theorem steps_iff_transitions {Q : σ → ε → σ → Prop} (hQ : ∀ s e t, Q s e t → I t)
    (hstep : ∀ s e, I s → (ok s e ↔ ∀ t, step s e = some t → Q s e t))
    {s : σ} {es : List ε} (hs : I s) : Steps ok step s es ↔ Transitions Q step s es := by
  induction es generalizing s with
  | nil => exact Iff.rfl
  | cons e es ih =>
    constructor
    · intro hok t ht
      have hq := (hstep s e hs).mp hok.1 t ht
      exact ⟨hq, (ih (hQ s e t hq)).mp (hok.2 t ht)⟩
    · intro h
      refine ⟨(hstep s e hs).mpr fun t ht => (h t ht).1, fun t ht => ?_⟩
      exact (ih (hQ s e t (h t ht).1)).mpr (h t ht).2

theorem Transitions.last {Q : σ → ε → σ → Prop} {s u : σ} {es : List ε} {e : ε}
    (h : Transitions Q step s (es ++ [e])) (hrun : run step s (es ++ [e]) = some u) :
    ∃ t, Q t e u := by
  induction es generalizing s with
  | nil =>
    obtain ⟨t, ht, hu⟩ := run_cons_eq_some.mp hrun
    cases hu
    exact ⟨s, (h u ht).1⟩
  | cons f es ih =>
    obtain ⟨t, ht, hrest⟩ := run_cons_eq_some.mp hrun
    exact ih (h t ht).2 hrest

/-! ## Steps that commute -/

/-- What is possible with two labels is possible in either order, with the same result. -/
def Commutes (step : σ → ε → Option σ) : Prop :=
  ∀ s a b t u, a ≠ b → step s a = some t → step s b = some u →
    ∃ v, step t b = some v ∧ step u a = some v

/-- The induction is on a run to a final state: another first step has its place later in it. -/
theorem step_completes (hcommutes : Commutes step) {s t u : σ} {e : ε} {es : List ε}
    (hrun : run step s es = some u) (hfinal : ∀ e, step u e = none) (ht : step s e = some t) :
    ∃ fs, run step t fs = some u ∧ fs.length + 1 = es.length := by
  induction es generalizing s t with
  | nil =>
    cases hrun
    exact absurd (ht.symm.trans (hfinal e)) (Option.some_ne_none t)
  | cons f es ih =>
    obtain ⟨v, hv, hrest⟩ := run_cons_eq_some.mp hrun
    by_cases hef : e = f
    · subst hef
      obtain rfl := Option.some.inj (ht.symm.trans hv)
      exact ⟨es, hrest, rfl⟩
    · obtain ⟨w, htw, hvw⟩ := hcommutes s e f t v hef ht hv
      obtain ⟨fs, hfs, hlength⟩ := ih hrest hvw
      refine ⟨f :: fs, run_cons_eq_some.mpr ⟨w, htw, hfs⟩, ?_⟩
      rw [List.length_cons, List.length_cons, hlength]

theorem run_completes (hcommutes : Commutes step) {s t u : σ} {es fs : List ε}
    (hrun : run step s es = some u) (hfinal : ∀ e, step u e = none)
    (ht : run step s fs = some t) : ∃ gs, run step t gs = some u := by
  induction fs generalizing s es with
  | nil =>
    cases ht
    exact ⟨es, hrun⟩
  | cons f fs ih =>
    obtain ⟨v, hv, hrest⟩ := run_cons_eq_some.mp ht
    obtain ⟨gs, hgs, -⟩ := step_completes hcommutes hrun hfinal hv
    exact ih hgs hrest

/-! ## Termination -/

/-- Every step decreases `μ`, as long as `I` holds: no run is longer than `μ` allows. -/
theorem run_length_le {μ : σ → Nat} (hI : ∀ s e t, I s → step s e = some t → I t)
    (hμ : ∀ s e t, I s → step s e = some t → μ t < μ s)
    {s t : σ} {es : List ε} (hs : I s) (hrun : run step s es = some t) :
    es.length ≤ μ s := by
  induction es generalizing s with
  | nil => exact Nat.zero_le _
  | cons e es ih =>
    obtain ⟨u, hu, hrun⟩ := run_cons_eq_some.mp hrun
    have h1 := ih (hI s e u hs hu) hrun
    have h2 := hμ s e u hs hu
    rw [List.length_cons]
    omega

end Netkit.Foundations

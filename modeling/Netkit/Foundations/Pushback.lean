import Mathlib.Data.List.Basic

/-!
# Readers with one symbol pushed back

A reader hands out symbols one after the other. In front of it stands a place for one symbol, so
that the next one may be looked at before it is taken.
-/

namespace Netkit.Foundations

variable {σ σ' τ ε ω : Type*}

structure Pushback (σ τ : Type*) where
  source : σ
  pushed : Option τ := none

inductive Call where
  | get
  | peek

namespace Pushback

def get (raw : σ → Except ε (τ × σ)) (s : Pushback σ τ) : Except ε (τ × Pushback σ τ) :=
  match s.pushed with
  | some t => .ok (t, ⟨s.source, none⟩)
  | none => (raw s.source).map fun r => (r.1, ⟨r.2, none⟩)

def peek (raw : σ → Except ε (τ × σ)) (s : Pushback σ τ) : Except ε (τ × Pushback σ τ) :=
  (s.get raw).map fun r => (r.1, ⟨r.2.source, some r.1⟩)

def call (raw : σ → Except ε (τ × σ)) (s : Pushback σ τ) : Call → Except ε (τ × Pushback σ τ)
  | .get => s.get raw
  | .peek => s.peek raw

def run (raw : σ → Except ε (τ × σ)) (seen : σ → ω) : List Call → Pushback σ τ →
    Except ε (List τ × ω)
  | [], s => .ok ([], seen s.source)
  | c :: cs, s =>
    match s.call raw c with
    | .error e => .error e
    | .ok (t, s') => (run raw seen cs s').map fun r => (t :: r.1, r.2)

def Alike (raw : σ → Except ε (τ × σ)) (raw' : σ' → Except ε (τ × σ')) (R : σ → σ' → Prop) : Prop :=
  ∀ s s', R s s' → ∃ t u u', raw s = .ok (t, u) ∧ raw' s' = .ok (t, u') ∧ R u u'

variable {raw : σ → Except ε (τ × σ)} {raw' : σ' → Except ε (τ × σ')} {R : σ → σ' → Prop}
  {seen : σ → ω} {seen' : σ' → ω} {s : σ} {s' : σ'}

theorem get_congr (h : Alike raw raw' R) (hs : R s s') (pushed : Option τ) :
    ∃ t u u', (⟨s, pushed⟩ : Pushback σ τ).get raw = .ok (t, ⟨u, none⟩) ∧
      (⟨s', pushed⟩ : Pushback σ' τ).get raw' = .ok (t, ⟨u', none⟩) ∧ R u u' := by
  cases pushed with
  | some t => exact ⟨t, s, s', rfl, rfl, hs⟩
  | none =>
    obtain ⟨t, u, u', hraw, hraw', hu⟩ := h s s' hs
    refine ⟨t, u, u', ?_, ?_, hu⟩
    · rw [get, hraw]
      rfl
    · rw [get, hraw']
      rfl

theorem call_congr (h : Alike raw raw' R) (hs : R s s') (pushed : Option τ) (c : Call) :
    ∃ t u u' pushed', (⟨s, pushed⟩ : Pushback σ τ).call raw c = .ok (t, ⟨u, pushed'⟩) ∧
      (⟨s', pushed⟩ : Pushback σ' τ).call raw' c = .ok (t, ⟨u', pushed'⟩) ∧ R u u' := by
  obtain ⟨t, u, u', hget, hget', hu⟩ := get_congr h hs pushed
  cases c with
  | get => exact ⟨t, u, u', none, hget, hget', hu⟩
  | peek =>
    refine ⟨t, u, u', some t, ?_, ?_, hu⟩
    · rw [call, peek, hget]
      rfl
    · rw [call, peek, hget']
      rfl

/-- **Alike readers** answer every pattern of calls alike. The induction is on the calls. -/
theorem run_congr (h : Alike raw raw' R) (hseen : ∀ s s', R s s' → seen s = seen' s')
    (hs : R s s') (calls : List Call) (pushed : Option τ) :
    run raw seen calls ⟨s, pushed⟩ = run raw' seen' calls ⟨s', pushed⟩ := by
  induction calls generalizing s s' pushed with
  | nil => exact congrArg (fun o => Except.ok ([], o)) (hseen s s' hs)
  | cons c cs ih =>
    obtain ⟨t, u, u', pushed', hcall, hcall', hu⟩ := call_congr h hs pushed c
    rw [run, run, hcall, hcall']
    dsimp only
    rw [ih hu pushed']

theorem run_get {t : τ} {u : σ} (h : raw s = .ok (t, u)) (calls : List Call) :
    run raw seen (.get :: calls) ⟨s, none⟩ =
      (run raw seen calls ⟨u, none⟩).map fun r => (t :: r.1, r.2) := by
  rw [run, call, get]
  dsimp only
  rw [h]
  rfl

theorem run_get_error {e : ε} (h : raw s = .error e) (calls : List Call) :
    run raw seen (.get :: calls) ⟨s, none⟩ = .error e := by
  rw [run, call, get]
  dsimp only
  rw [h]
  rfl

end Pushback

end Netkit.Foundations

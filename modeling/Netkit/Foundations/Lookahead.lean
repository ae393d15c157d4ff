import Mathlib.Data.List.Basic

/-!
# Readers that look ahead

A reader takes symbols out of a buffer. Where the next symbol is in the buffer already, it may
look at it and take it too; where it has not arrived yet, the reader goes on without it and has to
remember what it saw. So there are two ways through the same two symbols, and which of them is
taken depends on how the input was cut into arrivals.
-/

namespace Netkit.Foundations

structure Reader (σ α β : Type*) where
  alone : σ → α → σ × List β
  /-- With the next symbol in view: the state, the output, and whether that symbol was taken. -/
  ahead : σ → α → α → σ × List β × Bool

namespace Reader

variable {σ α β : Type*} (m : Reader σ α β)

/-- The two states make no difference when `d` comes next. -/
def Like (d : α) (s t : σ) : Prop :=
  m.alone s d = m.alone t d ∧ ∀ e, m.ahead s d e = m.ahead t d e

structure Lawful : Prop where
  left : ∀ s c d t x, m.ahead s c d = (t, x, false) →
    x = (m.alone s c).2 ∧ m.Like d t (m.alone s c).1
  taken : ∀ s c d t x, m.ahead s c d = (t, x, true) → t = (m.alone (m.alone s c).1 d).1

def reads : σ → List α → σ × List β
  | s, [] => (s, [])
  | s, a :: as =>
    ((reads (m.alone s a).1 as).1, (m.alone s a).2 ++ (reads (m.alone s a).1 as).2)

/-- Both ways through `c` and `d` put out the same. -/
def Agrees (s : σ) (c d : α) : Prop :=
  ∀ t x, m.ahead s c d = (t, x, true) → x = (m.reads s [c, d]).2

def Unambiguous (s : σ) (as : List α) : Prop :=
  ∀ before c d behind, as = before ++ c :: d :: behind → m.Agrees (m.reads s before).1 c d

theorem reads_singleton (s : σ) (c : α) : m.reads s [c] = m.alone s c := by
  rw [reads, reads, List.append_nil]

theorem reads_append (s : σ) (as bs : List α) :
    m.reads s (as ++ bs) =
      ((m.reads (m.reads s as).1 bs).1, (m.reads s as).2 ++ (m.reads (m.reads s as).1 bs).2) := by
  induction as generalizing s with
  | nil => rfl
  | cons a as ih =>
    rw [List.cons_append, reads, ih, reads, List.append_assoc]

theorem reads_pair (s : σ) (c d : α) :
    m.reads s [c, d] =
      ((m.alone (m.alone s c).1 d).1, (m.alone s c).2 ++ (m.alone (m.alone s c).1 d).2) := by
  rw [reads, reads_singleton]

theorem agrees_of_ahead {m : Reader σ α β} {s t : σ} {c d : α} {x : List β} {taken : Bool}
    (h : m.ahead s c d = (t, x, taken)) :
    m.Agrees s c d ↔ (taken = true → x = (m.reads s [c, d]).2) := by
  constructor
  · intro hagrees htaken
    exact hagrees t x (htaken ▸ h)
  · intro hagrees t' x' h'
    rw [h] at h'
    cases h'
    exact hagrees rfl

end Reader

/-! ## The buffer -/

structure Reading (σ α β : Type*) where
  state : σ
  buffer : List α
  output : List β

namespace Reader

variable {σ α β : Type*} {m : Reader σ α β}

/-- The next symbol is taken, with a view of the one behind it, if it is there. -/
def pass (m : Reader σ α β) (r : Reading σ α β) : Option (Reading σ α β) :=
  match r.buffer with
  | [] => none
  | [c] => some ⟨(m.alone r.state c).1, [], r.output ++ (m.alone r.state c).2⟩
  | c :: d :: rest =>
    some ⟨(m.ahead r.state c d).1, if (m.ahead r.state c d).2.2 then rest else d :: rest,
      r.output ++ (m.ahead r.state c d).2.1⟩

theorem pass_length {r r' : Reading σ α β} (h : m.pass r = some r') :
    r'.buffer.length < r.buffer.length := by
  rw [pass] at h
  split at h
  · cases h
  · rename_i hbuffer
    cases h
    rw [hbuffer]
    exact Nat.lt_succ_self 0
  · rename_i c d rest hbuffer
    cases h
    rw [hbuffer]
    dsimp only
    split
    · exact Nat.lt_succ_of_lt (Nat.lt_succ_self _)
    · exact Nat.lt_succ_self _

/-- Of what has arrived, some has been read as `reads` reads it, and the rest is in the buffer. -/
def Accounts (m : Reader σ α β) (s : σ) (arrived : List α) (r : Reading σ α β) : Prop :=
  ∃ read, arrived = read ++ r.buffer ∧ r.output = (m.reads s read).2 ∧
    (r.state = (m.reads s read).1 ∨
      ∃ d rest, r.buffer = d :: rest ∧ m.Like d r.state (m.reads s read).1)

theorem accounts_start (s : σ) : m.Accounts s [] ⟨s, [], []⟩ := ⟨[], rfl, rfl, Or.inl rfl⟩

theorem Accounts.arrive {s : σ} {arrived : List α} {r : Reading σ α β}
    (h : m.Accounts s arrived r) (bs : List α) :
    m.Accounts s (arrived ++ bs) { r with buffer := r.buffer ++ bs } := by
  obtain ⟨read, hread, houtput, hstate⟩ := h
  refine ⟨read, ?_, houtput, ?_⟩
  · rw [hread, List.append_assoc]
  · rcases hstate with hstate | ⟨d, rest, hbuffer, hlike⟩
    · exact Or.inl hstate
    · refine Or.inr ⟨d, rest ++ bs, ?_, hlike⟩
      show r.buffer ++ bs = _
      rw [hbuffer, List.cons_append]

theorem Accounts.output {s : σ} {arrived : List α} {r : Reading σ α β}
    (h : m.Accounts s arrived r) (hbuffer : r.buffer = []) :
    r.output = (m.reads s arrived).2 := by
  obtain ⟨read, hread, houtput, -⟩ := h
  rw [hread, hbuffer, List.append_nil]
  exact houtput

theorem Accounts.pass {s : σ} {arrived whole : List α} {r r' : Reading σ α β} (hm : m.Lawful)
    (hwhole : m.Unambiguous s whole) (harrived : arrived <+: whole)
    (h : m.Accounts s arrived r) (hpass : m.pass r = some r') : m.Accounts s arrived r' := by
  obtain ⟨read, hread, houtput, hstate⟩ := h
  rw [Reader.pass] at hpass
  split at hpass
  · cases hpass
  · rename_i c hbuffer
    cases hpass
    have halone : m.alone r.state c = m.alone (m.reads s read).1 c := by
      rcases hstate with hstate | ⟨d, rest, hbuffer', hlike⟩
      · rw [hstate]
      · rw [hbuffer] at hbuffer'
        cases hbuffer'
        exact hlike.1
    refine ⟨read ++ [c], ?_, ?_, Or.inl ?_⟩
    · rw [hread, hbuffer, List.append_nil]
    · rw [reads_append, reads_singleton, houtput, halone]
    · rw [reads_append, reads_singleton, halone]
  · rename_i c d rest hbuffer
    have hahead : m.ahead r.state c d = m.ahead (m.reads s read).1 c d := by
      rcases hstate with hstate | ⟨d', rest', hbuffer', hlike⟩
      · rw [hstate]
      · rw [hbuffer] at hbuffer'
        cases hbuffer'
        exact hlike.2 d
    rw [hahead] at hpass
    obtain ⟨behind, hbehind⟩ := harrived
    have hagrees : m.Agrees (m.reads s read).1 c d := by
      refine hwhole read c d (rest ++ behind) ?_
      rw [← hbehind, hread, hbuffer, List.append_assoc]
      rfl
    cases hresult : m.ahead (m.reads s read).1 c d with
    | mk t y =>
      obtain ⟨x, taken⟩ := y
      rw [hresult] at hpass
      cases hpass
      cases taken with
      | true =>
        refine ⟨read ++ [c, d], ?_, ?_, Or.inl ?_⟩
        · rw [hread, hbuffer, List.append_assoc]
          rfl
        · rw [reads_append, houtput, hagrees t x hresult]
        · rw [reads_append, reads_pair]
          exact hm.taken _ c d t x hresult
      | false =>
        obtain ⟨rfl, hlike⟩ := hm.left _ c d t x hresult
        refine ⟨read ++ [c], ?_, ?_, Or.inr ⟨d, rest, rfl, ?_⟩⟩
        · rw [hread, hbuffer, List.append_assoc]
          rfl
        · rw [reads_append, reads_singleton, houtput]
        · rw [reads_append, reads_singleton]
          exact hlike

theorem reads_ne_of_not_agrees {s : σ} {before behind : List α} {c d : α} {t : σ} {x : List β}
    (hm : m.Lawful) (hahead : m.ahead (m.reads s before).1 c d = (t, x, true))
    (hx : x ≠ (m.reads (m.reads s before).1 [c, d]).2) :
    (m.reads s before).2 ++ (x ++ (m.reads t behind).2) ≠
      (m.reads s (before ++ c :: d :: behind)).2 := by
  intro heq
  have hstate := hm.taken _ c d t x hahead
  have hsplit : before ++ c :: d :: behind = before ++ ([c, d] ++ behind) := rfl
  have hpair : (m.reads (m.reads s before).1 [c, d]).1 = t := by
    rw [reads_pair]
    exact hstate.symm
  rw [hsplit, reads_append, reads_append _ _ [c, d], hpair] at heq
  exact hx (List.append_cancel_right (List.append_cancel_left heq))

end Reader

end Netkit.Foundations

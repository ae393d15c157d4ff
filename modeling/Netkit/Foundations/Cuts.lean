import Mathlib.Data.List.TakeWhile

/-!
# Text that comes in buffers

A text is read into a buffer that ends behind a newline or when it is full. Whoever looks at the
buffer only does not see the text behind it.
-/

namespace Netkit.Foundations

variable {α : Type*} {nl : α} {n b : ℕ} {s u v l rest : List α} {p : α → Bool}

/-! ## Longest matches -/

theorem dropWhile_append_of_ne_nil (h : u.dropWhile p ≠ []) :
    (u ++ v).dropWhile p = u.dropWhile p ++ v ∧ (u ++ v).takeWhile p = u.takeWhile p := by
  induction u with
  | nil => exact absurd rfl h
  | cons c u ih =>
    rw [List.dropWhile_cons] at h
    rw [List.cons_append, List.dropWhile_cons, List.takeWhile_cons, List.takeWhile_cons,
      List.dropWhile_cons]
    cases hc : p c with
    | false => exact ⟨rfl, rfl⟩
    | true =>
      rw [hc] at h
      obtain ⟨hdrop, htake⟩ := ih h
      exact ⟨hdrop, congrArg (c :: ·) htake⟩

theorem takeWhile_cut (h : v.length ≤ ((u ++ v).dropWhile p).length) :
    (u ++ v).dropWhile p = u.dropWhile p ++ v ∧ (u ++ v).takeWhile p = u.takeWhile p := by
  by_cases hu : u.dropWhile p = []
  · have hall : ∀ c ∈ u, p c = true := List.dropWhile_eq_nil_iff.mp hu
    have hsplit := List.takeWhile_append_dropWhile (p := p) (l := v)
    have hlength := congrArg List.length hsplit
    rw [List.dropWhile_append_of_pos hall] at h ⊢
    rw [List.length_append] at hlength
    have hnil : v.takeWhile p = [] := List.eq_nil_of_length_eq_zero (by omega)
    rw [hnil] at hsplit
    rw [List.takeWhile_append_of_pos hall, hnil, hu, List.append_nil,
      List.takeWhile_eq_self_iff.mpr hall]
    exact ⟨hsplit, rfl⟩
  · exact dropWhile_append_of_ne_nil hu

/-! ## Buffers -/

variable [DecidableEq α]

def takeBuffer (nl : α) : ℕ → List α → List α × List α
  | _, [] => ([], [])
  | 0, s => ([], s)
  | n + 1, c :: s => if c = nl then ([c], s) else (c :: (takeBuffer nl n s).1, (takeBuffer nl n s).2)

theorem takeBuffer_append (nl : α) (n : ℕ) (s : List α) :
    (takeBuffer nl n s).1 ++ (takeBuffer nl n s).2 = s := by
  induction s generalizing n with
  | nil => cases n <;> rfl
  | cons c s ih =>
    cases n with
    | zero => rfl
    | succ n =>
      rw [takeBuffer]
      split
      · rfl
      · exact congrArg (c :: ·) (ih n)

theorem takeBuffer_ne_nil (hn : 0 < n) (hs : s ≠ []) : (takeBuffer nl n s).1 ≠ [] := by
  obtain ⟨n, rfl⟩ := Nat.exists_eq_add_one.mpr hn
  cases s with
  | nil => exact absurd rfl hs
  | cons c s =>
    rw [takeBuffer]
    split
    · exact List.cons_ne_nil _ _
    · exact List.cons_ne_nil _ _

theorem takeBuffer_dropLast (nl : α) (n : ℕ) (s : List α) :
    nl ∉ (takeBuffer nl n s).1.dropLast := by
  induction s generalizing n with
  | nil => cases n <;> exact List.not_mem_nil
  | cons c s ih =>
    cases n with
    | zero => exact List.not_mem_nil
    | succ n =>
      rw [takeBuffer]
      split
      · exact List.not_mem_nil
      · next hc =>
        dsimp only
        cases hbuffer : (takeBuffer nl n s).1 with
        | nil => exact List.not_mem_nil
        | cons d t =>
          have hrest := ih n
          rw [hbuffer] at hrest
          rw [List.dropLast_cons_of_ne_nil (List.cons_ne_nil _ _)]
          exact fun hmem => (List.mem_cons.mp hmem).elim (fun h => hc h.symm) hrest

/-- `l` is the first line of `l ++ rest`. -/
structure IsLine (nl : α) (l rest : List α) : Prop where
  nonempty : l ≠ []
  inner : nl ∉ l.dropLast
  last : l.getLast? = some nl ∨ rest = []

theorem takeBuffer_nil (nl : α) (n : ℕ) : takeBuffer nl n [] = ([], []) := by
  cases n <;> rfl

theorem takeBuffer_line (h : IsLine nl l rest) (n : ℕ) :
    takeBuffer nl n (l ++ rest) = (l.take n, l.drop n ++ rest) := by
  induction l generalizing n with
  | nil => exact absurd rfl h.nonempty
  | cons c l ih =>
    cases n with
    | zero => rfl
    | succ n =>
      rw [List.cons_append, takeBuffer, List.take_succ_cons, List.drop_succ_cons]
      cases l with
      | nil =>
        split
        · rw [List.take_nil, List.drop_nil]
        · next hc =>
          rcases h.last with hlast | hrest
          · exact absurd (Option.some.inj hlast) hc
          · rw [hrest, List.append_nil, takeBuffer_nil, List.take_nil, List.drop_nil,
              List.append_nil]
      | cons d l =>
        have hinner := h.inner
        rw [List.dropLast_cons_of_ne_nil (List.cons_ne_nil d l)] at hinner
        have hc : c ≠ nl := fun heq => hinner (heq ▸ List.mem_cons_self)
        have hline : IsLine nl (d :: l) rest :=
          ⟨List.cons_ne_nil d l, fun hmem => hinner (List.mem_cons_of_mem c hmem), h.last⟩
        rw [if_neg hc, ih hline n]

/-- The text up to the first `nl`, and that too. -/
def firstLine (nl : α) : List α → List α
  | [] => []
  | c :: s => if c = nl then [c] else c :: firstLine nl s

theorem takeBuffer_fst (nl : α) (n : ℕ) (s : List α) :
    (takeBuffer nl n s).1 = (firstLine nl s).take n := by
  induction s generalizing n with
  | nil => rw [takeBuffer_nil, firstLine, List.take_nil]
  | cons c s ih =>
    cases n with
    | zero => rfl
    | succ n =>
      rw [takeBuffer, firstLine]
      split
      · rw [List.take_succ_cons, List.take_nil]
      · rw [List.take_succ_cons, ih n]

theorem takeBuffer_open (ha : nl ∉ u) (hn : u.length < n) : takeBuffer nl n (u ++ v) =
    (u ++ (takeBuffer nl (n - u.length) v).1, (takeBuffer nl (n - u.length) v).2) := by
  induction u generalizing n with
  | nil => rfl
  | cons c u ih =>
    rw [List.mem_cons, not_or] at ha
    rw [List.length_cons] at hn
    obtain ⟨m, rfl⟩ := Nat.exists_eq_add_of_lt hn
    rw [List.cons_append, takeBuffer, if_neg (Ne.symm ha.1), ih ha.2 (by omega)]
    rw [List.length_cons, Nat.add_sub_add_right, List.cons_append]

/-- A buffer ends where `b` characters of the text are left. -/
inductive Cut (nl : α) (n : ℕ) : List α → ℕ → Prop
  | here {s : List α} : s ≠ [] → Cut nl n s (takeBuffer nl n s).2.length
  | later {s : List α} {b : ℕ} : s ≠ [] → Cut nl n (takeBuffer nl n s).2 b → Cut nl n s b

theorem cut_iff (hs : s ≠ []) : Cut nl n s b ↔
    b = (takeBuffer nl n s).2.length ∨ Cut nl n (takeBuffer nl n s).2 b := by
  constructor
  · intro h
    cases h with
    | here => exact Or.inl rfl
    | later _ h => exact Or.inr h
  · rintro (rfl | h)
    · exact .here hs
    · exact .later hs h

theorem takeBuffer_length_le (nl : α) (n : ℕ) (s : List α) :
    (takeBuffer nl n s).2.length ≤ s.length := by
  calc (takeBuffer nl n s).2.length
      ≤ ((takeBuffer nl n s).1 ++ (takeBuffer nl n s).2).length := by
        rw [List.length_append]
        exact Nat.le_add_left _ _
    _ = s.length := by rw [takeBuffer_append]

theorem Cut.le_length (h : Cut nl n s b) : b ≤ s.length := by
  induction h with
  | here _ => exact takeBuffer_length_le _ _ _
  | later _ _ ih => exact ih.trans (takeBuffer_length_le _ _ _)

end Netkit.Foundations

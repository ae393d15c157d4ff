import Netkit.Rpcgen.Scanner

/-!
# The text read as a whole

What an interface definition consists of, whatever the buffer that it is read through, and when
the scanner finds the same.
-/

namespace Netkit.Rpcgen

open Netkit.Foundations

/-- What is found, and how many characters are left in front of it and behind it. -/
structure Piece where
  event : Event
  start : ℕ
  stop : ℕ

def Piece.mark (p : Piece) : Event × ℕ := (p.event, p.start)

/-- No comment ends in `body` or with its last star. -/
def Inside (body : Text) : Prop := ¬ ['*', '/'] <:+: body ++ ['*']

/-- The pieces of a valid text. The flag tells whether it begins at the start of a line. -/
inductive Reads : Bool → Text → List Piece → Prop
  | done {bol : Bool} : Reads bol [] []
  | blank {bol : Bool} {c : Char} {s : Text} {ps : List Piece} :
      isspace c = true → Reads (c == '\n') s ps → Reads bol (c :: s) ps
  /-- Behind the last character that is no blank, the line is read on. -/
  | cpp {l w rest : Text} {num : ℕ} {fname : Option Text} {ps : List Piece} :
      IsLine '\n' (l ++ w) rest → l.head? = some '#' → (∀ c ∈ l.getLast?, isspace c = false) →
      (∀ c ∈ w, isspace c = true) → docppline (l ++ w) = .ok (num, fname) →
      Reads false (w ++ rest) ps → Reads true (l ++ (w ++ rest))
        (⟨.cpp num fname, (l ++ (w ++ rest)).length, (w ++ rest).length⟩ :: ps)
  | copied {l rest : Text} {ps : List Piece} :
      IsLine '\n' l rest → l.head? = some '%' → Reads true rest ps →
      Reads true (l ++ rest) (⟨.copied l.tail, (l ++ rest).length, rest.length⟩ :: ps)
  | comment {bol : Bool} {body rest : Text} {ps : List Piece} :
      Inside body → Reads false rest ps →
      Reads bol ('/' :: '*' :: (body ++ '*' :: '/' :: rest))
        (⟨.opened, (body ++ '*' :: '/' :: rest).length + 2, (body ++ '*' :: '/' :: rest).length⟩ ::
          ⟨.closed, rest.length + 2, rest.length⟩ :: ps)
  /-- A token is part of one line. -/
  | token {bol : Bool} {t : Token} {l rest : Text} {ps : List Piece} :
      readToken (l ++ rest) = .ok (t, rest) → '\n' ∉ l → Reads false rest ps →
      Reads bol (l ++ rest) (⟨.token t, (l ++ rest).length, rest.length⟩ :: ps)

variable {s s' s'' : Source} {b : Bool} {c : Char} {u v w l rest txt body : Text}
  {ps : List Piece} {p : Piece}

theorem length_le_append (l rest : Text) : rest.length ≤ (l ++ rest).length := by
  rw [List.length_append]
  exact Nat.le_add_left _ _

theorem Reads.start_le (h : Reads b txt ps) : ∀ p ∈ ps, p.start ≤ txt.length := by
  induction h with
  | done => exact fun p hp => absurd hp List.not_mem_nil
  | blank _ _ ih => exact fun p hp => Nat.le_succ_of_le (ih p hp)
  | cpp _ _ _ _ _ _ ih =>
    intro p hp
    rcases List.mem_cons.mp hp with rfl | hp
    · exact Nat.le_refl _
    · exact (ih p hp).trans (length_le_append _ _)
  | copied _ _ _ ih =>
    intro p hp
    rcases List.mem_cons.mp hp with rfl | hp
    · exact Nat.le_refl _
    · exact (ih p hp).trans (length_le_append _ _)
  | comment _ _ ih =>
    intro p hp
    rcases List.mem_cons.mp hp with rfl | hp
    · exact Nat.le_refl _
    · rcases List.mem_cons.mp hp with rfl | hp
      · simp only [List.length_cons, List.length_append]
        omega
      · refine (ih p hp).trans ?_
        simp only [List.length_cons, List.length_append]
        omega
  | token _ _ _ ih =>
    intro p hp
    rcases List.mem_cons.mp hp with rfl | hp
    · exact Nat.le_refl _
    · exact (ih p hp).trans (length_le_append _ _)

/-! ## Where the buffers end -/

def Source.text (s : Source) : Text := s.line ++ s.fin

/-- A buffer ends where `b` characters are left. -/
def Source.Ends (s : Source) (b : ℕ) : Prop :=
  b = s.fin.length ∨ Cut '\n' (MAXLINESIZE - 1) s.fin b

def Source.Apart (s : Source) (ps : List Piece) : Prop :=
  ∀ b, s.Ends b → ∀ p ∈ ps, ¬ (p.stop < b ∧ b < p.start)

theorem Source.Ends.le {n : ℕ} (h : s.Ends n) : n ≤ s.fin.length := by
  rcases h with rfl | h
  · exact Nat.le_refl _
  · exact h.le_length

theorem Source.length_text (s : Source) : s.text.length = s.left := List.length_append

theorem apart_cons : s.Apart (p :: ps) ↔
    (∀ n, s.Ends n → ¬ (p.stop < n ∧ n < p.start)) ∧ s.Apart ps := by
  constructor
  · intro h
    exact ⟨fun n hn => h n hn p List.mem_cons_self,
      fun n hn q hq => h n hn q (List.mem_cons_of_mem p hq)⟩
  · rintro ⟨hp, hps⟩ n hn q hq
    rcases List.mem_cons.mp hq with rfl | hq
    · exact hp n hn
    · exact hps n hn q hq

/-- What a scanner at `s` finds next is what one at `s'` finds: the buffers end at the same places
of the text behind. A newline is the end of the buffer, and there is no NUL. -/
structure Sound (s : Source) : Prop where
  newline : '\n' ∉ s.line.dropLast
  nul : '\x00' ∉ s.text

/-- Behind `s'`, the buffers are those behind `s`. -/
def Advance (s s' : Source) : Prop :=
  s'.left ≤ s.left ∧ ∀ n, n < s'.left → (s.Ends n ↔ s'.Ends n)

theorem Advance.trans (h : Advance s s') (h' : Advance s' s'') : Advance s s'' :=
  ⟨h'.1.trans h.1, fun n hn => (h.2 n (Nat.lt_of_lt_of_le hn h'.1)).trans (h'.2 n hn)⟩

theorem Advance.of_fin (hfin : s'.fin = s.fin) (hle : s'.line.length ≤ s.line.length) :
    Advance s s' := by
  refine ⟨?_, fun n _ => ?_⟩
  · unfold Source.left
    rw [hfin]
    exact Nat.add_le_add_right hle _
  · unfold Source.Ends
    rw [hfin]

theorem Advance.apart (h : Advance s s') (hps : ∀ p ∈ ps, p.start ≤ s'.left) :
    s.Apart ps ↔ s'.Apart ps := by
  constructor
  · intro hapart n hn p hp hin
    exact hapart n ((h.2 n (Nat.lt_of_lt_of_le hin.2 (hps p hp))).mpr hn) p hp hin
  · intro hapart n hn p hp hin
    exact hapart n ((h.2 n (Nat.lt_of_lt_of_le hin.2 (hps p hp))).mp hn) p hp hin

/-! ## The next buffer -/

theorem cstring_eq (h : '\x00' ∉ u) : cstring u = u := by
  refine List.takeWhile_eq_self_iff.mpr fun c hc => ?_
  rw [bne_iff_ne]
  rintro rfl
  exact h hc

theorem fgets_append (fin : Text) : (fgets fin).1 ++ (fgets fin).2 = fin :=
  takeBuffer_append _ _ _

theorem fgets_ne_nil {fin : Text} (h : fin ≠ []) : (fgets fin).1 ≠ [] :=
  takeBuffer_ne_nil (by decide) h

theorem curline_eq {fin : Text} (h : '\x00' ∉ fin) : cstring (fgets fin).1 = (fgets fin).1 := by
  refine cstring_eq fun hmem => h ?_
  rw [← fgets_append fin]
  exact List.mem_append_left _ hmem

theorem curline_head {fin : Text} (h : fin ≠ []) (hnul : '\x00' ∉ fin) :
    (cstring (fgets fin).1).head? = fin.head? := by
  rw [curline_eq hnul]
  conv_rhs => rw [← fgets_append fin]
  exact (List.head?_append_of_ne_nil _ (fgets_ne_nil h)).symm

theorem pass_fetch {fin : Text} {log : Log} (h : fin ≠ []) (hnul : '\x00' ∉ fin)
    (hhead : b = true ∨ fin.head? ≠ some '#' ∧ fin.head? ≠ some '%') :
    pass (b, ⟨[], fin, log⟩) = .ok (b, ⟨(fgets fin).1, (fgets fin).2, log⟩) := by
  rw [pass, if_neg h]
  dsimp only
  rw [curline_head h hnul, curline_eq hnul]
  rcases hhead with rfl | ⟨hcpp, hdirective⟩
  · rfl
  · rw [if_neg hcpp, if_neg hdirective]
    cases b <;> rfl

theorem ends_fetch {fin : Text} {n : ℕ} {log : Log} (h : fin ≠ []) :
    (⟨[], fin, log⟩ : Source).Ends n ↔
      n = fin.length ∨ (⟨(fgets fin).1, (fgets fin).2, log⟩ : Source).Ends n := by
  unfold Source.Ends
  rw [cut_iff h]
  rfl

theorem advance_fetch {fin : Text} (h : fin ≠ []) (hu : u <:+ (fgets fin).1) (log log' : Log) :
    Advance ⟨[], fin, log⟩ ⟨u, (fgets fin).2, log'⟩ := by
  have hleft : (⟨u, (fgets fin).2, log'⟩ : Source).left ≤ fin.length := by
    calc u.length + (fgets fin).2.length
        ≤ (fgets fin).1.length + (fgets fin).2.length := Nat.add_le_add_right hu.length_le _
      _ = fin.length := by rw [← List.length_append, fgets_append]
  refine ⟨hleft.trans (Nat.le_add_left _ _), fun n hn => ?_⟩
  rw [ends_fetch h]
  exact or_iff_right (Nat.ne_of_lt (Nat.lt_of_lt_of_le hn hleft))

theorem sound_fetch {fin : Text} {log : Log} (hs : Sound ⟨[], fin, log⟩) :
    Sound ⟨(fgets fin).1, (fgets fin).2, log⟩ := by
  refine ⟨takeBuffer_dropLast _ _ _, ?_⟩
  rw [Source.text, fgets_append]
  exact hs.nul

theorem exists_line (hs : Sound s) (htext : s.text = c :: u)
    (hhead : s.line = [] → b = false → c ≠ '#' ∧ c ≠ '%') :
    ∃ line fin, line ++ fin = u ∧ Sound ⟨c :: line, fin, s.log⟩ ∧
      Advance s ⟨c :: line, fin, s.log⟩ ∧ reading (b, s) = reading (b, ⟨c :: line, fin, s.log⟩) := by
  obtain ⟨line, fin, log⟩ := s
  cases line with
  | cons d line =>
    obtain ⟨rfl, hu⟩ := List.cons.inj htext
    exact ⟨line, fin, hu, hs, Advance.of_fin rfl (Nat.le_refl _), rfl⟩
  | nil =>
    have hfin : fin = c :: u := htext
    have hne : fin ≠ [] := hfin ▸ List.cons_ne_nil c u
    have hnul : '\x00' ∉ fin := hs.nul
    have hfetch : pass (b, ⟨[], fin, log⟩) = .ok (b, ⟨(fgets fin).1, (fgets fin).2, log⟩) := by
      refine pass_fetch hne hnul ?_
      cases b with
      | true => exact Or.inl rfl
      | false =>
        obtain ⟨hcpp, hdirective⟩ := hhead rfl rfl
        rw [hfin]
        exact Or.inr ⟨fun h => hcpp (Option.some.inj h), fun h => hdirective (Option.some.inj h)⟩
    have happend := fgets_append fin
    have hsound := sound_fetch hs
    have hadvance := advance_fetch hne List.suffix_rfl log log
    cases hline : (fgets fin).1 with
    | nil => exact absurd hline (fgets_ne_nil hne)
    | cons d line =>
      rw [hline] at happend hsound hadvance
      obtain ⟨rfl, hu⟩ := List.cons.inj (happend.trans hfin)
      exact ⟨line, (fgets fin).2, hu, hsound, hadvance, by rw [reading_pass hfetch, hline]⟩

/-! ## Blanks -/

theorem Sound.suffix {fin : Text} {log : Log} (hs : Sound ⟨u, fin, log⟩) (h : v <:+ u) (log' : Log) :
    Sound ⟨v, fin, log'⟩ := by
  obtain ⟨w, rfl⟩ := h
  refine ⟨fun hmem => ?_, fun hmem => hs.nul ?_⟩
  · by_cases hv : v = []
    · rw [hv] at hmem
      exact absurd hmem List.not_mem_nil
    · refine hs.newline ?_
      rw [List.dropLast_append_of_ne_nil hv]
      exact List.mem_append_right w hmem
  · rw [Source.text, List.append_assoc]
    exact List.mem_append_right w hmem

theorem reading_blank {fin : Text} {log : Log} (hc : isspace c = true) :
    reading (b, ⟨c :: u, fin, log⟩) = reading (b, ⟨u, fin, log⟩) := by
  have hpass : pass (b, ⟨c :: u, fin, log⟩) = .ok (b, ⟨u.dropWhile isspace, fin, log⟩) := by
    rw [pass, if_pos hc]
  rw [reading_pass hpass]
  cases u with
  | nil => rfl
  | cons d u =>
    cases hd : isspace d with
    | false => rw [List.dropWhile_cons, hd, if_neg Bool.false_ne_true]
    | true =>
      have hnext : pass (b, ⟨d :: u, fin, log⟩) = .ok (b, ⟨u.dropWhile isspace, fin, log⟩) := by
        rw [pass, if_pos hd]
      rw [reading_pass hnext, List.dropWhile_cons, if_pos hd]

theorem reading_blanks {fin : Text} {log : Log} (hu : ∀ c ∈ u, isspace c = true) :
    reading (b, ⟨u, fin, log⟩) = reading (b, ⟨[], fin, log⟩) := by
  induction u with
  | nil => rfl
  | cons c u ih =>
    rw [reading_blank (hu c List.mem_cons_self)]
    exact ih fun d hd => hu d (List.mem_cons_of_mem c hd)

/-! ## What is noted stays -/

def Silent (log : Log) : Prop := ∀ t n, (Event.token t, n) ∉ log

theorem silent_nil : Silent [] := fun _ _ => List.not_mem_nil

theorem silent_singleton {m : Event × ℕ} (h : ∀ t, m.1 ≠ .token t) : Silent [m] := by
  intro t n hmem
  exact h t (congrArg Prod.fst (List.mem_singleton.mp hmem).symm)

theorem pass_log {b' : Bool} (h : pass (b, s) = .ok (b', s')) :
    ∃ noted, Silent noted ∧ s'.log = s.log ++ noted := by
  have hnothing (log : Log) : ∃ noted, Silent noted ∧ log = log ++ noted :=
    ⟨[], silent_nil, (List.append_nil log).symm⟩
  cases passing_of_pass h with
  | fetch b log hfin => exact hnothing log
  | note log hfin hevent => exact ⟨_, silent_singleton hevent, rfl⟩
  | space b line fin log hspace => exact hnothing log
  | within c line fin log => exact hnothing log
  | closed fin log hend => exact ⟨_, silent_singleton fun _ => Event.noConfusion, rfl⟩
  | opened c line fin log => exact ⟨_, silent_singleton fun _ => Event.noConfusion, rfl⟩

theorem pass_eof (h : pass (b, s) = .error (.eof s')) : s' = ⟨[], [], s.log⟩ := by
  cases passing_of_pass h with
  | eof b log => rfl

theorem reading_log {found : Log} (h : reading (b, s) = some found) : s.log <+: found := by
  let I : Bool × Source → Prop := fun t => s.log <+: t.2.log
  let J : Option Log → Prop := fun o => ∀ found, o = some found → s.log <+: found
  refine outcome_invariant (I := I) (J := J) round_measure ?_ ?_ (List.prefix_refl _) found h
  · rintro ⟨b, t⟩ t' hround ht
    rw [round] at hround
    cases hpass : pass (b, t) with
    | ok t'' =>
      rw [hpass] at hround
      cases hround
      obtain ⟨noted, -, hlog⟩ := pass_log hpass
      exact List.IsPrefix.trans ht (hlog ▸ List.prefix_append _ _)
    | error stop =>
      rw [hpass] at hround
      cases stop with
      | eof u => cases hround
      | failed message => cases hround
      | found u =>
        obtain ⟨rfl, -⟩ := pass_found hpass
        cases hread : readToken u.line with
        | error message =>
          simp only [tokenAt, hread] at hround
          cases hround
        | ok r =>
          simp only [tokenAt, hread] at hround
          cases hround
          exact List.IsPrefix.trans ht (List.prefix_append _ _)
  · rintro ⟨b, t⟩ o hround ht found' rfl
    rw [round] at hround
    cases hpass : pass (b, t) with
    | ok t'' =>
      rw [hpass] at hround
      cases hround
    | error stop =>
      rw [hpass] at hround
      cases stop with
      | eof u =>
        cases hround
        rw [pass_eof hpass]
        exact ht
      | failed message => cases hround
      | found u =>
        cases hread : readToken u.line with
        | error message =>
          simp only [tokenAt, hread] at hround
          cases hround
        | ok r =>
          simp only [tokenAt, hread] at hround
          cases hround

end Netkit.Rpcgen

import Netkit.Rpcgen.Reading

/-!
# When the scanner reads the whole text

Piece by piece: if no buffer ends in a piece, the scanner comes to its end and notes the piece;
otherwise it notes something else, or stops with an error.
-/

namespace Netkit.Rpcgen

open Netkit.Foundations

variable {s s' : Source} {b : Bool} {c : Char} {u v w l rest body : Text} {ps : List Piece}
  {p : Piece}

/-! ## One piece -/

/-- What becomes of the piece `p` in front of `rest`: the scanner notes it and goes on behind it, or
a buffer ends inside of it and what is found is no text that begins with it. The flags are those of
the comment, before and behind, and the one of the start of a line. -/
def Passes (b b' bol : Bool) (s : Source) (p : Piece) (rest : Text) : Prop :=
  ((∀ n, s.Ends n → ¬ (p.stop < n ∧ n < p.start)) ∧ ∃ s', s'.text = rest ∧
      s'.log = s.log ++ [p.mark] ∧ Sound s' ∧ Advance s s' ∧ (bol = true → s'.line = []) ∧
      reading (b, s) = reading (b', s')) ∨
    ((∃ n, s.Ends n ∧ p.stop < n ∧ n < p.start) ∧ ∀ ps, (∀ q ∈ ps, q.start ≤ rest.length) →
      reading (b, s) ≠ some (s.log ++ (p :: ps).map Piece.mark))

theorem Passes.advance {b' bol : Bool} (h : Passes b b' bol s' p rest)
    (hadvance : Advance s s') (hlog : s'.log = s.log) (hstart : p.start ≤ s'.left)
    (hreading : reading (b, s) = reading (b, s')) : Passes b b' bol s p rest := by
  have hends {n : ℕ} (hn : n < p.start) : s.Ends n ↔ s'.Ends n :=
    hadvance.2 n (Nat.lt_of_lt_of_le hn hstart)
  rcases h with ⟨hno, t, htext, htlog, ht, hadvance', hbol, hreading'⟩ | ⟨⟨n, hn, hin⟩, hnone⟩
  · exact Or.inl ⟨fun n hn hin => hno n ((hends hin.2).mp hn) hin, t, htext, hlog ▸ htlog, ht,
      hadvance.trans hadvance', hbol, hreading.trans hreading'⟩
  · refine Or.inr ⟨⟨n, (hends hin.2).mpr hn, hin⟩, fun ps hps => ?_⟩
    rw [hreading, ← hlog]
    exact hnone ps hps

theorem not_found {m : Event × ℕ} (hm : m ≠ p.mark)
    (h : ∀ found, reading (b, s) = some found → s.log ++ [m] <+: found) (ps : List Piece) :
    reading (b, s) ≠ some (s.log ++ (p :: ps).map Piece.mark) := by
  intro heq
  have hfront := h _ heq
  rw [List.map_cons, List.prefix_append_right_inj, List.cons_prefix_cons] at hfront
  exact hm hfront.1

theorem Passes.reading_iff {b' bol : Bool} (h : Passes b b' bol s p rest)
    (hps : ∀ q ∈ ps, q.start ≤ rest.length)
    (hrest : ∀ s', s'.text = rest → Sound s' → (bol = true → s'.line = []) →
      (reading (b', s') = some (s'.log ++ ps.map Piece.mark) ↔ s'.Apart ps)) :
    reading (b, s) = some (s.log ++ (p :: ps).map Piece.mark) ↔ s.Apart (p :: ps) := by
  rw [apart_cons]
  rcases h with ⟨hno, s', htext, hlog, hs', hadvance, hbol, hreading⟩ | ⟨⟨n, hn, hin⟩, hnone⟩
  · have hleft : ∀ q ∈ ps, q.start ≤ s'.left := by
      rw [← Source.length_text, htext]
      exact hps
    rw [and_iff_right hno, hadvance.apart hleft, ← hrest s' htext hs' hbol, hreading, hlog,
      List.append_assoc]
    rfl
  · exact ⟨fun h => absurd h (hnone ps hps), fun h => absurd hin (h.1 n hn)⟩

/-! ## Comments -/

theorem infix_of_endcomment (h : endcomment c u = some rest) : ['*', '/'] <:+: c :: u := by
  induction u generalizing c with
  | nil => cases h
  | cons d u ih =>
    rw [endcomment] at h
    split at h
    · next hend =>
      rw [hend.1, hend.2]
      exact ⟨[], u, rfl⟩
    · exact (ih h).trans (List.suffix_cons c _).isInfix

theorem endcomment_none (hbody : Inside body) (h : c :: u <:+: body ++ ['*']) :
    endcomment c u = none := by
  cases hend : endcomment c u with
  | none => rfl
  | some rest => exact absurd ((infix_of_endcomment hend).trans h) hbody

theorem endcomment_some (hbody : Inside body) (h : c :: u = body ++ '*' :: '/' :: rest) :
    endcomment c u = some rest := by
  induction body generalizing c u with
  | nil =>
    obtain ⟨rfl, rfl⟩ := List.cons.inj h
    rw [endcomment, if_pos ⟨rfl, rfl⟩]
  | cons d body ih =>
    rw [List.cons_append] at h
    obtain ⟨rfl, hu⟩ := List.cons.inj h
    have hinside : Inside body := fun hin => hbody (hin.trans (List.suffix_cons c _).isInfix)
    cases u with
    | nil => exact absurd hu.symm (List.append_ne_nil_of_right_ne_nil _ (List.cons_ne_nil _ _))
    | cons e u =>
      rw [endcomment, if_neg, ih hinside hu]
      rintro ⟨rfl, rfl⟩
      cases body with
      | nil => cases hu
      | cons f body =>
        obtain ⟨rfl, -⟩ := List.cons.inj hu
        exact hbody ⟨[], body ++ ['*'], rfl⟩

theorem isspace_ne (hc : isspace c = true) : c ≠ '*' ∧ c ≠ '/' ∧ c ≠ '#' ∧ c ≠ '%' := by
  refine ⟨?_, ?_, ?_, ?_⟩
  all_goals
    rintro rfl
    exact absurd hc (by decide)

theorem closed_le {found : Log} (h : reading (true, s) = some found) :
    found = s.log ∨ ∃ start ≤ s.left, s.log ++ [(.closed, start)] <+: found := by
  induction hn : measure (true, s) using Nat.strongRecOn generalizing s with
  | _ n ih =>
    cases hpass : pass (true, s) with
    | error stop =>
      cases stop with
      | eof s' =>
        rw [reading_eof hpass] at h
        rw [pass_eof hpass] at h
        exact Or.inl (Option.some.inj h).symm
      | failed message =>
        rw [reading_failed hpass] at h
        cases h
      | found s' => exact absurd (pass_found hpass).2.symm Bool.false_ne_true
    | ok t =>
      have hmeasure := pass_measure _ t hpass
      rw [reading_pass hpass] at h
      cases passing_of_pass hpass with
      | fetch b log hfin =>
        refine (ih _ (hn ▸ hmeasure) h rfl).imp_right ?_
        rintro ⟨start, hstart, hfound⟩
        exact ⟨start, hstart.trans ((fgets_length hfin).1.trans (Nat.le_add_left _ _)), hfound⟩
      | space b line fin log hspace =>
        refine (ih _ (hn ▸ hmeasure) h rfl).imp_right ?_
        rintro ⟨start, hstart, hfound⟩
        refine ⟨start, hstart.trans (Nat.add_le_add_right ?_ _), hfound⟩
        exact Nat.le_succ_of_le (List.length_dropWhile_le _ _)
      | within c line fin log =>
        refine (ih _ (hn ▸ hmeasure) h rfl).imp_right ?_
        rintro ⟨start, hstart, hfound⟩
        exact ⟨start, hstart.trans (Nat.add_le_add_right (Nat.zero_le _) _), hfound⟩
      | closed fin log hend =>
        have hrest := endcomment_length hend
        refine Or.inr ⟨_, ?_, reading_log h⟩
        simp only [Source.left, List.length_cons]
        omega

/-- The end of a comment in front of `rest`. -/
def closer (rest : Text) : Piece := ⟨.closed, rest.length + 2, rest.length⟩

theorem closes_found {fin : Text} {log : Log} (hbody : Inside body)
    (hs : Sound ⟨c :: u, fin, log⟩) (hc : isspace c = false)
    (hline : c :: u = body ++ '*' :: '/' :: w) :
    Passes true false false ⟨c :: u, fin, log⟩ (closer (w ++ fin)) (w ++ fin) := by
  have hpass : pass (true, ⟨c :: u, fin, log⟩) =
      .ok (false, ⟨w, fin, log ++ [(.closed, w.length + fin.length + 2)]⟩) := by
    rw [pass, hc, if_neg Bool.false_ne_true, if_pos rfl, endcomment_some hbody hline]
  have hsuffix : w <:+ c :: u := hline ▸ ⟨body ++ ['*', '/'], by simp⟩
  refine Or.inl ⟨?_, ⟨w, fin, log ++ [(.closed, w.length + fin.length + 2)]⟩, rfl, ?_,
    hs.suffix hsuffix _, Advance.of_fin rfl hsuffix.length_le,
    fun h => absurd h Bool.false_ne_true, reading_pass hpass⟩
  · intro n hn hin
    exact absurd (hn.le.trans (length_le_append w fin)) (Nat.not_le_of_lt hin.1)
  · rw [Piece.mark, closer, List.length_append]

theorem pass_comment {fin : Text} {log : Log} (hc : isspace c = false)
    (hend : endcomment c u = none) :
    pass (true, ⟨c :: u, fin, log⟩) = .ok (true, ⟨[], fin, log⟩) := by
  rw [pass, hc, if_neg Bool.false_ne_true, if_pos rfl, hend]

theorem closes_past {fin : Text} {log : Log} (hbody : Inside body) (hs : Sound ⟨c :: u, fin, log⟩)
    (hc : isspace c = false) (hline : body = c :: u ++ w) (hfin : fin = w ++ '*' :: '/' :: rest)
    (hnext : Inside w → Sound ⟨[], fin, log⟩ →
      Passes true false false ⟨[], fin, log⟩ (closer rest) rest) :
    Passes true false false ⟨c :: u, fin, log⟩ (closer rest) rest := by
  have hend : endcomment c u = none :=
    endcomment_none hbody (hline ▸ ⟨[], w ++ ['*'], by simp⟩)
  have hinside : Inside w := fun hin => by
    refine hbody (hin.trans ?_)
    rw [hline, List.append_assoc]
    exact (List.suffix_append (c :: u) _).isInfix
  have hleft : rest.length + 2 ≤ fin.length := by
    rw [hfin]
    exact length_le_append w ('*' :: '/' :: rest)
  exact (hnext hinside (hs.suffix (List.nil_suffix) log)).advance
    (Advance.of_fin rfl (Nat.zero_le _)) rfl (hleft.trans (Nat.le_add_left _ _))
    (reading_pass (pass_comment hc hend))

theorem closes_split {log : Log} (hbody : Inside body) (hc : isspace c = false)
    (hline : c :: u = body ++ ['*']) :
    Passes true false false ⟨c :: u, '/' :: rest, log⟩ (closer rest) rest := by
  have hend : endcomment c u = none := endcomment_none hbody (hline ▸ List.infix_rfl)
  have hcut : rest.length < rest.length + 1 ∧ rest.length + 1 < rest.length + 2 := by omega
  refine Or.inr ⟨⟨rest.length + 1, Or.inl rfl, hcut⟩, fun ps _ hfound => ?_⟩
  rw [reading_pass (pass_comment hc hend)] at hfound
  rcases closed_le hfound with heq | ⟨start, hstart, hfront⟩
  · have hlength := congrArg List.length heq
    rw [List.length_append, List.map_cons, List.length_cons] at hlength
    dsimp only at hlength
    omega
  · rw [List.map_cons, List.prefix_append_right_inj, List.cons_prefix_cons] at hfront
    have hsame : start = rest.length + 2 := congrArg Prod.snd hfront.1
    have hleft : start ≤ 0 + (rest.length + 1) := hstart
    omega

/-- A comment is passed to its end, unless a buffer ends inside of the end. The induction is on
what is left of the comment. -/
theorem comment_end (hbody : Inside body) (hs : Sound s)
    (htext : s.text = body ++ '*' :: '/' :: rest) :
    Passes true false false s (closer rest) rest := by
  induction hn : body.length using Nat.strongRecOn generalizing s body with
  | _ n ih =>
    obtain ⟨c, u, hcu⟩ : ∃ c u, s.text = c :: u :=
      List.exists_cons_of_ne_nil
        (htext ▸ List.append_ne_nil_of_right_ne_nil _ (List.cons_ne_nil _ _))
    obtain ⟨line, fin, hu, hs', hadvance, hreading⟩ :=
      exists_line hs hcu (fun _ h => absurd h.symm Bool.false_ne_true)
    have hline : c :: line ++ fin = body ++ '*' :: '/' :: rest := by
      rw [List.cons_append, hu, ← hcu, htext]
    have hlength : rest.length + 2 ≤ (c :: line ++ fin).length := by
      rw [hline]
      exact length_le_append body ('*' :: '/' :: rest)
    refine Passes.advance ?_ hadvance rfl
      (hlength.trans_eq List.length_append) hreading
    cases hc : isspace c with
    | true =>
      cases body with
      | nil => exact absurd (List.cons.inj hline).1 (isspace_ne hc).1
      | cons d body =>
        have hinside : Inside body := fun hin => hbody (hin.trans (List.suffix_cons d _).isInfix)
        have hrest : line ++ fin = body ++ '*' :: '/' :: rest := (List.cons.inj hline).2
        have hleft : rest.length + 2 ≤ (line ++ fin).length := by
          rw [hrest]
          exact length_le_append body ('*' :: '/' :: rest)
        have hcloses := ih body.length (hn ▸ Nat.lt_succ_self _) hinside
          (hs'.suffix (List.suffix_cons c line) s.log) hrest rfl
        exact hcloses.advance (Advance.of_fin rfl (Nat.le_succ _)) rfl
          (hleft.trans_eq List.length_append) (reading_blank hc)
    | false =>
      rcases List.append_eq_append_iff.mp hline with ⟨body', hbody', hfin⟩ | ⟨closing, hend, hfin⟩
      · exact closes_past hbody hs' hc hbody' hfin fun hinside hempty =>
          ih body'.length (by rw [← hn, hbody', List.length_append]; simp) hinside hempty hfin rfl
      · cases closing with
        | nil =>
          rw [List.append_nil] at hend
          refine closes_past hbody hs' hc (w := []) ?_ hfin.symm fun hinside hempty =>
            ih 0 (by rw [← hn, ← hend]; exact Nat.succ_pos _) hinside hempty hfin.symm rfl
          rw [List.append_nil, hend]
        | cons d closing =>
          rw [List.cons_append] at hfin
          obtain ⟨rfl, hslash⟩ := List.cons.inj hfin
          cases closing with
          | nil =>
            rw [List.nil_append] at hslash
            exact hslash ▸ closes_split hbody hc hend
          | cons e closing =>
            rw [List.cons_append] at hslash
            obtain ⟨rfl, rfl⟩ := List.cons.inj hslash
            exact closes_found hbody hs' hc hend

/-! ## Tokens -/

theorem readToken_illegal (hc : isspace c = true ∨ c = '/' ∨ c = '#' ∨ c = '%') (u : Text) :
    readToken (c :: u) = .error (illegalCharacter c) := by
  simp only [isspace, Bool.or_eq_true, beq_iff_eq] at hc
  rcases hc with (((((rfl | rfl) | rfl) | rfl) | rfl) | rfl) | rfl | rfl | rfl <;> rfl

theorem readToken_head {r : Token × Text} (h : readToken (c :: u) = .ok r) :
    isspace c = false ∧ c ≠ '/' ∧ c ≠ '#' ∧ c ≠ '%' := by
  refine ⟨?_, ?_, ?_, ?_⟩
  · rw [← Bool.not_eq_true]
    intro hc
    rw [readToken_illegal (Or.inl hc)] at h
    cases h
  · rintro rfl
    rw [readToken_illegal (Or.inr (Or.inl rfl))] at h
    cases h
  · rintro rfl
    rw [readToken_illegal (Or.inr (Or.inr (Or.inl rfl)))] at h
    cases h
  · rintro rfl
    rw [readToken_illegal (Or.inr (Or.inr (Or.inr rfl)))] at h
    cases h

theorem pass_token (fin : Text) (log : Log) (hspace : isspace c = false)
    (hopen : ¬ (c = '/' ∧ u.head? = some '*')) :
    pass (false, ⟨c :: u, fin, log⟩) = .error (.found ⟨c :: u, fin, log⟩) := by
  rw [pass, hspace, if_neg Bool.false_ne_true, if_neg Bool.false_ne_true, if_neg hopen]

theorem token_passes {t : Token} (hs : Sound s) (htext : s.text = l ++ rest)
    (hread : readToken (l ++ rest) = .ok (t, rest)) :
    Passes false false false s ⟨.token t, (l ++ rest).length, rest.length⟩ rest := by
  obtain ⟨c, u, hcu⟩ : ∃ c u, l ++ rest = c :: u := by
    cases h : l ++ rest with
    | nil =>
      rw [h] at hread
      cases hread
    | cons c u => exact ⟨c, u, rfl⟩
  have hhead := readToken_head (hcu ▸ hread)
  obtain ⟨line, fin, hu, hs', hadvance, hreading⟩ :=
    exists_line hs (htext.trans hcu) (fun _ _ => hhead.2.2)
  have hsplit : l ++ rest = c :: line ++ fin := by rw [List.cons_append, hu, hcu]
  have hlength := readToken_length hread
  refine Passes.advance ?_ hadvance rfl
    ((congrArg List.length hsplit).trans List.length_append).le hreading
  have hpass := pass_token (u := line) fin s.log hhead.1 (fun h => hhead.2.1 h.1)
  have hleft : (⟨c :: line, fin, s.log⟩ : Source).left = (l ++ rest).length := by
    rw [hsplit, List.length_append]
    rfl
  by_cases hle : fin.length ≤ rest.length
  · obtain ⟨r, hr, hline⟩ := readToken_cut (hsplit ▸ hread) hle
    have hsuffix : r <:+ c :: line := by
      refine ⟨l, (List.append_left_inj fin).mp ?_⟩
      rw [List.append_assoc, ← hr, hsplit]
    refine Or.inl ⟨fun n hn hin => ?_, ⟨r, fin, s.log ++ [(.token t, (l ++ rest).length)]⟩, hr.symm,
      rfl, hs'.suffix hsuffix _, Advance.of_fin rfl hsuffix.length_le,
      fun h => absurd h Bool.false_ne_true, ?_⟩
    · exact absurd (hn.le.trans hle) (Nat.not_le_of_lt hin.1)
    · rw [← hleft]
      exact reading_token hpass hline
  · -- the token does not end in the buffer
    rw [not_le] at hle
    have hcut : fin.length < (l ++ rest).length := by
      rw [hsplit, List.cons_append, List.length_cons]
      exact Nat.lt_succ_of_le (length_le_append line fin)
    refine Or.inr ⟨⟨fin.length, Or.inl rfl, hle, hcut⟩, fun ps _ => ?_⟩
    cases hline : readToken (c :: line) with
    | error message =>
      rw [reading_illegal hpass hline]
      exact Option.some_ne_none _ ∘ Eq.symm
    | ok r =>
      refine not_found (m := (.token r.1, (l ++ rest).length)) ?_ (fun found hfound => ?_) ps
      · intro heq
        have htoken : r.1 = t := Event.token.inj (congrArg Prod.fst heq)
        have hwidth := readToken_length hline
        rw [htoken] at hwidth
        rw [hsplit, List.length_append] at hlength
        omega
      · rw [reading_token hpass hline, hleft] at hfound
        exact reading_log hfound

/-! ## Directives -/

theorem head_of_fin {fin : Text} {d : Char} (h : fin.head? = some d) : fin ≠ [] := by
  rintro rfl
  cases h

theorem pass_cpp (log : Log) {fin : Text} {num : ℕ} {fname : Option Text}
    (hhead : fin.head? = some '#') (hnul : '\x00' ∉ fin)
    (h : docppline (fgets fin).1 = .ok (num, fname)) : pass (false, ⟨[], fin, log⟩) =
      .ok (false, ⟨[], (fgets fin).2, log ++ [(.cpp num fname, fin.length)]⟩) := by
  have hfin := head_of_fin hhead
  rw [pass, if_neg hfin]
  dsimp only
  rw [curline_head hfin hnul, curline_eq hnul, if_neg Bool.false_ne_true, if_pos hhead, h]

theorem pass_cpp_error {fin message : Text} {log : Log} (hhead : fin.head? = some '#')
    (hnul : '\x00' ∉ fin) (h : docppline (fgets fin).1 = .error message) :
    pass (false, ⟨[], fin, log⟩) = .error (.failed message) := by
  have hfin := head_of_fin hhead
  rw [pass, if_neg hfin]
  dsimp only
  rw [curline_head hfin hnul, curline_eq hnul, if_neg Bool.false_ne_true, if_pos hhead, h]

theorem pass_copied (log : Log) {fin : Text} (hhead : fin.head? = some '%') (hnul : '\x00' ∉ fin) :
    pass (false, ⟨[], fin, log⟩) =
      .ok (false, ⟨[], (fgets fin).2, log ++ [(.copied (fgets fin).1.tail, fin.length)]⟩) := by
  have hfin := head_of_fin hhead
  have hcpp : fin.head? ≠ some '#' := by
    rw [hhead]
    decide
  rw [pass, if_neg hfin]
  dsimp only
  rw [curline_head hfin hnul, curline_eq hnul, if_neg Bool.false_ne_true, if_neg hcpp, if_pos hhead]

theorem directive_event {fin : Text} {log : Log} (hnul : '\x00' ∉ fin)
    (hhead : fin.head? = some '#' ∨ fin.head? = some '%') {found : Log}
    (hfound : reading (false, ⟨[], fin, log⟩) = some found) :
    ∃ e, log ++ [(e, fin.length)] <+: found := by
  rcases hhead with hhead | hhead
  · cases hcpp : docppline (fgets fin).1 with
    | error message =>
      rw [reading_failed (pass_cpp_error hhead hnul hcpp)] at hfound
      cases hfound
    | ok r =>
      rw [reading_pass (pass_cpp log hhead hnul hcpp)] at hfound
      exact ⟨_, reading_log hfound⟩
  · rw [reading_pass (pass_copied log hhead hnul)] at hfound
    exact ⟨_, reading_log hfound⟩

theorem pass_opened {fin : Text} {log : Log} : pass (false, ⟨'/' :: '*' :: u, fin, log⟩) =
    .ok (true, ⟨u, fin, log ++ [(.opened, u.length + 1 + fin.length + 1)]⟩) := rfl

theorem text_event {fin : Text} {log : Log} (hspace : isspace c = false) {found : Log}
    (hfound : reading (false, ⟨c :: u, fin, log⟩) = some found) :
    ∃ e, log ++ [(e, (c :: u ++ fin).length)] <+: found := by
  have hlength : (c :: u ++ fin).length = u.length + fin.length + 1 := by
    rw [List.length_append, List.length_cons, Nat.add_right_comm]
  by_cases hopen : c = '/' ∧ u.head? = some '*'
  · have hpass : pass (false, ⟨c :: u, fin, log⟩) =
        .ok (true, ⟨u.tail, fin, log ++ [(.opened, (c :: u ++ fin).length)]⟩) := by
      rw [pass, hspace, if_neg Bool.false_ne_true, if_neg Bool.false_ne_true, if_pos hopen, hlength]
    rw [reading_pass hpass] at hfound
    exact ⟨_, reading_log hfound⟩
  · have hpass := pass_token fin log hspace hopen
    cases hread : readToken (c :: u) with
    | error message =>
      rw [reading_illegal hpass hread] at hfound
      cases hfound
    | ok r =>
      rw [reading_token hpass hread] at hfound
      have hleft : (⟨c :: u, fin, log⟩ : Source).left = (c :: u ++ fin).length :=
        List.length_append.symm
      exact ⟨.token r.1, hleft ▸ reading_log hfound⟩

/-- In front of the last character that is no blank, something is noted. The induction is on the
text up to there. -/
theorem first_event (hs : Sound s) (htext : s.text = u ++ w) (hu : ∃ c ∈ u, isspace c = false)
    {found : Log} (hfound : reading (false, s) = some found) :
    ∃ m : Event × ℕ, w.length < m.2 ∧ s.log ++ [m] <+: found := by
  induction u generalizing s with
  | nil =>
    obtain ⟨c, hc, -⟩ := hu
    exact absurd hc List.not_mem_nil
  | cons c u ih =>
    have hstart : w.length < (c :: u ++ w).length := by
      rw [List.cons_append, List.length_cons]
      exact Nat.lt_succ_of_le (length_le_append u w)
    by_cases hdirective : s.line = [] ∧ (c = '#' ∨ c = '%')
    · obtain ⟨line, fin, log⟩ := s
      obtain ⟨rfl, hc⟩ := hdirective
      have hfin : fin = c :: u ++ w := htext
      have hhead : fin.head? = some '#' ∨ fin.head? = some '%' := by
        rw [hfin]
        exact hc.imp (congrArg some) (congrArg some)
      obtain ⟨e, he⟩ := directive_event hs.nul hhead hfound
      exact ⟨_, hfin ▸ hstart, he⟩
    · obtain ⟨line, fin, hline, hs', hadvance, hreading⟩ := exists_line (b := false) hs htext
        (fun hnil _ => ⟨fun h => hdirective ⟨hnil, Or.inl h⟩, fun h => hdirective ⟨hnil, Or.inr h⟩⟩)
      rw [hreading] at hfound
      cases hspace : isspace c with
      | true =>
        rw [reading_blank hspace] at hfound
        refine ih (s := ⟨line, fin, s.log⟩) (hs'.suffix (List.suffix_cons c line) s.log) hline ?_
          hfound
        obtain ⟨d, hd, hnospace⟩ := hu
        rcases List.mem_cons.mp hd with rfl | hd
        · rw [hspace] at hnospace
          cases hnospace
        · exact ⟨d, hd, hnospace⟩
      | false =>
        obtain ⟨e, he⟩ := text_event hspace hfound
        refine ⟨_, ?_, he⟩
        rw [List.cons_append, hline]
        exact hstart

/-! ## Lines of directives -/

theorem fgets_line (h : IsLine '\n' l rest) :
    fgets (l ++ rest) = (l.take (MAXLINESIZE - 1), l.drop (MAXLINESIZE - 1) ++ rest) :=
  takeBuffer_line h _

theorem ends_long {log : Log} {k : ℕ} (hk : 0 < k) (hl : k < l.length)
    (hfetch : (fgets (l ++ rest)).2 = l.drop k ++ rest) :
    ∃ n, (⟨[], l ++ rest, log⟩ : Source).Ends n ∧ rest.length < n ∧ n < (l ++ rest).length := by
  have hne : l ++ rest ≠ [] := List.append_ne_nil_of_left_ne_nil
    (List.ne_nil_of_length_pos (Nat.lt_of_le_of_lt (Nat.zero_le k) hl)) _
  refine ⟨(l.drop k ++ rest).length, (ends_fetch hne).mpr (Or.inr (Or.inl ?_)), ?_, ?_⟩
  · rw [hfetch]
  · rw [List.length_append, List.length_drop]
    omega
  · rw [List.length_append, List.length_append, List.length_drop]
    omega

theorem copied_passes {log : Log} (hs : Sound ⟨[], l ++ rest, log⟩) (h : IsLine '\n' l rest)
    (hhead : l.head? = some '%') : Passes false false true ⟨[], l ++ rest, log⟩
      ⟨.copied l.tail, (l ++ rest).length, rest.length⟩ rest := by
  have hfetch := fgets_line h
  have hne : l ++ rest ≠ [] := List.append_ne_nil_of_left_ne_nil h.nonempty _
  have hpass := pass_copied log
    ((List.head?_append_of_ne_nil l h.nonempty).trans hhead) hs.nul
  by_cases hle : l.length ≤ MAXLINESIZE - 1
  · have hsound := sound_fetch hs
    have hadvance := advance_fetch hne (List.nil_suffix) log
      (log ++ [(.copied l.tail, (l ++ rest).length)])
    rw [List.take_of_length_le hle, List.drop_of_length_le hle, List.nil_append] at hfetch
    rw [hfetch] at hpass hsound hadvance
    refine Or.inl ⟨fun n hn hin => ?_, _, rfl, rfl, hsound.suffix List.nil_suffix _, hadvance,
      fun _ => rfl, reading_pass hpass⟩
    rw [ends_fetch hne, hfetch] at hn
    rcases hn with rfl | hn
    · exact Nat.lt_irrefl _ hin.2
    · exact absurd hn.le (Nat.not_le_of_lt hin.1)
  · rw [not_le] at hle
    refine Or.inr ⟨ends_long (by decide) hle (congrArg Prod.snd hfetch), fun ps _ => ?_⟩
    refine not_found (m := (.copied (fgets (l ++ rest)).1.tail, (l ++ rest).length)) ?_
      (fun found hfound => ?_) ps
    · intro heq
      have htail := Event.copied.inj (congrArg Prod.fst heq)
      have hlength := congrArg List.length htail
      rw [hfetch, List.length_tail, List.length_tail, List.length_take] at hlength
      have hpos : 0 < MAXLINESIZE - 1 := by decide
      omega
    · rw [reading_pass hpass] at hfound
      exact reading_log hfound

theorem cpp_passes {log : Log} {num : ℕ} {fname : Option Text}
    (hs : Sound ⟨[], l ++ (w ++ rest), log⟩) (h : IsLine '\n' (l ++ w) rest)
    (hhead : l.head? = some '#') (hlast : ∀ c ∈ l.getLast?, isspace c = false)
    (hw : ∀ c ∈ w, isspace c = true) (hcpp : docppline (l ++ w) = .ok (num, fname)) :
    Passes false false false ⟨[], l ++ (w ++ rest), log⟩
      ⟨.cpp num fname, (l ++ (w ++ rest)).length, (w ++ rest).length⟩ (w ++ rest) := by
  have hl : l ≠ [] := head_of_fin hhead
  have hne : l ++ (w ++ rest) ≠ [] := List.append_ne_nil_of_left_ne_nil hl _
  have hfin : (l ++ (w ++ rest)).head? = some '#' :=
    (List.head?_append_of_ne_nil l hl).trans hhead
  have hfetch := fgets_line h
  rw [List.append_assoc] at hfetch
  by_cases hle : l.length ≤ MAXLINESIZE - 1
  · -- the buffer ends behind the last character that is no blank
    generalize hk : MAXLINESIZE - 1 - l.length = k
    have htake : (l ++ w).take (MAXLINESIZE - 1) = l ++ w.take k := by
      rw [List.take_append, List.take_of_length_le hle, hk]
    have hdrop : (l ++ w).drop (MAXLINESIZE - 1) = w.drop k := by
      rw [List.drop_append, List.drop_of_length_le hle, hk, List.nil_append]
    rw [htake, hdrop] at hfetch
    have hcppl : docppline (l ++ w.take k) = .ok (num, fname) := by
      refine docppline_cut (w := w.drop k) ?_ (List.append_ne_nil_of_left_ne_nil hl _)
        fun c hc => hw c (List.mem_of_mem_drop hc)
      rw [List.append_assoc, List.take_append_drop]
      exact hcpp
    have hline : (fgets (l ++ (w ++ rest))).1 = l ++ w.take k := congrArg Prod.fst hfetch
    rw [← hline] at hcppl
    have hpass := pass_cpp log hfin hs.nul hcppl
    have hblanks : ∀ c ∈ w.take k, isspace c = true := fun c hc => hw c (List.mem_of_mem_take hc)
    have hsuffix : w.take k <:+ (fgets (l ++ (w ++ rest))).1 := by
      rw [hfetch]
      exact List.suffix_append _ _
    refine Or.inl ⟨fun n hn hin => ?_,
      ⟨w.take k, (fgets (l ++ (w ++ rest))).2, log ++ [(.cpp num fname, (l ++ (w ++ rest)).length)]⟩,
      ?_, rfl, (sound_fetch hs).suffix hsuffix _, advance_fetch hne hsuffix _ _,
      fun h => absurd h Bool.false_ne_true, ?_⟩
    · rw [ends_fetch hne, hfetch] at hn
      rcases hn with rfl | hn
      · exact Nat.lt_irrefl _ hin.2
      · have hle : n ≤ (w.drop k ++ rest).length := hn.le
        rw [List.length_append, List.length_drop] at hle
        have hstop : w.length + rest.length < n := List.length_append ▸ hin.1
        omega
    · rw [Source.text, hfetch, ← List.append_assoc, List.take_append_drop]
    · rw [reading_pass hpass, reading_blanks hblanks]
  · rw [not_le] at hle
    have hdrop : (l ++ w).drop (MAXLINESIZE - 1) = l.drop (MAXLINESIZE - 1) ++ w := by
      rw [List.drop_append, Nat.sub_eq_zero_of_le hle.le, List.drop_zero]
    rw [hdrop, List.append_assoc] at hfetch
    have hrest : (fgets (l ++ (w ++ rest))).2 = l.drop (MAXLINESIZE - 1) ++ (w ++ rest) :=
      congrArg Prod.snd hfetch
    refine Or.inr ⟨ends_long (by decide) hle hrest, fun ps hps hfound => ?_⟩
    cases hline : docppline (fgets (l ++ (w ++ rest))).1 with
    | error message =>
      rw [reading_failed (pass_cpp_error hfin hs.nul hline)] at hfound
      cases hfound
    | ok r =>
      rw [reading_pass (pass_cpp log hfin hs.nul hline)] at hfound
      have hsound := (sound_fetch hs).suffix List.nil_suffix
        (log ++ [(.cpp r.1 r.2, (l ++ (w ++ rest)).length)])
      have hblack : ∃ c ∈ l.drop (MAXLINESIZE - 1), isspace c = false := by
        have hdropped : l.drop (MAXLINESIZE - 1) ≠ [] := by
          rw [Ne, List.drop_eq_nil_iff, not_le]
          exact hle
        refine ⟨l.getLast hl, ?_, hlast _ (List.getLast?_eq_some_getLast hl)⟩
        rw [← List.getLast_drop hdropped]
        exact List.getLast_mem hdropped
      obtain ⟨m, hm, hfront⟩ := first_event hsound hrest hblack hfound
      rw [List.map_cons, List.append_assoc, List.prefix_append_right_inj, List.singleton_append,
        List.cons_prefix_cons] at hfront
      obtain ⟨q, hq, rfl⟩ := List.mem_map.mp (hfront.2.mem List.mem_cons_self)
      exact absurd (hps q hq) (Nat.not_le_of_lt hm)

theorem opener_passes (hs : Sound s) (htext : s.text = '/' :: '*' :: rest) :
    Passes false true false s ⟨.opened, rest.length + 2, rest.length⟩ rest := by
  obtain ⟨line, fin, hu, hs', hadvance, hreading⟩ :=
    exists_line (b := false) hs htext (fun _ _ => by decide)
  have hlength := congrArg List.length hu
  rw [List.length_append, List.length_cons] at hlength
  refine Passes.advance ?_ hadvance rfl ?_ hreading
  · cases line with
    | nil =>
      have hpass := pass_token (c := '/') (u := []) fin s.log rfl (by decide)
      have hcut : rest.length < fin.length ∧ fin.length < rest.length + 2 := by
        rw [List.length_nil] at hlength
        omega
      refine Or.inr ⟨⟨fin.length, Or.inl rfl, hcut⟩, fun ps _ => ?_⟩
      rw [reading_illegal hpass (readToken_illegal (Or.inr (Or.inl rfl)) [])]
      exact Option.some_ne_none _ ∘ Eq.symm
    | cons d line =>
      rw [List.cons_append] at hu
      obtain ⟨rfl, rfl⟩ := List.cons.inj hu
      refine Or.inl ⟨fun n hn hin => ?_, ⟨line, fin, _⟩, rfl, ?_,
        hs'.suffix ⟨['/', '*'], rfl⟩ _, Advance.of_fin rfl (Nat.le_add_right _ 2),
        fun h => absurd h Bool.false_ne_true, reading_pass pass_opened⟩
      · exact absurd (hn.le.trans (length_le_append line fin)) (Nat.not_le_of_lt hin.1)
      · rw [Piece.mark, List.length_append, Nat.add_right_comm line.length 1]
  · simp only [Source.left, List.length_cons]
    omega

/-! ## The whole text -/

theorem reading_nil (htext : s.text = []) : reading (false, s) = some s.log := by
  obtain ⟨line, fin, log⟩ := s
  obtain ⟨rfl, rfl⟩ := List.append_eq_nil_iff.mp htext
  exact reading_eof rfl

/-- **The scanner reads the text**, from any place on that is not inside of a piece, exactly if the
buffers end outside of the pieces. The induction is on the pieces. -/
theorem reading_iff {bol : Bool} {txt : Text} (h : Reads bol txt ps) (hs : Sound s)
    (htext : s.text = txt) (hbol : bol = true → s.line = []) :
    reading (false, s) = some (s.log ++ ps.map Piece.mark) ↔ s.Apart ps := by
  induction h generalizing s with
  | done =>
    rw [reading_nil htext, List.map_nil, List.append_nil]
    exact ⟨fun _ n _ p hp => absurd hp List.not_mem_nil, fun _ => rfl⟩
  | @blank bol c u ps hc hreads ih =>
    obtain ⟨line, fin, hu, hs', hadvance, hreading⟩ :=
      exists_line (b := false) hs htext (fun _ _ => (isspace_ne hc).2.2)
    have hnext := ih (s := ⟨line, fin, s.log⟩) (hs'.suffix (List.suffix_cons c line) s.log) hu
      fun hnewline => by
        cases line with
        | nil => rfl
        | cons d line =>
          refine absurd ?_ hs'.newline
          rw [← eq_of_beq hnewline]
          exact List.mem_cons_self
    have hadvance' : Advance s ⟨line, fin, s.log⟩ :=
      hadvance.trans (Advance.of_fin rfl (Nat.le_succ _))
    have hleft : ∀ p ∈ ps, p.start ≤ (⟨line, fin, s.log⟩ : Source).left := by
      rw [← Source.length_text, Source.text, hu]
      exact hreads.start_le
    rw [hadvance'.apart hleft, ← hnext, hreading, reading_blank hc]
  | cpp hline hhead hlast hw hcpp hreads ih =>
    obtain ⟨line, fin, log⟩ := s
    obtain rfl : line = [] := hbol rfl
    obtain rfl : fin = _ := htext
    refine (cpp_passes hs hline hhead hlast hw hcpp).reading_iff hreads.start_le ?_
    exact fun s' htext' hs' _ => ih hs' htext' fun h => absurd h Bool.false_ne_true
  | copied hline hhead hreads ih =>
    obtain ⟨line, fin, log⟩ := s
    obtain rfl : line = [] := hbol rfl
    obtain rfl : fin = _ := htext
    refine (copied_passes hs hline hhead).reading_iff hreads.start_le ?_
    exact fun s' htext' hs' hbol' => ih hs' htext' hbol'
  | @comment bol body rest ps hbody hreads ih =>
    refine (opener_passes hs htext).reading_iff (fun q hq => ?_) fun s' htext' hs' _ => ?_
    · have hle := length_le_append body ('*' :: '/' :: rest)
      rw [List.length_cons, List.length_cons] at hle
      rcases List.mem_cons.mp hq with rfl | hq
      · exact hle
      · exact (hreads.start_le q hq).trans (le_trans (Nat.le_add_right _ 2) hle)
    · refine (comment_end hbody hs' htext').reading_iff hreads.start_le ?_
      exact fun s'' htext'' hs'' _ => ih hs'' htext'' fun h => absurd h Bool.false_ne_true
  | token hread hl hreads ih =>
    refine (token_passes hs htext hread).reading_iff hreads.start_le ?_
    exact fun s' htext' hs' _ => ih hs' htext' fun h => absurd h Bool.false_ne_true

end Netkit.Rpcgen

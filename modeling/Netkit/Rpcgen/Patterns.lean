import Netkit.Rpcgen.Buffers

/-!
# Patterns of calls

The parser takes tokens with `get_token` and looks at them with `peek`, in any order. What it is
told is what the pieces of the text say, exactly if no buffer ends in a piece.

* `scans_iff`: every pattern of calls.
-/

namespace Netkit.Rpcgen

open Netkit.Foundations

variable {s s' : Source} {seen ahead noted : Log} {txt : Text} {ps : List Piece}

/-- The next token, with what has been found so far and what is still ahead. -/
def takeToken : Log → Log → Option Token × (Log × Log)
  | seen, [] => (none, (seen, []))
  | seen, (.token t, n) :: ahead => (some t, (seen ++ [(.token t, n)], ahead))
  | seen, m :: ahead => takeToken (seen ++ [m]) ahead

def nextToken (s : Log × Log) : Except Text (Option Token × (Log × Log)) := .ok (takeToken s.1 s.2)

/-- What the calls return, and what has been found by then, as the pieces have it. -/
def answers (calls : List Call) (ps : List Piece) : Except Text (List (Option Token) × Log) :=
  Pushback.run nextToken Prod.fst calls ⟨([], ps.map Piece.mark), none⟩

theorem takeToken_silent (h : Silent noted) (seen ahead : Log) :
    takeToken seen (noted ++ ahead) = takeToken (seen ++ noted) ahead := by
  induction noted generalizing seen with
  | nil => rw [List.nil_append, List.append_nil]
  | cons m noted ih =>
    have hrest : Silent noted := fun t n hmem => h t n (List.mem_cons_of_mem m hmem)
    obtain ⟨e, n⟩ := m
    have hstep : takeToken seen ((e, n) :: (noted ++ ahead)) =
        takeToken (seen ++ [(e, n)]) (noted ++ ahead) := by
      cases e with
      | token t => exact absurd List.mem_cons_self (h t n)
      | opened => rfl
      | closed => rfl
      | cpp num fname => rfl
      | copied line => rfl
    rw [List.cons_append, hstep, ih hrest, List.append_assoc, List.singleton_append]

def Stopped (log : Log) (stop : Stop) : Prop :=
  ∀ s, stop = .eof s ∨ stop = .found s → ∃ noted, Silent noted ∧ s.log = log ++ noted ∧
    (stop = .eof s → s = ⟨[], [], log ++ noted⟩)

theorem Silent.append {noted' : Log} (h : Silent noted) (h' : Silent noted') :
    Silent (noted ++ noted') :=
  fun t n hmem => (List.mem_append.mp hmem).elim (h t n) (h' t n)

/-- The loop of `get_token` notes no token. -/
theorem loop_stopped (s : Source) :
    Stopped s.log (outcome pass measure (.failed []) (false, s)) := by
  let I : Bool × Source → Prop := fun t => ∃ noted, Silent noted ∧ t.2.log = s.log ++ noted
  refine outcome_invariant (I := I) (J := Stopped s.log) pass_measure ?_ ?_
    ⟨[], silent_nil, (List.append_nil _).symm⟩
  · rintro ⟨b, t⟩ ⟨b', t'⟩ hpass ⟨noted, hsilent, hlog⟩
    obtain ⟨noted', hsilent', hlog'⟩ := pass_log hpass
    refine ⟨noted ++ noted', hsilent.append hsilent', ?_⟩
    dsimp only at hlog ⊢
    rw [hlog', hlog, List.append_assoc]
  · rintro ⟨b, t⟩ stop hpass ⟨noted, hsilent, hlog⟩ u (rfl | rfl)
    · dsimp only at hlog
      rw [pass_eof hpass, hlog]
      exact ⟨noted, hsilent, rfl, fun _ => rfl⟩
    · obtain ⟨rfl, -⟩ := pass_found hpass
      exact ⟨noted, hsilent, hlog, fun h => by cases h⟩

theorem getToken_cases {t : Option Token} (h : getToken s = .ok (t, s')) :
    ∃ noted, Silent noted ∧ (t = none ∧ s' = ⟨[], [], s.log ++ noted⟩ ∨
      ∃ token n, t = some token ∧ s'.log = s.log ++ noted ++ [(.token token, n)]) := by
  have hstopped := loop_stopped s
  rw [getToken] at h
  cases hstop : outcome pass measure (.failed []) (false, s) with
  | failed message =>
    rw [hstop] at h
    cases h
  | eof u =>
    rw [hstop] at h hstopped
    cases h
    obtain ⟨noted, hsilent, -, heof⟩ := hstopped s' (Or.inl rfl)
    exact ⟨noted, hsilent, Or.inl ⟨rfl, heof rfl⟩⟩
  | found u =>
    rw [hstop] at h hstopped
    obtain ⟨noted, hsilent, hlog, -⟩ := hstopped u (Or.inr rfl)
    cases hread : readToken u.line with
    | error message =>
      rw [tokenAt, hread] at h
      cases h
    | ok r =>
      rw [tokenAt, hread] at h
      cases h
      exact ⟨noted, hsilent, Or.inr ⟨r.1, u.left, rfl, by rw [hlog]⟩⟩

/-- The scanner is at a place of the text, and finds what is ahead of it. -/
def Follows (s : Source) (found : Log × Log) : Prop :=
  s.log = found.1 ∧ reading (false, s) = some (found.1 ++ found.2)

theorem alike_follows : Pushback.Alike getToken nextToken Follows := by
  rintro s ⟨seen, ahead⟩ ⟨rfl, hreading⟩
  dsimp only at hreading ⊢
  rw [reading_getToken] at hreading
  cases hget : getToken s with
  | error message =>
    rw [hget] at hreading
    cases hreading
  | ok r =>
    obtain ⟨t, s'⟩ := r
    rw [hget] at hreading
    obtain ⟨noted, hsilent, ⟨rfl, rfl⟩ | ⟨token, n, rfl, hlog⟩⟩ := getToken_cases hget
    · -- the end of the file
      have hahead : noted = ahead := List.append_cancel_left (Option.some.inj hreading)
      have htake := takeToken_silent hsilent s.log []
      rw [List.append_nil, hahead] at htake
      refine ⟨none, _, (s.log ++ ahead, []), rfl, congrArg Except.ok htake, ?_, ?_⟩
      · rw [hahead]
      · exact (reading_nil rfl).trans (by rw [hahead, List.append_nil])
    · have hfront := reading_log hreading
      rw [hlog, List.append_assoc, List.prefix_append_right_inj] at hfront
      obtain ⟨rest, hrest⟩ := hfront
      have htake := takeToken_silent hsilent s.log ((.token token, n) :: rest)
      rw [List.append_assoc, List.singleton_append] at hrest
      rw [hrest] at htake
      refine ⟨some token, s', (s'.log, rest), rfl, ?_, rfl, ?_⟩
      · rw [nextToken, htake, hlog]
        rfl
      · refine hreading.trans ?_
        rw [hlog, ← hrest, List.append_assoc, List.append_assoc]
        rfl

theorem takeToken_append (seen ahead : Log) :
    (takeToken seen ahead).2.1 ++ (takeToken seen ahead).2.2 = seen ++ ahead ∧
      ((takeToken seen ahead).1 = none → (takeToken seen ahead).2.2 = []) ∧
      ((takeToken seen ahead).1 ≠ none → (takeToken seen ahead).2.2.length < ahead.length) := by
  induction ahead generalizing seen with
  | nil => exact ⟨rfl, fun _ => rfl, fun h => absurd rfl h⟩
  | cons m ahead ih =>
    obtain ⟨e, n⟩ := m
    obtain ⟨happend, hnone, hsome⟩ := ih (seen ++ [(e, n)])
    rw [List.append_assoc, List.singleton_append] at happend
    have hlonger := fun h => Nat.lt_succ_of_lt (hsome h)
    cases e with
    | token t => exact ⟨by simp [takeToken], fun h => absurd h (Option.some_ne_none t),
        fun _ => Nat.lt_succ_self _⟩
    | opened => exact ⟨happend, hnone, hlonger⟩
    | closed => exact ⟨happend, hnone, hlonger⟩
    | cpp num fname => exact ⟨happend, hnone, hlonger⟩
    | copied line => exact ⟨happend, hnone, hlonger⟩

theorem map_cons_injective {t : Option Token} {x y : Except Text (List (Option Token) × Log)}
    (h : (x.map fun r => (t :: r.1, r.2)) = y.map fun r => (t :: r.1, r.2)) : x = y := by
  cases x with
  | error e =>
    cases y with
    | error e' => exact congrArg Except.error (Except.error.inj h)
    | ok r => cases h
  | ok q =>
    cases y with
    | error e => cases h
    | ok r =>
      obtain ⟨hlist, hlog⟩ := Prod.mk.inj (Except.ok.inj h)
      exact congrArg Except.ok (Prod.ext (List.cons.inj hlist).2 hlog)

/-- A scanner that answers every pattern like the pieces finds the pieces. The induction is on what
is ahead; the pattern that takes one more token tells what is found next. -/
theorem follows_of_answers (hanswers : ∀ calls, Pushback.run getToken Source.log calls ⟨s, none⟩ =
      Pushback.run nextToken Prod.fst calls ⟨(seen, ahead), none⟩) : Follows s (seen, ahead) := by
  induction hn : ahead.length using Nat.strongRecOn generalizing s seen ahead with
  | _ n ih =>
    have hlog : s.log = seen := congrArg Prod.snd (Except.ok.inj (hanswers []))
    obtain ⟨happend, hnone, hsome⟩ := takeToken_append seen ahead
    have hnext : nextToken (seen, ahead) = .ok (takeToken seen ahead) := rfl
    generalize takeToken seen ahead = r at happend hnone hsome hnext
    obtain ⟨t', seen', ahead'⟩ := r
    have hget (calls : List Call) := hanswers (.get :: calls)
    cases htoken : getToken s with
    | error message =>
      have herror := hget []
      rw [Pushback.run_get hnext, Pushback.run_get_error htoken] at herror
      cases herror
    | ok r =>
      obtain ⟨t, s'⟩ := r
      have hone := hget []
      rw [Pushback.run_get hnext, Pushback.run_get htoken] at hone
      obtain rfl : t = t' := (List.cons.inj (congrArg Prod.fst (Except.ok.inj hone))).1
      refine ⟨hlog, ?_⟩
      rw [reading_getToken, htoken, ← happend]
      have hrest : ∀ calls, Pushback.run getToken Source.log calls ⟨s', none⟩ =
          Pushback.run nextToken Prod.fst calls ⟨(seen', ahead'), none⟩ := by
        intro calls
        have hcalls := hget calls
        rw [Pushback.run_get hnext, Pushback.run_get htoken] at hcalls
        exact map_cons_injective hcalls
      cases t with
      | none =>
        have hfound : s'.log = seen' := congrArg Prod.snd (Except.ok.inj hone)
        have hahead : ahead' = [] := hnone rfl
        rw [hahead, List.append_nil]
        exact congrArg some hfound
      | some token =>
        exact (ih _ (hn ▸ hsome (Option.some_ne_none token)) hrest rfl).2

theorem run_eq_answers_iff (h : Reads true txt ps) (hnul : '\x00' ∉ txt) :
    (∀ calls, (Scanner.start txt).run calls = answers calls ps) ↔
      (⟨[], txt, []⟩ : Source).Apart ps := by
  have hsound : Sound ⟨[], txt, []⟩ := ⟨List.not_mem_nil, hnul⟩
  rw [← reading_iff h hsound rfl fun _ => rfl]
  constructor
  · intro hanswers
    exact (follows_of_answers (s := ⟨[], txt, []⟩) hanswers).2
  · intro hreading calls
    exact Pushback.run_congr alike_follows (fun s found h => h.1) ⟨rfl, hreading⟩ calls none

/-- **The scanner sees the text**, and not the buffers, exactly if no buffer ends inside of a token,
of the beginning or the end of a comment, or of a directive. -/
theorem scans_iff (txt : Text) (ps : List Piece) (h : Reads true txt ps) (hnul : '\x00' ∉ txt) :
    (∀ calls, (Scanner.start txt).run calls = answers calls ps) ↔
      ∀ n, Cut '\n' (MAXLINESIZE - 1) txt n → ∀ p ∈ ps, ¬ (p.stop < n ∧ n < p.start) := by
  rw [run_eq_answers_iff h hnul]
  constructor
  · exact fun hapart n hn => hapart n (Or.inr hn)
  · rintro hcut n (rfl | hn) p hp hin
    · exact absurd (h.start_le p hp) (Nat.not_le_of_lt hin.2)
    · exact hcut n hn p hp hin

/-! ## Two texts -/

/-- `a b` -/
def small : Text := ['a', ' ', 'b', '\n']

def smallPieces : List Piece :=
  [⟨.token ⟨.ident, some ['a']⟩, 4, 3⟩, ⟨.token ⟨.ident, some ['b']⟩, 2, 1⟩]

theorem reads_small : Reads true small smallPieces :=
  .token (l := ['a']) rfl (by decide)
    (.blank rfl (.token (l := ['b']) rfl (by decide) (.blank rfl .done)))

theorem cut_small {n : ℕ} (h : Cut '\n' (MAXLINESIZE - 1) small n) : n = 0 := by
  cases h with
  | here _ => rfl
  | later _ h =>
    cases h with
    | here h => exact absurd rfl h
    | later h _ => exact absurd rfl h

theorem scans_small : (Scanner.start small).run [.peek, .get, .get, .get] =
    answers [.peek, .get, .get, .get] smallPieces := by
  refine (scans_iff small smallPieces reads_small (by decide)).mpr (fun n hn p _ hin => ?_) _
  rw [cut_small hn] at hin
  exact Nat.not_lt_zero _ hin.1

/-- `ab` behind so many blanks that only the `a` is in the first buffer. -/
def wide : Text := List.replicate 1022 ' ' ++ ['a', 'b', '\n']

theorem reads_blanks {k : ℕ} {rest : Text} (h : Reads false rest ps) :
    Reads false (List.replicate k ' ' ++ rest) ps := by
  induction k with
  | zero => exact h
  | succ k ih => exact .blank rfl ih

theorem reads_wide : Reads true wide [⟨.token ⟨.ident, some ['a', 'b']⟩, 3, 1⟩] :=
  .blank rfl (reads_blanks (k := 1021) (.token (l := ['a', 'b']) rfl (by decide) (.blank rfl .done)))

theorem not_scans_wide : ¬ ∀ txt ps, Reads true txt ps → '\x00' ∉ txt →
    ∀ calls, (Scanner.start txt).run calls = answers calls ps := by
  intro h
  have hnul : '\x00' ∉ wide := by decide +kernel
  have hapart := (run_eq_answers_iff reads_wide hnul).mp (h wide _ reads_wide hnul)
  have hne : wide ≠ [] := by decide +kernel
  have hbuffer : (takeBuffer '\n' (MAXLINESIZE - 1) wide).2.length = 2 := by decide +kernel
  have hcut : Cut '\n' (MAXLINESIZE - 1) wide _ := .here hne
  rw [hbuffer] at hcut
  exact hapart 2 (Or.inr hcut) _ List.mem_cons_self (by decide)

end Netkit.Rpcgen

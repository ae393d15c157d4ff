import Mathlib.Algebra.BigOperators.Group.List.Basic
import Mathlib.Algebra.Order.Ring.Nat
import Netkit.Ftp.Ftpglob

/-!
# Braces in a pattern

A pattern with braces stands for the patterns in which one of the alternatives takes their place.

* `globs_of_safe`: such a pattern yields what the alternatives yield, one after the other.
-/

namespace Netkit.Ftp.Ftpglob

open Netkit.Foundations

/-! ## Alternatives -/

/-- Text in which braces are balanced and classes are closed. -/
inductive Balanced : Bytes → Prop
  | nil : Balanced []
  | char {c : UInt8} {s : Bytes} : c ≠ 123 → c ≠ 125 → c ≠ 91 → Balanced s → Balanced (c :: s)
  | cls {t s : Bytes} : 93 ∉ t → Balanced s → Balanced (91 :: (t ++ 93 :: s))
  | brace {b s : Bytes} : Balanced b → Balanced s → Balanced (123 :: (b ++ 125 :: s))

/-- Such a text without a comma outside of inner braces and classes. -/
inductive Alternative : Bytes → Prop
  | nil : Alternative []
  | char {c : UInt8} {s : Bytes} : c ≠ 123 → c ≠ 125 → c ≠ 91 → c ≠ 44 → c ≠ 172 →
      Alternative s → Alternative (c :: s)
  | cls {t s : Bytes} : 93 ∉ t → Alternative s → Alternative (91 :: (t ++ 93 :: s))
  | brace {b s : Bytes} : Balanced b → Alternative s → Alternative (123 :: (b ++ 125 :: s))

def joined : List Bytes → Bytes
  | [] => []
  | [a] => a
  | a :: b :: alts => a ++ 44 :: joined (b :: alts)

variable {b s t post pre : Bytes} {alts : List Bytes} {brclev : ℕ}

theorem Balanced.append (h : Balanced b) (hs : Balanced s) : Balanced (b ++ s) := by
  induction h with
  | nil => exact hs
  | char h1 h2 h3 _ ih => exact .char h1 h2 h3 ih
  | cls ht _ ih =>
    rw [List.cons_append, List.append_assoc]
    exact .cls ht ih
  | brace hb _ _ ih =>
    rw [List.cons_append, List.append_assoc]
    exact .brace hb ih

theorem Alternative.balanced (h : Alternative b) : Balanced b := by
  induction h with
  | nil => exact .nil
  | char h1 h2 h3 _ _ _ ih => exact .char h1 h2 h3 ih
  | cls ht _ ih => exact .cls ht ih
  | brace hb _ ih => exact .brace hb ih

theorem joined_balanced (h : ∀ a ∈ alts, Alternative a) : Balanced (joined alts) := by
  induction alts with
  | nil => exact .nil
  | cons a alts ih =>
    have ha := (h a List.mem_cons_self).balanced
    cases alts with
    | nil => exact ha
    | cons b alts =>
      exact ha.append (.char (by decide) (by decide) (by decide)
        (ih (fun a ha => h a (List.mem_cons_of_mem _ ha))))

theorem Ended.skip_zero (e : Ended) : e.skip 0 = e := by
  cases e with
  | closed n => rw [Ended.skip, Nat.zero_add]
  | opened => rfl
  | astray => rfl

theorem Ended.skip_skip (e : Ended) (m n : ℕ) : (e.skip m).skip n = e.skip (n + m) := by
  cases e with
  | closed k => rw [Ended.skip, Ended.skip, Ended.skip, Nat.add_assoc]
  | opened => rfl
  | astray => rfl

theorem findEnd_class (ht : 93 ∉ t) :
    findEnd true brclev (t ++ 93 :: s) = (findEnd false brclev s).skip (t.length + 1) := by
  induction t with
  | nil => rfl
  | cons c t ih =>
    have hc : c ≠ 93 := fun h => ht (h ▸ List.mem_cons_self)
    rw [List.cons_append, findEnd, decide_eq_true hc, ih (fun h => ht (List.mem_cons_of_mem c h)),
      Ended.skip_skip, List.length_cons, Nat.add_comm]

theorem findEnd_balanced (h : Balanced b) :
    findEnd false brclev (b ++ s) = (findEnd false brclev s).skip b.length := by
  induction h generalizing brclev s with
  | nil => exact (Ended.skip_zero _).symm
  | @char c b h1 h2 h3 _ ih =>
    rw [List.cons_append, findEnd, if_neg h1, if_neg h2, decide_eq_false h3, ih, Ended.skip_skip,
      List.length_cons, Nat.add_comm]
  | @cls t b ht _ ih =>
    rw [List.cons_append, List.append_assoc, List.cons_append, findEnd, if_neg (by decide),
      if_neg (by decide), decide_eq_true rfl, findEnd_class ht, ih, Ended.skip_skip,
      Ended.skip_skip]
    simp only [List.length_cons, List.length_append]
    congr 1
    omega
  | @brace b b' _ _ ihb ih =>
    rw [List.cons_append, List.append_assoc, List.cons_append, findEnd, if_pos rfl, ihb, findEnd,
      if_neg (by decide), if_pos rfl, if_neg (Nat.succ_ne_zero brclev), Nat.add_sub_cancel, ih,
      Ended.skip_skip, Ended.skip_skip, Ended.skip_skip]
    simp only [List.length_cons, List.length_append]
    congr 1
    omega

theorem findEnd_joined (h : ∀ a ∈ alts, Alternative a) :
    findEnd false 0 (joined alts ++ 125 :: post) = .closed (joined alts).length := by
  rw [findEnd_balanced (joined_balanced h)]
  rfl

theorem foldr_push (a x : Bytes) (xs : List Bytes) : a.foldr push (x :: xs) = (a ++ x) :: xs := by
  induction a with
  | nil => rfl
  | cons c a ih =>
    rw [List.foldr_cons, ih]
    rfl

theorem splitAlts_class (ht : 93 ∉ t) : splitAlts true brclev (t ++ 93 :: s) =
    (t ++ [93]).foldr push (splitAlts false brclev s) := by
  induction t with
  | nil => rfl
  | cons c t ih =>
    have hc : c ≠ 93 := fun h => ht (h ▸ List.mem_cons_self)
    rw [List.cons_append, splitAlts, decide_eq_true hc, ih (fun h => ht (List.mem_cons_of_mem c h))]
    rfl

theorem splitAlts_balanced (h : Balanced b) : splitAlts false (brclev + 1) (b ++ s) =
    b.foldr push (splitAlts false (brclev + 1) s) := by
  induction h generalizing brclev s with
  | nil => rfl
  | @char c b h1 h2 h3 _ ih =>
    rw [List.cons_append, splitAlts, if_neg h1, if_neg h2,
      if_neg (fun h => Nat.succ_ne_zero brclev h.2), decide_eq_false h3, ih]
    rfl
  | @cls t b ht _ ih =>
    rw [List.cons_append, List.append_assoc, List.cons_append, splitAlts, if_neg (by decide),
      if_neg (by decide), if_neg (fun h => Nat.succ_ne_zero brclev h.2), decide_eq_true rfl,
      splitAlts_class ht, ih]
    simp only [List.foldr_cons, List.foldr_append, List.foldr_nil]
  | @brace b b' _ _ ihb ih =>
    rw [List.cons_append, List.append_assoc, List.cons_append, splitAlts, if_pos rfl, ihb,
      splitAlts, if_neg (by decide), if_pos rfl, Nat.add_sub_cancel, ih]
    simp only [List.foldr_cons, List.foldr_append]

theorem splitAlts_alternative (h : Alternative b) : splitAlts false 0 (b ++ s) =
    b.foldr push (splitAlts false 0 s) := by
  induction h generalizing s with
  | nil => rfl
  | @char c b h1 h2 h3 h4 h5 _ ih =>
    rw [List.cons_append, splitAlts, if_neg h1, if_neg h2, if_neg (fun h => h.1.elim h4 h5),
      decide_eq_false h3, ih]
    rfl
  | @cls t b ht _ ih =>
    rw [List.cons_append, List.append_assoc, List.cons_append, splitAlts, if_neg (by decide),
      if_neg (by decide), if_neg (fun h => absurd h.1 (by decide)), decide_eq_true rfl,
      splitAlts_class ht, ih]
    simp only [List.foldr_cons, List.foldr_append, List.foldr_nil]
  | @brace b b' hb _ ih =>
    rw [List.cons_append, List.append_assoc, List.cons_append, splitAlts, if_pos rfl,
      splitAlts_balanced hb, splitAlts, if_neg (by decide), if_pos rfl, Nat.add_sub_cancel, ih]
    simp only [List.foldr_cons, List.foldr_append]

theorem splitAlts_joined (hne : alts ≠ []) (h : ∀ a ∈ alts, Alternative a) :
    splitAlts false 0 (joined alts) = alts := by
  induction alts with
  | nil => exact absurd rfl hne
  | cons a alts ih =>
    have ha := h a List.mem_cons_self
    cases alts with
    | nil =>
      have hsplit := splitAlts_alternative (s := []) ha
      rw [List.append_nil] at hsplit
      rw [joined, hsplit, splitAlts, foldr_push, List.append_nil]
    | cons b alts =>
      rw [joined, splitAlts_alternative ha, splitAlts, if_neg (by decide), if_neg (by decide),
        if_pos ⟨Or.inl rfl, rfl⟩,
        ih (List.cons_ne_nil b alts) (fun a ha => h a (List.mem_cons_of_mem _ ha)), foldr_push,
        List.append_nil]

variable {files : Files} {path base d : Bytes} {q : Path}

theorem take_front (a r : Bytes) : (a ++ r).take ((a ++ r).length - r.length) = a := by
  rw [List.length_append, Nat.add_sub_cancel, List.take_left' rfl]

/-- `locate`, where the pattern behind the tilde has come to `r`. -/
theorem locate_eq {p l r : Bytes} (htilde : tilde files p path = (l ++ r, q))
    (hl : ∀ c ∈ l, isGlob c = false) (hr : r.takeWhile (fun c => !isGlob c) = []) :
    locate files p path = if BUFSIZ ≤ q.text.length then .lost
      else if r = [] then .text (l.foldl addpath q).text (l.foldl addpath q).errs
      else if tooLong ∈ (l.foldl addpath q).errs then .lost
      else .special (basename (p.take (p.length - r.length)) ++ r)
        ((l.foldl addpath q).text.take ((l.foldl addpath q).text.length -
          (basename (p.take (p.length - r.length))).length)) (l.foldl addpath q).errs := by
  have hplain : ∀ c ∈ l, (!isGlob c) = true := fun c hc => by rw [hl c hc, Bool.not_false]
  have hdrop : r.dropWhile (fun c => !isGlob c) = r := by
    have hspan := List.takeWhile_append_dropWhile (p := fun c => !isGlob c) (l := r)
    rwa [hr, List.nil_append] at hspan
  rw [locate, htilde]
  dsimp only
  rw [List.takeWhile_append_of_pos hplain, List.dropWhile_append_of_pos hplain, hr, hdrop,
    List.append_nil]

theorem span_append {f : UInt8 → Bool} {e : UInt8} (he : f e = false) (a s : Bytes) :
    (a ++ e :: s).takeWhile f = a.takeWhile f ∧
      (a ++ e :: s).dropWhile f = a.dropWhile f ++ e :: s := by
  have hne : ¬ f e = true := by
    rw [he]
    exact Bool.false_ne_true
  induction a with
  | nil =>
    rw [List.nil_append, List.takeWhile_cons_of_neg hne, List.dropWhile_cons_of_neg hne]
    exact ⟨rfl, rfl⟩
  | cons c a ih =>
    rw [List.cons_append, List.takeWhile_cons, List.takeWhile_cons, List.dropWhile_cons,
      List.dropWhile_cons]
    split
    · exact ⟨congrArg (c :: ·) ih.1, ih.2⟩
    · exact ⟨rfl, rfl⟩

theorem tilde_name (files : Files) (path : Bytes) (hslash : 47 ∉ pre) {t : Bytes} :
    ∃ u v, pre = u ++ v ∧
      tilde files (pre ++ 123 :: t) path = (v ++ 123 :: t, u.foldl addpath ⟨path, []⟩) := by
  cases pre with
  | nil =>
    refine ⟨[], [], rfl, ?_⟩
    rw [List.nil_append, tilde, if_neg (fun h => absurd h.1 (by decide)), List.foldl_nil]
  | cons c cs =>
    rw [List.cons_append, tilde]
    by_cases htilde : c = 126 ∧ path = []
    · obtain ⟨rfl, rfl⟩ := htilde
      obtain ⟨htake, hdrop⟩ := span_append (f := isName) (e := 123) rfl cs t
      refine ⟨126 :: cs.takeWhile isName, cs.dropWhile isName, ?_, ?_⟩
      · rw [List.cons_append, List.takeWhile_append_dropWhile]
      · rw [if_pos ⟨rfl, rfl⟩]
        dsimp only
        rw [htake, hdrop, if_neg]
        rintro (hnil | hhead)
        · exact absurd hnil (List.append_ne_nil_of_right_ne_nil _ (List.cons_ne_nil _ _))
        · cases hrest : cs.dropWhile isName with
          | nil =>
            rw [hrest] at hhead
            exact absurd (Option.some.inj hhead) (by decide)
          | cons b rest =>
            rw [hrest, List.cons_append, List.head?_cons, Option.some.injEq] at hhead
            have hmem : b ∈ cs := (List.dropWhile_suffix _).mem (hrest ▸ List.mem_cons_self)
            exact hslash (List.mem_cons_of_mem _ (hhead ▸ hmem))
    · rw [if_neg htilde]
      exact ⟨[], c :: cs, rfl, rfl⟩

theorem tilde_dir (files : Files) (path d : Bytes) : ∃ d' q, d' <:+ d ∧ ∀ s,
    tilde files (d ++ 47 :: s) path = (d' ++ 47 :: s, q) := by
  cases d with
  | nil =>
    refine ⟨[], ⟨path, []⟩, List.suffix_refl _, fun s => ?_⟩
    rw [List.nil_append, tilde, if_neg (fun h => absurd h.1 (by decide))]
  | cons c cs =>
    by_cases htilde : c = 126 ∧ path = []
    · obtain ⟨rfl, rfl⟩ := htilde
      have hspan (s : Bytes) := span_append (f := isName) (e := 47) rfl cs s
      have hsuffix : cs.dropWhile isName <:+ 126 :: cs :=
        (List.dropWhile_suffix _).trans (List.suffix_cons 126 cs)
      have hne (s : Bytes) : cs.dropWhile isName ++ 47 :: s ≠ [] :=
        List.append_ne_nil_of_right_ne_nil _ (List.cons_ne_nil _ _)
      have hhead (s : Bytes) : (cs.dropWhile isName ++ 47 :: s).head? =
          (cs.dropWhile isName ++ [47]).head? := by
        cases cs.dropWhile isName <;> rfl
      have htilde (s : Bytes) : tilde files (126 :: cs ++ 47 :: s) [] =
          if (cs.dropWhile isName ++ [47]).head? = some 47 then
            if cs.takeWhile isName ≠ [] then (cs.dropWhile isName ++ 47 :: s,
              gethdir files ((126 :: cs.takeWhile isName).foldl addpath ⟨[], []⟩))
            else (cs.dropWhile isName ++ 47 :: s, ⟨files.home, []⟩)
          else (cs.dropWhile isName ++ 47 :: s,
            (126 :: cs.takeWhile isName).foldl addpath ⟨[], []⟩) := by
        rw [List.cons_append, tilde, if_pos (And.intro rfl rfl)]
        dsimp only
        rw [(hspan s).1, (hspan s).2, hhead]
        simp only [hne, false_or]
      by_cases hend : (cs.dropWhile isName ++ [47]).head? = some 47
      · by_cases huser : cs.takeWhile isName ≠ []
        · exact ⟨_, _, hsuffix, fun s => (by rw [htilde, if_pos hend, if_pos huser])⟩
        · exact ⟨_, _, hsuffix, fun s => (by rw [htilde, if_pos hend, if_neg huser])⟩
      · exact ⟨_, _, hsuffix, fun s => (by rw [htilde, if_neg hend])⟩
    · refine ⟨c :: cs, ⟨path, []⟩, List.suffix_refl _, fun s => ?_⟩
      rw [List.cons_append, tilde, if_neg htilde]

theorem basename_append (a : Bytes) : basename (a ++ 47 :: s) = basename s := by
  rw [basename, basename, List.reverse_append, List.reverse_cons, List.append_assoc,
    List.singleton_append]
  by_cases hs : s.reverse.takeWhile (fun c => c ≠ 47) = s.reverse
  · rw [List.takeWhile_append, hs, if_pos rfl, List.takeWhile_cons_of_neg (by decide),
      List.append_nil]
  · rw [List.takeWhile_append, if_neg]
    exact fun hlength => hs ((List.takeWhile_prefix _).eq_of_length hlength)

theorem basename_eq (hs : 47 ∉ s) : basename s = s := by
  rw [basename, List.takeWhile_eq_self_iff.mpr, List.reverse_reverse]
  exact fun c hc => decide_eq_true (fun h => hs (h ▸ List.mem_reverse.mp hc))

theorem foldl_addpath_length (hne : s ≠ []) (h : tooLong ∉ (s.foldl addpath q).errs) :
    q.text.length + s.length ≤ BUFSIZ - 2 := by
  induction s generalizing q with
  | nil => exact absurd rfl hne
  | cons c s ih =>
    by_cases hfull : BUFSIZ - 2 ≤ q.text.length
    · rw [List.foldl_cons, addpath, if_pos hfull, foldl_addpath_errs] at h
      exact absurd (List.mem_append_left _ (List.mem_append_right _ List.mem_cons_self)) h
    · rw [List.foldl_cons, addpath, if_neg hfull] at h
      cases s with
      | nil =>
        rw [List.length_singleton]
        omega
      | cons d s =>
        have hle := ih (List.cons_ne_nil d s) h
        simp only [List.length_append, List.length_cons, List.length_nil] at hle ⊢
        omega

def Located.behind (errs : List Out) : Located → Located
  | .text path errs' => .text path (errs ++ errs')
  | .special pattern path errs' => .special pattern path (errs ++ errs')
  | .lost => .lost

theorem locate_slash (hd : ∀ c ∈ d, isGlob c = false) (hbase : 47 ∉ base)
    (hplain : ∀ c ∈ base, isGlob c = false) {t pattern dir : Bytes} {errs : List Out}
    (h : locate files (d ++ 47 :: (base ++ 123 :: t)) path = .special pattern dir errs) :
    pattern = base ++ 123 :: t ∧ ∀ s, locate files (d ++ 47 :: (base ++ s)) path =
      (locate files (base ++ s) dir).behind errs := by
  obtain ⟨d', q, hsuffix, htilde⟩ := tilde_dir files path d
  have hfront : ∀ c ∈ d' ++ 47 :: base, isGlob c = false := by
    intro c hc
    rcases List.mem_append.mp hc with hc | hc
    · exact hd c (hsuffix.mem hc)
    · rcases List.mem_cons.mp hc with rfl | hc
      · rfl
      · exact hplain c hc
  have hassoc (l s : Bytes) : d' ++ 47 :: (base ++ (l ++ s)) = (d' ++ 47 :: (base ++ l)) ++ s := by
    simp only [List.append_assoc, List.cons_append]
  -- The path behind the slash.
  have hbrace := locate_eq (l := d' ++ 47 :: base) (r := 123 :: t)
    ((htilde (base ++ 123 :: t)).trans (by rw [List.append_assoc, List.cons_append])) hfront
    (List.takeWhile_cons_of_neg (by decide))
  rw [h] at hbrace
  by_cases hsize : BUFSIZ ≤ q.text.length
  · rw [if_pos hsize] at hbrace
    cases hbrace
  by_cases hlong : tooLong ∈ ((d' ++ 47 :: base).foldl addpath q).errs
  · rw [if_neg hsize, if_neg (List.cons_ne_nil 123 t), if_pos hlong] at hbrace
    cases hbrace
  have hroom := foldl_addpath_length (List.append_ne_nil_of_right_ne_nil d'
    (List.cons_ne_nil 47 base)) hlong
  have htake : (d ++ 47 :: (base ++ 123 :: t)).take
      ((d ++ 47 :: (base ++ 123 :: t)).length - (123 :: t).length) = d ++ 47 :: base := by
    rw [show d ++ 47 :: (base ++ 123 :: t) = (d ++ 47 :: base) ++ 123 :: t by
      rw [List.append_assoc, List.cons_append], take_front]
  rw [if_neg hsize, if_neg (List.cons_ne_nil 123 t), if_neg hlong, foldl_addpath_room hlong, htake,
    basename_append, basename_eq hbase] at hbrace
  have hdir : (q.text ++ (d' ++ 47 :: base)).take ((q.text ++ (d' ++ 47 :: base)).length -
      base.length) = q.text ++ (d' ++ [47]) := by
    rw [show q.text ++ (d' ++ 47 :: base) = (q.text ++ (d' ++ [47])) ++ base by
      simp only [List.append_assoc, List.singleton_append], take_front]
  dsimp only at hbrace
  rw [hdir] at hbrace
  cases hbrace
  refine ⟨rfl, fun s => ?_⟩
  -- Both patterns come to the same special character, or to the end.
  have hspan := List.takeWhile_append_dropWhile (p := fun c => !isGlob c) (l := s)
  have hrest : (s.dropWhile (fun c => !isGlob c)).takeWhile (fun c => !isGlob c) = [] := by
    cases hdrop : s.dropWhile (fun c => !isGlob c) with
    | nil => rfl
    | cons b r =>
      have hb := List.head?_dropWhile_not (fun c => !isGlob c) s
      rw [hdrop] at hb
      exact List.takeWhile_cons_of_neg (by rw [show (!isGlob b) = false from hb]; decide)
  have hletters : ∀ c ∈ s.takeWhile (fun c => !isGlob c), isGlob c = false := fun c hc => by
    have hall := List.all_eq_true.mp List.all_takeWhile c hc
    rwa [Bool.not_eq_true'] at hall
  generalize s.takeWhile (fun c => !isGlob c) = l at hspan hletters
  generalize s.dropWhile (fun c => !isGlob c) = r at hspan hrest
  subst hspan
  have hwhole := locate_eq
    (p := d ++ 47 :: (base ++ (l ++ r))) (l := d' ++ 47 :: (base ++ l)) (r := r)
    ((htilde (base ++ (l ++ r))).trans (by rw [hassoc])) (fun c hc => by
      rcases List.mem_append.mp hc with hc | hc
      · exact hd c (hsuffix.mem hc)
      · rcases List.mem_cons.mp hc with rfl | hc
        · rfl
        · exact (List.mem_append.mp hc).elim (hplain c) (hletters c)) hrest
  have hnone : q.text ++ (d' ++ [47]) ≠ [] :=
    List.append_ne_nil_of_right_ne_nil _ (List.append_ne_nil_of_right_ne_nil _ (by decide))
  have hstart : tilde files (base ++ (l ++ r)) (q.text ++ (d' ++ [47])) =
      ((base ++ l) ++ r, ⟨q.text ++ (d' ++ [47]), []⟩) := by
    rw [List.append_assoc]
    unfold tilde
    split
    · rw [if_neg (fun h => hnone h.2)]
    · rfl
  have hpart := locate_eq (p := base ++ (l ++ r)) hstart
    (fun c hc => (List.mem_append.mp hc).elim (hplain c) (hletters c)) hrest
  have hfold : (d' ++ 47 :: (base ++ l)).foldl addpath q =
      ⟨((base ++ l).foldl addpath ⟨q.text ++ (d' ++ [47]), []⟩).text,
        q.errs ++ ((base ++ l).foldl addpath ⟨q.text ++ (d' ++ [47]), []⟩).errs⟩ := by
    have hslash : (d' ++ [47]).foldl addpath q = ⟨q.text ++ (d' ++ [47]), q.errs⟩ := by
      refine foldl_addpath ?_
      simp only [List.length_append, List.length_cons, List.length_nil] at hroom ⊢
      omega
    rw [show d' ++ 47 :: (base ++ l) = (d' ++ [47]) ++ (base ++ l) by
      rw [List.append_assoc, List.singleton_append], List.foldl_append, hslash, foldl_addpath_errs]
  have herrs : tooLong ∉ q.errs := by
    rw [foldl_addpath_room hlong] at hlong
    exact hlong
  have hsmall : ¬ BUFSIZ ≤ (q.text ++ (d' ++ [47])).length := by
    have hbuf : BUFSIZ = 8192 := rfl
    simp only [List.length_append, List.length_cons, List.length_nil] at hroom ⊢
    omega
  have hback : basename ((d ++ 47 :: (base ++ (l ++ r))).take
      ((d ++ 47 :: (base ++ (l ++ r))).length - r.length)) =
        basename ((base ++ (l ++ r)).take ((base ++ (l ++ r)).length - r.length)) := by
    rw [show d ++ 47 :: (base ++ (l ++ r)) = (d ++ 47 :: (base ++ l)) ++ r by
        simp only [List.append_assoc, List.cons_append],
      show base ++ (l ++ r) = (base ++ l) ++ r by rw [List.append_assoc], take_front, take_front,
      basename_append]
  rw [hwhole, hpart, hfold, if_neg hsize, if_neg hsmall, hback]
  dsimp only
  by_cases hr : r = []
  · rw [if_pos hr, if_pos hr]
    rfl
  · rw [if_neg hr, if_neg hr]
    by_cases hover : tooLong ∈ ((base ++ l).foldl addpath ⟨q.text ++ (d' ++ [47]), []⟩).errs
    · rw [if_pos (List.mem_append_right _ hover), if_pos hover]
      rfl
    · rw [if_neg (fun h => (List.mem_append.mp h).elim herrs hover), if_neg hover]
      rfl

theorem locate_append (hpre : ∀ c ∈ pre, isGlob c = false) {t pattern dir : Bytes}
    {errs : List Out} (h : locate files (pre ++ 123 :: t) path = .special pattern dir errs) :
    ∃ base, base <:+ pre ∧ pattern = base ++ 123 :: t ∧ ∀ s, locate files (pre ++ s) path =
      (locate files (base ++ s) dir).behind errs := by
  by_cases hslash : 47 ∈ pre
  · obtain ⟨as, bs, hsplit, has⟩ := List.eq_append_cons_of_mem (List.mem_reverse.mpr hslash)
    have hpre' : pre = bs.reverse ++ 47 :: as.reverse := by
      rw [← List.reverse_reverse pre, hsplit, List.reverse_append, List.reverse_cons,
        List.append_assoc, List.singleton_append]
    have hassoc (s : Bytes) : pre ++ s = bs.reverse ++ 47 :: (as.reverse ++ s) := by
      rw [hpre', List.append_assoc, List.cons_append]
    rw [hassoc] at h
    obtain ⟨hpattern, hlocate⟩ := locate_slash
      (fun c hc => hpre c (hpre' ▸ List.mem_append_left _ hc))
      (fun hmem => has (List.mem_reverse.mp hmem))
      (fun c hc => hpre c (hpre' ▸ List.mem_append_right _ (List.mem_cons_of_mem _ hc))) h
    refine ⟨as.reverse, ⟨bs.reverse ++ [47], ?_⟩, hpattern, fun s => ?_⟩
    · rw [hpre', List.append_assoc, List.singleton_append]
    · rw [hassoc, hlocate]
  · obtain ⟨u, v, rfl, htilde⟩ := tilde_name files path hslash (t := t)
    have hv : ∀ c ∈ v, isGlob c = false := fun c hc => hpre c (List.mem_append_right u hc)
    have hbrace := locate_eq htilde hv (List.takeWhile_cons_of_neg (by decide))
    rw [h, ← List.foldl_append] at hbrace
    split at hbrace
    · cases hbrace
    rw [if_neg (List.cons_ne_nil 123 t)] at hbrace
    split at hbrace
    · cases hbrace
    · next hlong =>
      rw [foldl_addpath_room hlong, take_front, basename_eq hslash] at hbrace
      dsimp only at hbrace
      rw [take_front] at hbrace
      cases hbrace
      refine ⟨u ++ v, List.suffix_refl _, rfl, fun s => ?_⟩
      cases locate files (u ++ v ++ s) path <;> rfl

/-! ## Patterns that are read as they should be -/

/-- A pattern without braces, or one that begins with a plain text and closed braces, and with
each alternative in their place is such a pattern. -/
inductive Safe : Bytes → Prop
  | tame {p : Bytes} : Tame p → Safe p
  | braces {pre post : Bytes} {alts : List Bytes} : alts ≠ [] →
      (∀ c ∈ pre, isGlob c = false) → (∀ a ∈ alts, Alternative a) →
      (∀ a ∈ alts, Safe (pre ++ (a ++ post))) →
        Safe (pre ++ 123 :: (joined alts ++ 125 :: post))

theorem isGlob_of_isName {c : UInt8} (h : isName c = true) : isGlob c = false := by
  by_contra hglob
  rw [Bool.not_eq_false, isGlob] at hglob
  simp only [Bool.or_eq_true, decide_eq_true_eq] at hglob
  rcases hglob with (((rfl | rfl) | rfl) | rfl) | rfl <;> exact absurd h (by decide)

theorem tilde_front (files : Files) (p path : Bytes) :
    ∃ u, p = u ++ (tilde files p path).1 ∧ ∀ c ∈ u, isGlob c = false := by
  have hnone : ∀ c ∈ ([] : Bytes), isGlob c = false := fun c hc => absurd hc List.not_mem_nil
  cases p with
  | nil => exact ⟨[], rfl, hnone⟩
  | cons c cs =>
    rw [tilde]
    split
    · next htilde =>
      have hspan : c :: cs = (c :: cs.takeWhile isName) ++ cs.dropWhile isName := by
        rw [List.cons_append, List.takeWhile_append_dropWhile]
      have hfront : ∀ b ∈ c :: cs.takeWhile isName, isGlob b = false := by
        intro b hb
        rcases List.mem_cons.mp hb with rfl | hb
        · rw [htilde.1]
          decide
        · exact isGlob_of_isName (List.all_eq_true.mp List.all_takeWhile b hb)
      dsimp only
      split
      · split
        · exact ⟨_, hspan, hfront⟩
        · exact ⟨_, hspan, hfront⟩
      · exact ⟨_, hspan, hfront⟩
    · exact ⟨[], rfl, hnone⟩

theorem locate_text {p text : Bytes} {errs : List Out} (h : locate files p path = .text text errs) :
    ∀ c ∈ p, isGlob c = false := by
  obtain ⟨u, hu, hfront⟩ := tilde_front files p path
  rw [locate] at h
  dsimp only at h
  split at h
  · cases h
  · split at h
    · next hnil =>
      intro c hc
      rw [hu] at hc
      rcases List.mem_append.mp hc with hc | hc
      · exact hfront c hc
      · have hplain := List.dropWhile_eq_nil_iff.mp hnil c hc
        rwa [Bool.not_eq_true'] at hplain
    · split at h <;> cases h

/-- The files in their groups, each sorted, behind those that are waiting for the next sorting. -/
def arrange : List Out → List Bytes → List Bytes
  | [], group => exchangeSort strLe group
  | .gcat text :: outs, group => arrange outs (group ++ [text])
  | .sort :: outs, group => exchangeSort strLe group ++ arrange outs []
  | .count :: outs, group => arrange outs group
  | .err _ :: outs, group => arrange outs group

def expands (files : Files) (p : Bytes) : Option (List Bytes) :=
  (expand files (depth p) p [] false).map (fun outs => arrange outs [])

def hits (files : Files) (p : Bytes) : Option ℕ :=
  (expand files (depth p) p [] false).map (List.count .count)

def Out.text? : Out → Option Bytes
  | .gcat text => some text
  | .count => none
  | .sort => none
  | .err _ => none

def texts (outs : List Out) : List Bytes := outs.filterMap Out.text?

def Fits (l : List Bytes) : Prop :=
  (l.map (fun text => text.length + 1)).sum < ARG_MAX - 4 ∧ l.length < GAVSIZ

def Sorted (l : List Bytes) : Prop := l.Pairwise (fun a b => strLe a b = true)

/-- What is expected of a pattern. It ends, and nothing is read or written outside. Without braces
there is one group of files. The files of the first braces are those of the alternatives, one after
the other; only if a wildcard has matched nothing there is no result. -/
def Globs (files : Files) (p : Bytes) : Prop :=
  ∃ r, ftpglob files p = some r ∧
    (123 ∉ p → ∀ l, r = some l → Sorted l) ∧
    ∀ pre alts post, alts ≠ [] → 123 ∉ pre → (∀ a ∈ alts, Alternative a) →
      p = pre ++ 123 :: (joined alts ++ 125 :: post) →
        (∀ a ∈ alts, ∃ l, expands files (pre ++ (a ++ post)) = some l ∧
          (123 ∉ pre ++ (a ++ post) → Sorted l)) ∧
        (Fits (alts.flatMap (fun a => (expands files (pre ++ (a ++ post))).getD [])) →
          r = some (alts.flatMap (fun a => (expands files (pre ++ (a ++ post))).getD [])) ∨
            r = none ∧ (gflag p).2 = true ∧
              ∀ a ∈ alts, hits files (pre ++ (a ++ post)) = some 0)

variable {p : Bytes}

theorem braces_inj {pre' post' : Bytes} {alts' : List Bytes} (hpre : 123 ∉ pre) (hpre' : 123 ∉ pre')
    (hne : alts ≠ []) (hne' : alts' ≠ []) (h : ∀ a ∈ alts, Alternative a)
    (h' : ∀ a ∈ alts', Alternative a)
    (heq : pre ++ 123 :: (joined alts ++ 125 :: post) =
      pre' ++ 123 :: (joined alts' ++ 125 :: post')) :
    pre = pre' ∧ alts = alts' ∧ post = post' := by
  have hfront {l t : Bytes} (hl : 123 ∉ l) :
      (l ++ 123 :: t).takeWhile (fun c => c ≠ 123) = l := by
    have hall : ∀ c ∈ l, decide (c ≠ 123) = true := fun c hc =>
      decide_eq_true (fun h => hl (h ▸ hc))
    rw [List.takeWhile_append_of_pos hall, List.takeWhile_cons_of_neg (by decide), List.append_nil]
  obtain rfl : pre = pre' := by rw [← hfront hpre, heq, hfront hpre']
  obtain ⟨-, hrest⟩ := List.cons.inj (List.append_cancel_left heq)
  have hend : findEnd false 0 (joined alts ++ 125 :: post) = .closed (joined alts).length :=
    findEnd_joined h
  rw [hrest, findEnd_joined h', Ended.closed.injEq] at hend
  obtain ⟨hjoined, hpost⟩ := List.append_inj hrest hend.symm
  rw [← splitAlts_joined hne h, hjoined, splitAlts_joined hne' h']
  exact ⟨rfl, rfl, (List.cons.inj hpost).2⟩

theorem gflag_plain (hp : p ≠ [123] ∧ p ≠ [123, 125]) (h : gflag p = (false, false)) :
    p.head? ≠ some 126 ∧ ∀ c ∈ p, isGlob c = false := by
  rw [gflag] at h
  by_cases htilde : p.head? = some 126
  · rw [if_pos htilde] at h
    exact absurd (Prod.mk.inj h).1 (by decide)
  · rw [if_neg htilde, if_neg (not_or.mpr hp)] at h
    obtain ⟨hbrace, hother⟩ := Prod.mk.inj h
    refine ⟨htilde, fun c hc => ?_⟩
    have hc1 := List.any_eq_false.mp hbrace c hc
    have hc2 := List.any_eq_false.mp hother c hc
    rw [decide_eq_true_iff] at hc1
    rw [Bool.and_eq_true, decide_eq_true_iff] at hc2
    cases hglob : isGlob c with
    | false => rfl
    | true => exact absurd ⟨hglob, hc1⟩ hc2

theorem gflag_brace (hp : p ≠ [123] ∧ p ≠ [123, 125]) (h : 123 ∈ p) :
    gflag p ≠ (false, false) := fun hflag =>
  absurd ((gflag_plain hp hflag).2 123 h) (by decide)

theorem Safe.reading (h : Safe p) (hne : alts ≠ []) (hpre : 123 ∉ pre)
    (halts : ∀ a ∈ alts, Alternative a) (hsplit : p = pre ++ 123 :: (joined alts ++ 125 :: post)) :
    (∀ c ∈ pre, isGlob c = false) ∧ ∀ a ∈ alts, Safe (pre ++ (a ++ post)) := by
  cases h with
  | tame h =>
    refine absurd ?_ h.brace
    rw [hsplit]
    exact List.mem_append_right _ List.mem_cons_self
  | @braces pre' post' alts' hne' hpre' halts' hsafe =>
    have hbrace : 123 ∉ pre' := fun hmem => absurd (hpre' 123 hmem) (by decide)
    obtain ⟨rfl, rfl, rfl⟩ := braces_inj hbrace hpre hne' hne halts' halts hsplit
    exact ⟨hpre', hsafe⟩

theorem not_globs_opened (hfiles : files.Bounded) {t : Bytes}
    (hlength : (pre ++ 123 :: t).length ≤ 4094) (hpre : ∀ c ∈ pre, isGlob c = false)
    (hopened : findEnd false 0 t = .opened)
    (hbuild : ¬ (level false 0 t = 0 ∧ (splitAlts false 0 t).length = 1)) :
    ¬ Globs files (pre ++ 123 :: t) := by
  have hne : pre ++ 123 :: t ≠ [123] ∧ pre ++ 123 :: t ≠ [123, 125] := by
    have hfront {u : Bytes} (h : pre ++ 123 :: t = 123 :: u) : t = u := by
      cases pre with
      | nil => exact (List.cons.inj h).2
      | cons c pre =>
        obtain rfl := (List.cons.inj h).1
        exact absurd (hpre 123 List.mem_cons_self) (by decide)
    refine ⟨fun h => ?_, fun h => ?_⟩
    · rw [hfront h] at hbuild
      exact hbuild ⟨rfl, rfl⟩
    · rw [hfront h] at hopened
      cases hopened
  have hbrace : 123 ∈ pre ++ 123 :: t := List.mem_append_right _ List.mem_cons_self
  have hnone : expand files (depth (pre ++ 123 :: t)) (pre ++ 123 :: t) [] false = none := by
    rcases locate_room hfiles hlength (show ([] : Bytes).length < 4096 by decide) with
      ⟨text, errs, hlocate, -⟩ | ⟨pattern, dir, errs, hlocate, -, -, -⟩
    · exact absurd (locate_text hlocate 123 hbrace) (by decide)
    · obtain ⟨base, hbase, rfl, -⟩ := locate_append hpre hlocate
      have hplain : ∀ c ∈ base, isGlob c = false := fun c hc => hpre c (hbase.mem hc)
      have hhead : ((base ++ 123 :: t).dropWhile (fun c => !isGlob c)).head? = some 123 := by
        rw [List.dropWhile_append_of_pos (fun c hc => by rw [hplain c hc]; rfl),
          List.dropWhile_cons_of_neg (by decide)]
        rfl
      have hbuilt : substituted (base ++ 123 :: t) = none := by
        have hall : ∀ c ∈ base, decide (c ≠ 123) = true := fun c hc =>
          decide_eq_true (fun h => absurd (hplain c hc) (by rw [h]; decide))
        rw [substituted, List.dropWhile_append_of_pos hall,
          List.dropWhile_cons_of_neg (by decide), List.tail_cons, hopened]
        exact if_neg hbuild
      rw [depth, expand, hlocate]
      dsimp only
      rw [if_pos hhead, hbuilt]
      rfl
  rintro ⟨r, hr, -⟩
  rw [ftpglob, if_neg (gflag_brace hne hbrace), collect, if_neg (not_or.mpr hne), hnone] at hr
  cases hr

def unsorted : Files where
  opendir _ := some [ascii "ab", ascii "b", ascii "aa"]
  stat _ := none
  home := ascii "/"
  getpwnam _ := none

theorem unsorted_bounded : unsorted.Bounded :=
  ⟨fun _ _ h => (by cases h), by decide, fun _ _ h => (by cases h)⟩

theorem not_globs_opened_pair : ¬ Globs unsorted ([] ++ 123 :: ascii "a,b") :=
  not_globs_opened unsorted_bounded (by decide) (fun _ h => absurd h List.not_mem_nil) (by decide)
    (by decide)

-- The pattern `{b,a*}`.
example : ftpglob unsorted (ascii "\x7bb,a*\x7d") =
    some (some [ascii "b", ascii "aa", ascii "ab"]) := by
  decide +kernel

end Netkit.Ftp.Ftpglob

import Mathlib.Data.List.Induction
import Netkit.Rpcgen.Routine

/-!
# The size that `XDR_INLINE` is asked for

What the C compiler makes of the text that the emitter prints for the size of a run.
-/

namespace Netkit.Rpcgen

open Netkit.Foundations.Expression

/-! ## The accumulators -/

def runSize (run : List Declaration) : Nat :=
  ((run.filter (fun d => d.rel == .alias)).map typeLength).sum

def runArrays (run : List Declaration) : List Declaration :=
  run.filter (fun d => d.rel == .vector)

def runSizestr (run : List Declaration) : Option Text :=
  (runArrays run).foldl (fun str d => some (appendSize str d)) none

theorem typeLength_of_basic {d : Declaration} (h : basicMember d = true) : typeLength d = 1 := by
  obtain ⟨t, ht⟩ := ((basicMember_iff d).mp h).2.1
  rw [typeLength, ht]
  exact findType_length ht

theorem rel_of_basic {d : Declaration} (h : basicMember d = true) (hrel : d.rel ≠ .alias) :
    d.rel = .vector :=
  ((basicMember_iff d).mp h).2.2.resolve_left hrel

theorem runSize_concat_alias {run : List Declaration} {d : Declaration} (h : d.rel = .alias) :
    runSize (run ++ [d]) = runSize run + typeLength d := by
  simp [runSize, List.filter_append, h]

theorem runSize_concat_vector {run : List Declaration} {d : Declaration} (h : d.rel = .vector) :
    runSize (run ++ [d]) = runSize run := by
  simp [runSize, List.filter_append, h]

theorem runSizestr_concat_alias {run : List Declaration} {d : Declaration} (h : d.rel = .alias) :
    runSizestr (run ++ [d]) = runSizestr run := by
  simp [runSizestr, runArrays, List.filter_append, h]

theorem runSizestr_concat_vector {run : List Declaration} {d : Declaration}
    (h : d.rel = .vector) : runSizestr (run ++ [d]) = some (appendSize (runSizestr run) d) := by
  simp [runSizestr, runArrays, List.filter_append, h]

theorem runSizestr_eq_none {run : List Declaration} :
    runSizestr run = none ↔ runArrays run = [] := by
  constructor
  · intro h
    cases harrays : runArrays run using List.reverseRecOn with
    | nil => rfl
    | append_singleton ds d =>
      rw [runSizestr, harrays, List.foldl_append] at h
      cases h
  · intro h
    rw [runSizestr, h]
    rfl

/-! ## The tokens of the text -/

def shownBound (d : Declaration) : Text := d.arrayMax.take 252

theorem tokens_take_blank {w : Text} (hw : IsWord w) {k : Nat} (hk : 0 < k) :
    tokens ((w ++ [' ']).take k) = [.word (w.take k)] := by
  by_cases hle : k ≤ w.length
  · rw [List.take_append_of_le_length hle]
    exact tokens_word (isWord_take hw hk)
  · have hall : (w ++ [' ']).length ≤ k := by
      rw [List.length_append, List.length_singleton]
      omega
    rw [List.take_of_length_le hall, List.take_of_length_le (by omega),
      tokens_append_cons (by decide), tokens_word hw]
    rfl

theorem appendSize_eq {d : Declaration} (hd : typeLength d = 1) (str : Option Text) :
    appendSize str d = str.getD [] ++
      ' ' :: (if str = none then ' ' else '+') :: ' ' :: (d.arrayMax ++ [' ']).take 252 := by
  have hlen : ¬ typeLength d ≠ 1 := by omega
  simp only [appendSize, if_neg hlen]
  by_cases hstr : str = none
  · simp [hstr, snprintf]
  · simp [hstr, snprintf]

theorem tokens_appendSize {d : Declaration} (hd : typeLength d = 1) (hrel : d.rel = .vector)
    (str : Option Text) :
    tokens (appendSize str d) =
      tokens (str.getD []) ++ (if str = none then [] else [.plus]) ++ [.word (shownBound d)] := by
  have hword := tokens_take_blank (d.bounded hrel) (by omega : 0 < 252)
  rw [appendSize_eq hd, tokens_append_cons (by decide)]
  by_cases hstr : str = none
  · simp only [hstr, if_true]
    rw [tokens_cons (by decide), tokens_cons (by decide), hword]
    rfl
  · simp only [hstr, if_false]
    rw [tokens_cons (by decide), tokens_cons (by decide), hword]
    simp [punctuation, shownBound]

theorem tokens_foldl {ds : List Declaration} (hds : ∀ d ∈ ds, typeLength d = 1 ∧ d.rel = .vector)
    (str : Text) :
    ∃ text, ds.foldl (fun str d => some (appendSize str d)) (some str) = some text ∧
      tokens text = tokens str ++ addends (ds.map shownBound) := by
  induction ds generalizing str with
  | nil => exact ⟨str, rfl, (List.append_nil _).symm⟩
  | cons d ds ih =>
    obtain ⟨hlen, hrel⟩ := hds d List.mem_cons_self
    obtain ⟨text, htext, htokens⟩ :=
      ih (fun e he => hds e (List.mem_cons_of_mem d he)) (appendSize (some str) d)
    refine ⟨text, htext, ?_⟩
    rw [htokens, tokens_appendSize hlen hrel]
    simp [addends]

theorem runArrays_spec {run : List Declaration} (hrun : ∀ d ∈ run, basicMember d = true) :
    ∀ d ∈ runArrays run, typeLength d = 1 ∧ d.rel = .vector := by
  intro d hd
  obtain ⟨hmem, hrel⟩ := List.mem_filter.mp hd
  exact ⟨typeLength_of_basic (hrun d hmem), by simpa using hrel⟩

/-- The text of the arrays: their bounds with `+` between them. -/
theorem tokens_runSizestr {run : List Declaration} (hrun : ∀ d ∈ run, basicMember d = true)
    {d : Declaration} {ds : List Declaration} (harrays : runArrays run = d :: ds) :
    ∃ text, runSizestr run = some text ∧
      tokens text = .word (shownBound d) :: addends (ds.map shownBound) := by
  have hspec := runArrays_spec hrun
  rw [harrays] at hspec
  obtain ⟨hlen, hrel⟩ := hspec d List.mem_cons_self
  obtain ⟨text, htext, htokens⟩ :=
    tokens_foldl (fun e he => hspec e (List.mem_cons_of_mem d he)) (appendSize none d)
  refine ⟨text, ?_, ?_⟩
  · rw [runSizestr, harrays]
    exact htext
  · rw [htokens, tokens_appendSize hlen hrel]
    rfl

/-! ## The value of the text -/

def shown (c : Values) (d : Declaration) : Nat := constant c (shownBound d)

/-- A sum without parentheses before a factor: only the last term is multiplied. -/
def lastTimes (ns : List Nat) (m : Nat) : Nat := ns.dropLast.sum + ns.getLastD 0 * m

theorem addAll_start_mul (n m : Nat) (ns : List Nat) :
    (((Level.start.mul n).addAll ns).mul m).total = lastTimes (n :: ns) m := by
  cases ns using List.reverseRecOn with
  | nil => simp [lastTimes, Level.addAll, Level.start, Level.mul, Level.total]
  | append_singleton ns k =>
    have hdrop : (n :: (ns ++ [k])).dropLast = n :: ns := by
      rw [← List.cons_append, List.dropLast_concat]
    have hlast : (n :: (ns ++ [k])).getLastD 0 = k := by
      rw [← List.cons_append, List.getLastD_concat]
    rw [addAll_mul_total, lastTimes, hdrop, hlast, List.sum_cons]
    simp [Level.start, Level.mul, Level.total]

theorem mapM_lookup {locals : List Text} {c : Values} {ds : List Declaration}
    (h : ∀ d ∈ ds, shownBound d ∉ locals) :
    (ds.map shownBound).mapM (lookup locals c) = some (ds.map (shown c)) := by
  induction ds with
  | nil => rfl
  | cons d ds ih =>
    rw [List.map_cons, List.mapM_cons, ih (fun e he => h e (List.mem_cons_of_mem d he)),
      lookup_of_not_mem (h d List.mem_cons_self)]
    rfl

/-- The value of the printed size: with no arrays, with arrays only, with both. -/
def sizeValue (c : Values) (run : List Declaration) : Nat :=
  if runArrays run = [] then runSize run * BYTES_PER_XDR_UNIT
  else if runSize run = 0 then lastTimes ((runArrays run).map (shown c)) BYTES_PER_XDR_UNIT
  else (runSize run + ((runArrays run).map (shown c)).sum) * BYTES_PER_XDR_UNIT

theorem constant_toDigits (c : Values) (n : Nat) : constant c (Nat.toDigits 10 n) = n := by
  have hword := isWord_toDigits n
  cases hcs : Nat.toDigits 10 n with
  | nil => exact absurd hcs hword.1
  | cons d ds =>
    have hdigit : d.isDigit = true :=
      Nat.isDigit_of_mem_toDigits (n := n) (by decide) (by decide) (hcs ▸ List.mem_cons_self)
    have hname : d :: ds ≠ "BYTES_PER_XDR_UNIT".toList := by
      intro h
      rw [(List.cons.inj h).1] at hdigit
      exact absurd hdigit (by decide)
    rw [constant, if_neg hname, if_pos (by simpa [startsWithDigit] using hdigit), ← hcs]
    exact numeral_toDigits n

/-- The variables of a routine are neither numerals nor the constant of the library. -/
structure Names (locals : List Text) : Prop where
  unit : "BYTES_PER_XDR_UNIT".toList ∉ locals
  digits : ∀ n, Nat.toDigits 10 n ∉ locals

theorem evaluate_inlineSize {locals : List Text} (hlocals : Names locals) (c : Values)
    {run : List Declaration} (hrun : ∀ d ∈ run, basicMember d = true)
    (hbounds : ∀ d ∈ runArrays run, shownBound d ∉ locals) :
    evaluate (lookup locals c) (inlineSize (runSize run) (runSizestr run)) =
      some (sizeValue c run) := by
  have hunit : lookup locals c "BYTES_PER_XDR_UNIT".toList = some BYTES_PER_XDR_UNIT := by
    rw [lookup_of_not_mem hlocals.unit]
    rfl
  have hsize : lookup locals c (Nat.toDigits 10 (runSize run)) = some (runSize run) := by
    rw [lookup_of_not_mem (hlocals.digits _), constant_toDigits]
  have hfactor : tokens "* BYTES_PER_XDR_UNIT".toList =
      [.times, .word "BYTES_PER_XDR_UNIT".toList] := by decide
  cases harrays : runArrays run with
  | nil =>
    have hstr : runSizestr run = none := runSizestr_eq_none.mpr harrays
    have htokens : tokens (inlineSize (runSize run) none) =
        [.word (Nat.toDigits 10 (runSize run)), .times,
          .word "BYTES_PER_XDR_UNIT".toList] := by
      show tokens (_ ++ ' ' :: "* BYTES_PER_XDR_UNIT".toList) = _
      rw [tokens_append_cons (by decide), tokens_word (isWord_toDigits _), hfactor]
      rfl
    rw [hstr, evaluate, htokens]
    simp only [reckon, hsize, hunit, Option.bind_eq_bind, Option.bind_some, sizeValue, harrays,
      if_true, Level.start, Level.mul, Level.total, Nat.zero_add, Nat.one_mul]
  | cons d ds =>
    obtain ⟨str, hstr, hsum⟩ := tokens_runSizestr hrun harrays
    rw [harrays] at hbounds
    have hfirst : lookup locals c (shownBound d) = some (shown c d) :=
      lookup_of_not_mem (hbounds d List.mem_cons_self) c
    have hrest := mapM_lookup (c := c) (fun e he => hbounds e (List.mem_cons_of_mem d he))
    rw [hstr]
    by_cases hzero : runSize run = 0
    · have htokens : tokens (inlineSize (runSize run) (some str)) =
          .word (shownBound d) :: (addends (ds.map shownBound) ++
            [.times, .word "BYTES_PER_XDR_UNIT".toList]) := by
        rw [inlineSize, if_pos hzero]
        show tokens (str ++ ' ' :: "* BYTES_PER_XDR_UNIT".toList) = _
        rw [tokens_append_cons (by decide), hsum, hfactor]
        simp [punctuation]
      rw [evaluate, htokens]
      simp only [reckon, hfirst, Option.bind_eq_bind, Option.bind_some]
      rw [reckon_addends hrest]
      simp only [reckon, hunit, Option.bind_eq_bind, Option.bind_some]
      rw [addAll_start_mul]
      simp only [sizeValue, harrays, hzero, List.map_cons, reduceCtorEq, if_false, if_true]
    · have htokens : tokens (inlineSize (runSize run) (some str)) =
          .lparen :: .word (Nat.toDigits 10 (runSize run)) ::
            (addends (shownBound d :: ds.map shownBound) ++
              [.rparen, .times, .word "BYTES_PER_XDR_UNIT".toList]) := by
        rw [inlineSize, if_neg hzero]
        simp only [List.append_assoc]
        show tokens ('(' :: (_ ++ ' ' :: '+' :: ' ' :: (str ++ ')' ::
          "* BYTES_PER_XDR_UNIT".toList))) = _
        rw [tokens_cons (by decide), tokens_append_cons (by decide),
          tokens_word (isWord_toDigits _), tokens_cons (by decide), tokens_cons (by decide),
          tokens_append_cons (by decide), hsum, hfactor]
        simp [punctuation, addends]
      have hall : (shownBound d :: ds.map shownBound).mapM (lookup locals c) =
          some (shown c d :: ds.map (shown c)) := by
        rw [List.mapM_cons, hfirst, hrest]
        rfl
      rw [evaluate, htokens]
      simp only [reckon, hsize, Option.bind_eq_bind, Option.bind_some]
      rw [reckon_addends hall]
      simp only [reckon, hunit, Option.bind_eq_bind, Option.bind_some]
      have htotal := addAll_total (Level.start.mul (runSize run)) (shown c d :: ds.map (shown c))
      simp only [sizeValue, harrays, hzero, List.map_cons, reduceCtorEq, if_false, Level.mul,
        Level.total, Level.start, Nat.zero_add, Nat.one_mul] at htotal ⊢
      rw [htotal]

end Netkit.Rpcgen

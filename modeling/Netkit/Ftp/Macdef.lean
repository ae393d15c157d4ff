import Netkit.Foundations.Lines

/-!
# The macro space of ftp

`macdef` reads the lines of a macro into one buffer, behind those of the macro before it.
-/

namespace Netkit.Ftp.Domacro

open Netkit.Foundations

/-! ## The buffer -/

def MACBUF_SIZE : ℕ := 4096

/-- An element of `macros`; `mac_start` and `mac_end` are offsets in `macbuf`. -/
structure Macel where
  mac_name : Bytes
  mac_start : ℕ
  mac_end : ℕ

structure Space where
  macros : ℕ → Macel
  macnum : ℕ
  macbuf : Bytes

def Space.free (sp : Space) : ℕ :=
  if sp.macnum = 0 then 0 else (sp.macros (sp.macnum - 1)).mac_end + 1

/-- What comes of the loop over the lines. -/
inductive Read where
  | ends (mac_end : ℕ) (macbuf input : Bytes)
  | eof (macbuf : Bytes)
  | full (macbuf input : Bytes)
deriving DecidableEq

def readLines (mac_start : ℕ) : ℕ → Bytes → Bytes → Read
  | tmp, macbuf, [] => if tmp = MACBUF_SIZE then .full macbuf [] else .eof macbuf
  | tmp, macbuf, c :: input =>
    if tmp = MACBUF_SIZE then .full macbuf (c :: input)
    else if c = 10 then
      if tmp = mac_start then .ends tmp (macbuf.set tmp 10) input
      else if macbuf[tmp - 1]? = some 0 then .ends (tmp - 1) (macbuf.set tmp 10) input
      else readLines mac_start (tmp + 1) (macbuf.set tmp 0) input
    else readLines mac_start (tmp + 1) (macbuf.set tmp c) input

def drain : Bytes → Bytes
  | [] => []
  | c :: input =>
    if c = 10 then
      match input with
      | [] => []
      | d :: input => if d = 10 then input else drain input
    else drain input

/-- What a call of `macdef` leaves behind: the buffer, the rest of the input, `code`, and what has
been printed. -/
structure Macdef where
  space : Space
  input : Bytes
  code : Int
  out : Bytes

def macdef (interactive : Bool) (name : Bytes) (sp : Space) (input : Bytes) : Macdef :=
  if sp.macnum = 16 then
    ⟨sp, input, -1, ascii "Limit of 16 macros have already been defined\n"⟩
  else
    let prompt := if interactive then
      ascii "Enter macro line by line, terminating it with a null line\n" else []
    let element (mac_end i : ℕ) : Macel :=
      if i = sp.macnum then ⟨name.take 8, sp.free, mac_end⟩ else sp.macros i
    let unfinished := element (sp.macros sp.macnum).mac_end
    match readLines sp.free sp.free sp.macbuf input with
    | .ends mac_end macbuf input =>
      ⟨⟨element mac_end, sp.macnum + 1, macbuf⟩, input, 0, prompt⟩
    | .eof macbuf =>
      ⟨⟨unfinished, sp.macnum, macbuf⟩, [], -1,
        prompt ++ ascii "macdef:end of file encountered\n"⟩
    | .full macbuf input =>
      ⟨⟨unfinished, sp.macnum, macbuf⟩, drain input, -1,
        prompt ++ ascii "Macro not defined - 4k buffer exceeded\n"⟩

/-! ## Macros -/

def IsLine (l : Bytes) : Prop := l ≠ [] ∧ 10 ∉ l ∧ 0 ∉ l

def linesText (lines : List Bytes) : Bytes := lines.flatMap (fun l => l ++ [10])

def bodyText (lines : List Bytes) : Bytes := lines.flatMap (fun l => l ++ [0])

/-- The buffers that come from calls of `macdef`, with the names and the lines of their macros. What
is done between the calls leaves the buffer as it is, or forgets all macros. -/
inductive Defined : Space → List (Bytes × List Bytes) → Prop
  | reset {sp : Space} : sp.macbuf.length = MACBUF_SIZE → sp.macnum = 0 → Defined sp []
  | defines {sp : Space} {defs : List (Bytes × List Bytes)} {interactive : Bool}
      {name input : Bytes} {lines : List Bytes} :
      Defined sp defs → (∀ l ∈ lines, IsLine l) →
      (macdef interactive name sp (linesText lines ++ 10 :: input)).code = 0 →
        Defined (macdef interactive name sp (linesText lines ++ 10 :: input)).space
          (defs ++ [(name, lines)])
  | refused {sp : Space} {defs : List (Bytes × List Bytes)} {interactive : Bool}
      {name input : Bytes} :
      Defined sp defs → (macdef interactive name sp input).code ≠ 0 →
        Defined (macdef interactive name sp input).space defs

def Space.text (sp : Space) (i : ℕ) : Bytes :=
  (sp.macbuf.drop (sp.macros i).mac_start).take
    ((sp.macros i).mac_end + 1 - (sp.macros i).mac_start)

/-- The macro at `i` has this name and these lines. -/
structure Space.HasBody (sp : Space) (i : ℕ) (d : Bytes × List Bytes) : Prop where
  mac_name : (sp.macros i).mac_name = d.1.take 8
  line : ∀ l ∈ d.2, IsLine l
  empty : d.2 = [] → (sp.macros i).mac_end = (sp.macros i).mac_start
  text : d.2 ≠ [] → sp.text i = bodyText d.2
  mac_end : d.2 ≠ [] →
    (sp.macros i).mac_end + 1 = (sp.macros i).mac_start + (bodyText d.2).length

/-- The macros of a buffer. -/
structure Holds (sp : Space) (defs : List (Bytes × List Bytes)) : Prop where
  size : sp.macbuf.length = MACBUF_SIZE
  macnum : sp.macnum = defs.length
  free : sp.free ≤ MACBUF_SIZE
  body : ∀ i d, defs[i]? = some d → sp.HasBody i d ∧
    (sp.macros i).mac_start ≤ (sp.macros i).mac_end ∧ (sp.macros i).mac_end < sp.free

/-! ## The loop over the lines -/

def Read.macbuf : Read → Bytes
  | .ends _ macbuf _ => macbuf
  | .eof macbuf => macbuf
  | .full macbuf _ => macbuf

variable {mac_start tmp mac_end : ℕ} {macbuf input rest pre post : Bytes} {lines : List Bytes}

theorem readLines_frame (macbuf input : Bytes) (htmp : mac_start ≤ tmp) :
    (readLines mac_start tmp macbuf input).macbuf.length = macbuf.length ∧
      (readLines mac_start tmp macbuf input).macbuf.take mac_start = macbuf.take mac_start := by
  induction input generalizing tmp macbuf with
  | nil =>
    rw [readLines]
    split <;> exact ⟨rfl, rfl⟩
  | cons c input ih =>
    have hset (b : UInt8) : (macbuf.set tmp b).length = macbuf.length ∧
        (macbuf.set tmp b).take mac_start = macbuf.take mac_start :=
      ⟨List.length_set, List.take_set_of_le htmp⟩
    have hnext (b : UInt8) := ih (macbuf.set tmp b) (show mac_start ≤ tmp + 1 by omega)
    rw [readLines]
    split
    · exact ⟨rfl, rfl⟩
    · split
      · split
        · exact hset 10
        · split
          · exact hset 10
          · exact ⟨(hnext 0).1.trans (hset 0).1, (hnext 0).2.trans (hset 0).2⟩
      · exact ⟨(hnext c).1.trans (hset c).1, (hnext c).2.trans (hset c).2⟩

theorem readLines_ends (htmp : mac_start ≤ tmp) (hsize : tmp ≤ MACBUF_SIZE)
    (h : readLines mac_start tmp macbuf input = .ends mac_end post rest) :
    mac_start ≤ mac_end ∧ mac_end < MACBUF_SIZE := by
  induction input generalizing tmp macbuf with
  | nil =>
    rw [readLines] at h
    split at h <;> cases h
  | cons c input ih =>
    rw [readLines] at h
    split at h
    · cases h
    · next hfull =>
      split at h
      · split at h
        · cases h
          exact ⟨htmp, by omega⟩
        · split at h
          · cases h
            exact ⟨by omega, by omega⟩
          · exact ih (by omega) (by omega) h
      · exact ih (by omega) (by omega) h

theorem set_append_length (p c : UInt8) :
    (pre ++ p :: post).set pre.length c = (pre ++ [c]) ++ post := by
  rw [List.set_append_right pre.length c (Nat.le_refl _), Nat.sub_self, List.set_cons_zero,
    List.append_assoc, List.singleton_append]

theorem readLines_char {c : UInt8} (hc : c ≠ 10) (hsize : (pre ++ post).length = MACBUF_SIZE)
    (h : readLines mac_start pre.length (pre ++ post) (c :: input) = .ends mac_end macbuf rest) :
    ∃ post', ((pre ++ [c]) ++ post').length = MACBUF_SIZE ∧
      readLines mac_start (pre ++ [c]).length ((pre ++ [c]) ++ post') input =
        .ends mac_end macbuf rest := by
  rw [readLines] at h
  by_cases hfull : pre.length = MACBUF_SIZE
  · rw [if_pos hfull] at h
    cases h
  · rw [if_neg hfull, if_neg hc] at h
    cases post with
    | nil => exact absurd (by rwa [List.append_nil] at hsize) hfull
    | cons p post =>
      rw [set_append_length] at h
      refine ⟨post, ?_, ?_⟩
      · simp only [List.length_append, List.length_cons, List.length_nil] at hsize ⊢
        omega
      · rwa [List.length_append, List.length_singleton]

theorem readLines_text {l : Bytes} (hl : 10 ∉ l) (hsize : (pre ++ post).length = MACBUF_SIZE)
    (h : readLines mac_start pre.length (pre ++ post) (l ++ input) = .ends mac_end macbuf rest) :
    ∃ post', ((pre ++ l) ++ post').length = MACBUF_SIZE ∧
      readLines mac_start (pre ++ l).length ((pre ++ l) ++ post') input =
        .ends mac_end macbuf rest := by
  induction l generalizing pre post with
  | nil =>
    rw [List.append_nil]
    exact ⟨post, hsize, h⟩
  | cons c l ih =>
    obtain ⟨post', hsize', h'⟩ :=
      readLines_char (fun hc => hl (hc ▸ List.mem_cons_self)) hsize h
    obtain ⟨post'', hsize'', h''⟩ := ih (fun hmem => hl (List.mem_cons_of_mem c hmem)) hsize' h'
    rw [List.append_assoc pre, List.singleton_append] at hsize'' h''
    exact ⟨post'', hsize'', h''⟩

theorem readLines_lines (pre post : Bytes) (hlines : ∀ l ∈ lines, IsLine l)
    (hlast : pre.length = mac_start ∨ mac_start < pre.length ∧ pre.getLast? = some 0)
    (hsize : (pre ++ post).length = MACBUF_SIZE)
    (h : readLines mac_start pre.length (pre ++ post) (linesText lines ++ 10 :: input) =
      .ends mac_end macbuf rest) :
    rest = input ∧ (∃ tail, macbuf = (pre ++ bodyText lines) ++ tail) ∧
      mac_end = if (pre ++ bodyText lines).length = mac_start then mac_start
        else (pre ++ bodyText lines).length - 1 := by
  induction lines generalizing pre post with
  | nil =>
    have hbody : pre ++ bodyText [] = pre := List.append_nil pre
    rw [linesText, List.flatMap_nil, List.nil_append, readLines] at h
    by_cases hfull : pre.length = MACBUF_SIZE
    · rw [if_pos hfull] at h
      cases h
    · rw [if_neg hfull, if_pos rfl] at h
      cases post with
      | nil => exact absurd (by rwa [List.append_nil] at hsize) hfull
      | cons p post =>
        rw [set_append_length] at h
        rw [hbody]
        by_cases hstart : pre.length = mac_start
        · rw [if_pos hstart] at h
          cases h
          rw [if_pos hstart]
          exact ⟨rfl, ⟨10 :: post, by rw [List.append_assoc]; rfl⟩, hstart⟩
        · rw [if_neg hstart] at h
          obtain ⟨hlt, hzero⟩ := hlast.resolve_left hstart
          have hget : (pre ++ p :: post)[pre.length - 1]? = some 0 := by
            rw [List.getElem?_append_left (by omega), ← List.getLast?_eq_getElem?]
            exact hzero
          rw [if_pos hget] at h
          cases h
          rw [if_neg hstart]
          exact ⟨rfl, ⟨10 :: post, by rw [List.append_assoc]; rfl⟩, rfl⟩
  | cons l lines ih =>
    obtain ⟨hne, hnewline, hzero⟩ := hlines l List.mem_cons_self
    have htext : linesText (l :: lines) ++ 10 :: input =
        l ++ 10 :: (linesText lines ++ 10 :: input) := by
      rw [linesText, List.flatMap_cons, List.append_assoc, List.append_assoc]
      rfl
    have hbody : pre ++ bodyText (l :: lines) = ((pre ++ l) ++ [0]) ++ bodyText lines := by
      rw [bodyText, List.flatMap_cons, ← List.append_assoc, ← List.append_assoc]
      rfl
    rw [htext] at h
    obtain ⟨post', hsize', h'⟩ := readLines_text hnewline hsize h
    have hlength : 0 < l.length := List.length_pos_iff.mpr hne
    have hafter : mac_start < (pre ++ l).length := by
      rw [List.length_append]
      omega
    have hget : ((pre ++ l) ++ post')[(pre ++ l).length - 1]? ≠ some 0 := by
      rw [List.getElem?_append_left (by omega), ← List.getLast?_eq_getElem?,
        List.getLast?_append_of_ne_nil pre hne]
      exact fun hmem => hzero (List.mem_of_getLast? hmem)
    rw [readLines] at h'
    by_cases hfull : (pre ++ l).length = MACBUF_SIZE
    · rw [if_pos hfull] at h'
      cases h'
    · rw [if_neg hfull, if_pos rfl, if_neg (Nat.ne_of_gt hafter), if_neg hget] at h'
      cases post' with
      | nil => exact absurd (by rwa [List.append_nil] at hsize') hfull
      | cons p post' =>
        rw [set_append_length] at h'
        have hnext : ((pre ++ l) ++ [0]).length = (pre ++ l).length + 1 := by
          rw [List.length_append, List.length_singleton]
        rw [hbody]
        refine ih _ _ (fun l hl => hlines l (List.mem_cons_of_mem _ hl)) (Or.inr ⟨?_, ?_⟩) ?_
          (by rw [hnext]; exact h')
        · omega
        · exact List.getLast?_concat
        · simp only [List.length_append, List.length_cons, List.length_nil] at hsize' ⊢
          omega

/-! ## Every macro stays where it is -/

variable {sp sp' : Space} {i n : ℕ} {d : Bytes × List Bytes} {defs : List (Bytes × List Bytes)}

theorem Space.text_eq (hel : sp'.macros i = sp.macros i)
    (htake : sp'.macbuf.take n = sp.macbuf.take n) (hend : (sp.macros i).mac_end < n) :
    sp'.text i = sp.text i := by
  have hcut (b : Bytes) : (b.drop (sp.macros i).mac_start).take
      ((sp.macros i).mac_end + 1 - (sp.macros i).mac_start) =
        ((b.take n).drop (sp.macros i).mac_start).take
          ((sp.macros i).mac_end + 1 - (sp.macros i).mac_start) := by
    rw [List.drop_take, List.take_take, Nat.min_eq_left (by omega)]
  rw [Space.text, Space.text, hel, hcut, htake, ← hcut]

theorem Space.HasBody.keeps (h : sp.HasBody i d) (hel : sp'.macros i = sp.macros i)
    (htext : sp'.text i = sp.text i) : sp'.HasBody i d := by
  refine ⟨?_, h.line, ?_, ?_, ?_⟩
  · rw [hel]
    exact h.mac_name
  · rw [hel]
    exact h.empty
  · rw [htext]
    exact h.text
  · rw [hel]
    exact h.mac_end

theorem Holds.keeps (h : Holds sp defs) (hmacros : ∀ i < sp.macnum, sp'.macros i = sp.macros i)
    (hmacnum : sp'.macnum = sp.macnum) (hsize : sp'.macbuf.length = sp.macbuf.length)
    (htake : sp'.macbuf.take sp.free = sp.macbuf.take sp.free) : Holds sp' defs := by
  have hfree : sp'.free = sp.free := by
    unfold Space.free
    rw [hmacnum]
    split
    · rfl
    · rw [hmacros _ (by omega)]
  refine ⟨hsize.trans h.size, hmacnum.trans h.macnum, hfree ▸ h.free, fun i d hd => ?_⟩
  have hi : i < sp.macnum := h.macnum ▸ (List.getElem?_eq_some_iff.mp hd).1
  obtain ⟨hbody, hstart, hend⟩ := h.body i d hd
  rw [hmacros i hi, hfree]
  exact ⟨hbody.keeps (hmacros i hi) (Space.text_eq (hmacros i hi) htake hend), hstart, hend⟩

theorem length_bodyText_pos {l : Bytes} : 0 < (bodyText (l :: lines)).length := by
  rw [bodyText, List.flatMap_cons, List.length_append, List.length_append]
  exact Nat.lt_of_lt_of_le (Nat.succ_pos _) (Nat.le_add_right _ _)

theorem Holds.append (h : Holds sp defs) {name : Bytes} (hlines : ∀ l ∈ lines, IsLine l)
    (hread : readLines sp.free sp.free sp.macbuf (linesText lines ++ 10 :: input) =
      .ends mac_end macbuf rest)
    (hmacros : ∀ i < sp.macnum, sp'.macros i = sp.macros i)
    (hnew : sp'.macros sp.macnum = ⟨name.take 8, sp.free, mac_end⟩)
    (hmacnum : sp'.macnum = sp.macnum + 1) (hmacbuf : sp'.macbuf = macbuf) :
    Holds sp' (defs ++ [(name, lines)]) := by
  have hframe := readLines_frame sp.macbuf (linesText lines ++ 10 :: input) (Nat.le_refl sp.free)
  rw [hread, Read.macbuf, ← hmacbuf] at hframe
  obtain ⟨hsize, htake⟩ := hframe
  obtain ⟨hstart, hend⟩ := readLines_ends (Nat.le_refl _) h.free hread
  have hpre : (sp.macbuf.take sp.free).length = sp.free :=
    List.length_take_of_le (h.size ▸ h.free)
  have hstored := readLines_lines (sp.macbuf.take sp.free) (sp.macbuf.drop sp.free) hlines
    (Or.inl hpre) (by rw [List.take_append_drop]; exact h.size)
    (by rw [hpre, List.take_append_drop]; exact hread)
  obtain ⟨-, ⟨tail, htail⟩, hmac_end⟩ := hstored
  rw [List.length_append, hpre] at hmac_end
  have hfree : sp'.free = mac_end + 1 := by
    rw [Space.free, hmacnum, if_neg (by omega), Nat.add_sub_cancel, hnew]
  refine ⟨hsize.trans h.size, ?_, ?_, fun i d hd => ?_⟩
  · rw [hmacnum, h.macnum, List.length_append]
    rfl
  · rw [hfree]
    exact hend
  rw [List.getElem?_append, ← h.macnum] at hd
  split at hd
  · next hi =>
    obtain ⟨hbody, hle, hlt⟩ := h.body i d hd
    rw [hmacros i hi, hfree]
    exact ⟨hbody.keeps (hmacros i hi) (Space.text_eq (hmacros i hi) htake hlt), hle, by omega⟩
  · next hi =>
    obtain ⟨hzero, rfl⟩ : i - sp.macnum = 0 ∧ (name, lines) = d := by
      rcases hk : i - sp.macnum with _ | k
      · rw [hk] at hd
        exact ⟨rfl, Option.some.inj hd⟩
      · rw [hk] at hd
        exact absurd hd (Option.some_ne_none _).symm
    obtain rfl : i = sp.macnum := by omega
    rw [hfree, hnew]
    refine ⟨⟨by rw [hnew], hlines, fun hnil => ?_, fun hne => ?_, fun hne => ?_⟩, hstart,
      Nat.lt_succ_self _⟩
    · rw [hnew]
      rw [show lines = [] from hnil] at hmac_end
      exact hmac_end.trans (if_pos rfl)
    · obtain ⟨l, lines', rfl⟩ := List.exists_cons_of_ne_nil hne
      have hpos : 0 < (bodyText (l :: lines')).length := length_bodyText_pos
      rw [if_neg (by omega)] at hmac_end
      have hlength : mac_end + 1 - sp.free = (bodyText (l :: lines')).length := by omega
      rw [Space.text, hnew, hmacbuf, htail, List.append_assoc, List.drop_left' hpre, hlength]
      exact List.take_left' rfl
    · obtain ⟨l, lines', rfl⟩ := List.exists_cons_of_ne_nil hne
      have hpos : 0 < (bodyText (l :: lines')).length := length_bodyText_pos
      rw [if_neg (by omega)] at hmac_end
      rw [hnew]
      dsimp only
      omega

theorem Defined.holds (h : Defined sp defs) : Holds sp defs := by
  induction h with
  | @reset sp hsize hmacnum =>
    refine ⟨hsize, hmacnum, ?_, fun i d hd => absurd hd (Option.some_ne_none d).symm⟩
    rw [Space.free, if_pos hmacnum]
    exact Nat.zero_le _
  | @defines sp defs interactive name input lines _ hlines hcode ih =>
    rw [macdef] at hcode ⊢
    split at hcode
    · exact absurd (show (-1 : Int) = 0 from hcode) (by decide)
    · next hfull =>
      rw [if_neg hfull]
      dsimp only at hcode ⊢
      cases hread : readLines sp.free sp.free sp.macbuf (linesText lines ++ 10 :: input) with
      | ends mac_end macbuf rest =>
        exact ih.append hlines hread (fun i hi => if_neg (Nat.ne_of_lt hi)) (if_pos rfl) rfl rfl
      | eof macbuf =>
        rw [hread] at hcode
        exact absurd (show (-1 : Int) = 0 from hcode) (by decide)
      | full macbuf rest =>
        rw [hread] at hcode
        exact absurd (show (-1 : Int) = 0 from hcode) (by decide)
  | @refused sp defs interactive name input _ hcode ih =>
    have hframe := readLines_frame sp.macbuf input (Nat.le_refl sp.free)
    rw [macdef] at hcode ⊢
    split
    · exact ih
    · next hfull =>
      rw [if_neg hfull] at hcode
      dsimp only at hcode ⊢
      cases hread : readLines sp.free sp.free sp.macbuf input with
      | ends mac_end macbuf rest =>
        rw [hread] at hcode
        exact absurd rfl hcode
      | eof macbuf =>
        rw [hread] at hframe
        exact ih.keeps (fun i hi => if_neg (Nat.ne_of_lt hi)) rfl hframe.1 hframe.2
      | full macbuf rest =>
        rw [hread] at hframe
        exact ih.keeps (fun i hi => if_neg (Nat.ne_of_lt hi)) rfl hframe.1 hframe.2

end Netkit.Ftp.Domacro

import Mathlib.Data.List.TakeWhile
import Mathlib.Logic.Relation
import Netkit.Ftp.Netrc

/-!
# The buffers of the reader of .netrc

A token goes to `tokval`, the name of a macro to its `mac_name` and the lines of a macro to `macbuf`.
Only the last of the three loops has a bound that leaves room for all it stores.

* `netrc_stores_iff`: the files that are read within the buffers.
-/

namespace Netkit.Ftp.Ruserpass

open Netkit.Foundations

/-! ## What is written -/

/-- The first so many bytes of a buffer are written. -/
inductive Store where
  | tokval (n : ℕ)
  | macName (n : ℕ)
  | macbuf (n : ℕ)
deriving DecidableEq

/-- `char tokval[100]`, `char mac_name[9]` and `char macbuf[4096]`. -/
def Store.InBounds : Store → Prop
  | .tokval n => n ≤ 100
  | .macName n => n ≤ 9
  | .macbuf n => n ≤ MACBUF_SIZE

instance (w : Store) : Decidable w.InBounds :=
  match w with
  | .tokval n => inferInstanceAs (Decidable (n ≤ 100))
  | .macName n => inferInstanceAs (Decidable (n ≤ 9))
  | .macbuf n => inferInstanceAs (Decidable (n ≤ MACBUF_SIZE))

/-- `token`: the word and its NUL. -/
def tokenStores (input : Bytes) : ℕ :=
  match input.dropWhile isSep with
  | [] => 0
  | c :: s => (readWord c s).1.length + 1

def isspace (c : UInt8) : Bool := c = 32 || decide (9 ≤ c.toNat) && decide (c.toNat ≤ 13)

/-- The name of a macro, behind its first character, as far as the loop goes, and its NUL; at the end
of the file there is none. -/
def nameStores (s : Bytes) : ℕ :=
  let name := (s.take 8).takeWhile (fun c => !isspace c)
  if name = s ∧ name.length < 8 then name.length + 1 else name.length + 2

/-- The lines of a macro, behind the bytes of `macbuf` that are in use. -/
def bodyStores : ℕ → Bool → Bytes → ℕ
  | _, _, [] => 0
  | space, nul, c :: s =>
    if space = 0 then 0
    else if c = 10 then
      if nul then 1 else bodyStores (space - 1) true s + 1
    else bodyStores (space - 1) (c = 0) s + 1

/-- A `macdef`, behind its keyword. -/
def macroStores (m : Macros) (input : Bytes) : List Store :=
  match input.dropWhile (fun c => c = 32 || c = 9) with
  | [] => []
  | c :: s =>
    if c = 10 then []
    else if m.macnum = 16 then []
    else
      .macName (nameStores s) ::
        match s.dropWhile (fun c => c ≠ 10) with
        | [] => []
        | _ :: s =>
          [.macbuf (m.used +
            bodyStores (MACBUF_SIZE - m.used) (if m.macnum = 0 then m.before else true) s)]

/-- The keywords that `token` is called again for. -/
def takesValue (env : NetrcEnv) (s : Scan) : Kind → Bool
  | .mach => !s.isMatch && !s.usedefault
  | .login => s.isMatch
  | .passwd => s.isMatch && s.creds.aname.any (fun a => a = ascii "anonymous" || !env.exposed)
  | .account => s.isMatch && !env.exposed
  | _ => false

def stores (env : NetrcEnv) (s : Scan) : List Store :=
  .tokval (tokenStores s.input) ::
    match token s.input with
    | none => []
    | some (k, _, rest) =>
      if takesValue env s k then [.tokval (tokenStores rest)]
      else if k = .macdef ∧ s.isMatch ∧ !env.proxy then macroStores s.macros rest
      else []

/-! ## What is too long -/

/-- The text begins with `n` letters; a backslash at the end of the file is one. -/
def HasLetters (stop : UInt8 → Bool) (n : ℕ) (s : Bytes) : Prop :=
  ∃ (letters : List Letter) (tail : Bytes), s = letters.flatMap Letter.text ++ tail ∧
    (∀ l ∈ letters, l.escaped = false → stop l.byte = false ∧ l.byte ≠ 92) ∧
    (letters.length = n ∨ letters.length + 1 = n ∧ tail = [92])

def LongWord (input : Bytes) : Prop :=
  ∃ c s, input.dropWhile isSep = c :: s ∧
    if c = 34 then HasLetters (fun c => c = 34) 100 s else HasLetters isSep 99 s

def LongName (input : Bytes) : Prop :=
  ∃ c name tail, input.dropWhile (fun c => c = 32 || c = 9) = c :: (name ++ tail) ∧ c ≠ 10 ∧
    (∀ d ∈ name, isspace d = false) ∧ name.length = 8

/-- Where a round reads a word. -/
inductive WordAt (env : NetrcEnv) (s : Scan) : Bytes → Prop where
  | first : WordAt env s s.input
  | value {k : Kind} {v rest : Bytes} (htoken : token s.input = some (k, v, rest))
    (hk : takesValue env s k = true) : WordAt env s rest

/-- Where a round reads a macro. -/
inductive MacroAt (env : NetrcEnv) (s : Scan) : Bytes → Prop where
  | macdef {v rest : Bytes} (htoken : token s.input = some (.macdef, v, rest))
    (hmatch : s.isMatch = true) (hproxy : env.proxy = false) (hnum : s.macros.macnum ≠ 16) :
    MacroAt env s rest

/-- Everything that the round reads is short enough. -/
structure Short (env : NetrcEnv) (s : Scan) : Prop where
  word : ∀ input, WordAt env s input → ¬ LongWord input
  name : ∀ input, MacroAt env s input → ¬ LongName input

variable {env : NetrcEnv} {s t : Scan} {stop : UInt8 → Bool} {input text : Bytes} {c d : UInt8}
  {n : ℕ}

/-! ## Letters -/

def letterCount (stop : UInt8 → Bool) : Bytes → ℕ
  | [] => 0
  | [c] => if stop c then 0 else 1
  | c :: d :: s =>
    if stop c then 0
    else if c = 92 then letterCount stop s + 1
    else letterCount stop (d :: s) + 1

theorem quotedWord_count (text : Bytes) :
    (quotedWord text).1.length = letterCount (fun c => c = 34) text := by
  induction text using quotedWord.induct with
  | case1 => rfl
  | case2 => rfl
  | case3 => rfl
  | case4 c h h' =>
    rw [quotedWord, if_neg h, if_neg h', letterCount, if_neg (by simp [h])]
    rfl
  | case5 d s => rfl
  | case6 d s h ih =>
    rw [quotedWord, if_neg h, if_pos rfl, letterCount, if_neg (by simp [h]), if_pos rfl, ← ih]
    rfl
  | case7 c d s h h' ih =>
    rw [quotedWord, if_neg h, if_neg h', letterCount, if_neg (by simp [h]), if_neg h', ← ih]
    rfl

theorem bareWord_count (text : Bytes) : (bareWord text).1.length = letterCount isSep text := by
  induction text using bareWord.induct with
  | case1 => rfl
  | case2 c h =>
    rw [bareWord, if_pos h, letterCount, if_pos h]
    rfl
  | case3 => rfl
  | case4 c h h' =>
    rw [bareWord, if_neg h, if_neg h', letterCount, if_neg h]
    rfl
  | case5 c d s h =>
    rw [bareWord, if_pos h, letterCount, if_pos h]
    rfl
  | case6 d s h ih =>
    rw [bareWord, if_neg h, if_pos rfl, letterCount, if_neg h, if_pos rfl, ← ih]
    rfl
  | case7 c d s h h' ih =>
    rw [bareWord, if_neg h, if_neg h', letterCount, if_neg h, if_neg h', ← ih]
    rfl

theorem letterCount_plain (hstop : stop c = false) (hc : c ≠ 92) (text : Bytes) :
    letterCount stop (c :: text) = letterCount stop text + 1 := by
  cases text with
  | nil =>
    rw [letterCount]
    exact if_neg (ne_true_of_eq_false hstop)
  | cons d text => rw [letterCount, if_neg (ne_true_of_eq_false hstop), if_neg hc]

theorem letterCount_escaped (hstop : stop 92 = false) (c : UInt8) (text : Bytes) :
    letterCount stop (92 :: c :: text) = letterCount stop text + 1 := by
  rw [letterCount, if_neg (ne_true_of_eq_false hstop), if_pos rfl]

theorem hasLetters_zero (text : Bytes) : HasLetters stop 0 text :=
  ⟨[], text, rfl, fun _ hl => absurd hl List.not_mem_nil, Or.inl rfl⟩

theorem HasLetters.cons {l : Letter} (h : HasLetters stop n text)
    (hl : l.escaped = false → stop l.byte = false ∧ l.byte ≠ 92) :
    HasLetters stop (n + 1) (l.text ++ text) := by
  obtain ⟨letters, tail, rfl, hletters, hlength⟩ := h
  refine ⟨l :: letters, tail, ?_, List.forall_mem_cons.mpr ⟨hl, hletters⟩, ?_⟩
  · rw [List.flatMap_cons, List.append_assoc]
  · rw [List.length_cons]
    exact hlength.imp (congrArg (· + 1)) (And.imp_left (congrArg (· + 1)))

theorem HasLetters.of_zero (h : n ≤ 0) : HasLetters stop n text := by
  obtain rfl : n = 0 := Nat.le_zero.mp h
  exact hasLetters_zero text

theorem le_letterCount_iff (hstop : stop 92 = false) (n : ℕ) (text : Bytes) :
    n ≤ letterCount stop text ↔ HasLetters stop n text := by
  constructor
  · intro h
    induction text using letterCount.induct stop generalizing n with
    | case1 => exact .of_zero h
    | case2 c hc =>
      rw [letterCount, if_pos hc] at h
      exact .of_zero h
    | case3 c hc =>
      rw [letterCount, if_neg hc] at h
      cases n with
      | zero => exact hasLetters_zero _
      | succ n =>
        obtain rfl : n = 0 := by omega
        by_cases h92 : c = 92
        · subst h92
          exact ⟨[], [92], rfl, fun _ hl => absurd hl List.not_mem_nil, Or.inr ⟨rfl, rfl⟩⟩
        · exact (hasLetters_zero []).cons (l := ⟨false, c⟩) fun _ => ⟨eq_false_of_ne_true hc, h92⟩
    | case4 c d text hc =>
      rw [letterCount, if_pos hc] at h
      exact .of_zero h
    | case5 d text hc ih =>
      rw [letterCount_escaped hstop] at h
      cases n with
      | zero => exact hasLetters_zero _
      | succ n =>
        have hletters := ih n (Nat.le_of_succ_le_succ h)
        exact hletters.cons (l := ⟨true, d⟩) fun hl => absurd hl.symm Bool.false_ne_true
    | case6 c d text hc h92 ih =>
      rw [letterCount, if_neg hc, if_neg h92] at h
      cases n with
      | zero => exact hasLetters_zero _
      | succ n =>
        have hletters := ih n (Nat.le_of_succ_le_succ h)
        exact hletters.cons (l := ⟨false, c⟩) fun _ => ⟨eq_false_of_ne_true hc, h92⟩
  · rintro ⟨letters, tail, rfl, hletters, hlength⟩
    induction letters generalizing n with
    | nil =>
      rcases hlength with rfl | ⟨rfl, rfl⟩
      · exact Nat.zero_le _
      · rw [List.flatMap_nil, List.nil_append, letterCount, if_neg (ne_true_of_eq_false hstop)]
        exact Nat.le_of_eq rfl
    | cons l letters ih =>
      obtain ⟨hl, hrest⟩ := List.forall_mem_cons.mp hletters
      obtain ⟨m, rfl⟩ : ∃ m, n = m + 1 := by
        rcases hlength with hlength | ⟨hlength, -⟩
        · exact ⟨letters.length, hlength.symm⟩
        · exact ⟨letters.length + 1, hlength.symm⟩
      have hle := ih m hrest (hlength.imp Nat.succ.inj (And.imp_left Nat.succ.inj))
      rw [List.flatMap_cons, List.append_assoc, Letter.text]
      split
      · exact Nat.succ_le_succ hle |>.trans_eq (letterCount_escaped hstop _ _).symm
      · next hplain =>
        obtain ⟨hbyte, h92⟩ := hl (eq_false_of_ne_true hplain)
        exact Nat.succ_le_succ hle |>.trans_eq (letterCount_plain hbyte h92 _).symm

/-! ## Tokens and names -/

theorem tokenStores_le_iff : tokenStores input ≤ 100 ↔ ¬ LongWord input := by
  rw [tokenStores, LongWord]
  cases input.dropWhile isSep with
  | nil =>
    refine iff_of_true (Nat.zero_le _) ?_
    rintro ⟨c, s, hnil, -⟩
    cases hnil
  | cons c s =>
    have hlong : (∃ c' s', c :: s = c' :: s' ∧
        if c' = 34 then HasLetters (fun c => c = 34) 100 s' else HasLetters isSep 99 s') ↔
        if c = 34 then HasLetters (fun c => c = 34) 100 s else HasLetters isSep 99 s := by
      constructor
      · rintro ⟨c', s', heq, h⟩
        obtain ⟨rfl, rfl⟩ := List.cons.inj heq
        exact h
      · exact fun h => ⟨c, s, rfl, h⟩
    rw [hlong]
    dsimp only
    unfold readWord
    split
    · rw [quotedWord_count, ← le_letterCount_iff (by decide)]
      omega
    · rw [List.length_cons, bareWord_count, ← le_letterCount_iff (by decide)]
      omega

theorem nameStores_le_iff (text : Bytes) :
    nameStores text ≤ 9 ↔ ((text.take 8).takeWhile (fun c => !isspace c)).length ≠ 8 := by
  have hle := Nat.le_trans
    (List.takeWhile_prefix (fun c => !isspace c) (l := text.take 8)).length_le
    (List.length_take_le 8 text)
  rw [nameStores]
  split
  · omega
  · omega

theorem longName_iff : LongName input ↔ ∃ c s, input.dropWhile (fun c => c = 32 || c = 9) = c :: s ∧
    c ≠ 10 ∧ ((s.take 8).takeWhile (fun c => !isspace c)).length = 8 := by
  constructor
  · rintro ⟨c, name, tail, hinput, hc, hname, hlength⟩
    refine ⟨c, name ++ tail, hinput, hc, ?_⟩
    rw [← hlength, List.take_left, List.takeWhile_eq_self_iff.mpr]
    exact fun d hd => by rw [hname d hd]; rfl
  · rintro ⟨c, s, hinput, hc, hlength⟩
    have hle : (s.take 8).length ≤ 8 := List.length_take_le 8 s
    have hall : (s.take 8).takeWhile (fun c => !isspace c) = s.take 8 :=
      (List.takeWhile_prefix _).eq_of_length_le (hle.trans_eq hlength.symm)
    refine ⟨c, s.take 8, s.drop 8, by rw [List.take_append_drop, hinput], hc, ?_, hall ▸ hlength⟩
    intro d hd
    have hplain := List.takeWhile_eq_self_iff.mp hall d hd
    rwa [Bool.not_eq_true'] at hplain

/-! ## `macbuf` -/

theorem bodyStores_le (space : ℕ) (nul : Bool) (text : Bytes) :
    bodyStores space nul text ≤ space := by
  induction text generalizing space nul with
  | nil => exact Nat.zero_le _
  | cons c text ih =>
    rw [bodyStores]
    split
    · exact Nat.zero_le _
    · next hspace =>
      have h1 := ih (space - 1) true
      have h2 := ih (space - 1) (c = 0)
      split
      · split
        · omega
        · omega
      · omega

theorem readBody_lt {space : ℕ} {nul : Bool} {text : Bytes} {p : ℕ × Bytes}
    (h : readBody space nul text = some p) : p.1 < space := by
  induction text generalizing space nul p with
  | nil => cases h
  | cons c text ih =>
    have hmap {nul : Bool} (hspace : space ≠ 0)
        (h : (readBody (space - 1) nul text).map (fun p => (p.1 + 1, p.2)) = some p) :
        p.1 < space := by
      obtain ⟨q, hq, rfl⟩ := Option.map_eq_some_iff.mp h
      have hlt := ih hq
      dsimp only
      omega
    rw [readBody] at h
    split at h
    · cases h
    · next hspace =>
      split at h
      · split at h
        · obtain rfl := Option.some.inj h
          exact Nat.pos_of_ne_zero hspace
        · exact hmap hspace h
      · exact hmap hspace h

/-- The bytes in use are those of the macros, and behind the last of them there is room. -/
structure Macros.InOrder (m : Macros) : Prop where
  used : m.used < MACBUF_SIZE
  empty : m.macnum = 0 → m.used = 0

theorem readMacro_inOrder {m : Macros} {p : Macros × Bytes} (hm : m.InOrder)
    (h : readMacro m input = some p) : p.1.InOrder := by
  rw [readMacro] at h
  split at h
  · cases h
  · split at h
    · cases h
    · split at h
      · cases h
      · split at h
        · cases h
        · obtain ⟨q, hq, rfl⟩ := Option.map_eq_some_iff.mp h
          have hlt := readBody_lt hq
          have hused := hm.used
          exact ⟨by dsimp only; omega, fun hzero => absurd hzero (Nat.succ_ne_zero _)⟩

theorem macroStores_inBounds_iff {m : Macros} (hm : m.InOrder) :
    (∀ w ∈ macroStores m input, w.InBounds) ↔ (m.macnum ≠ 16 → ¬ LongName input) := by
  rw [longName_iff, macroStores]
  cases input.dropWhile (fun c => c = 32 || c = 9) with
  | nil =>
    refine iff_of_true (fun w hw => absurd hw List.not_mem_nil) ?_
    rintro - ⟨c, s, hnil, -⟩
    cases hnil
  | cons c text =>
    dsimp only
    split
    · next hc =>
      refine iff_of_true (fun w hw => absurd hw List.not_mem_nil) ?_
      rintro - ⟨c', s, heq, hc', -⟩
      exact hc' ((List.cons.inj heq).1.symm.trans hc)
    · next hc =>
      split
      · next hnum => exact iff_of_true (fun w hw => absurd hw List.not_mem_nil) fun h => absurd hnum h
      · next hnum =>
        have hlong : (∃ c' s, c :: text = c' :: s ∧ c' ≠ 10 ∧
            ((s.take 8).takeWhile (fun c => !isspace c)).length = 8) ↔
            ((text.take 8).takeWhile (fun c => !isspace c)).length = 8 := by
          constructor
          · rintro ⟨c', s, heq, -, hlength⟩
            obtain ⟨-, rfl⟩ := List.cons.inj heq
            exact hlength
          · exact fun hlength => ⟨c, text, rfl, hc, hlength⟩
        have hbody (space : ℕ) (nul : Bool) (text : Bytes) (hspace : space = MACBUF_SIZE - m.used) :
            m.used + bodyStores space nul text ≤ MACBUF_SIZE := by
          have hle := bodyStores_le space nul text
          have hused := hm.used
          omega
        rw [hlong, List.forall_mem_cons]
        constructor
        · rintro ⟨hname, -⟩ -
          exact (nameStores_le_iff text).mp hname
        · intro hname
          refine ⟨(nameStores_le_iff text).mpr (hname hnum), fun w hw => ?_⟩
          split at hw
          · cases hw
          · obtain rfl := List.mem_singleton.mp hw
            exact hbody _ _ _ rfl

/-! ## Rounds -/

def Comes (env : NetrcEnv) : Scan → Scan → Prop :=
  Relation.ReflTransGen fun s t => step env s = .ok t

theorem stores_inBounds_iff (hm : s.macros.InOrder) :
    (∀ w ∈ stores env s, w.InBounds) ↔ Short env s := by
  rw [stores, List.forall_mem_cons]
  constructor
  · rintro ⟨hfirst, hrest⟩
    constructor
    · intro input hword
      cases hword with
      | first => exact tokenStores_le_iff.mp hfirst
      | value htoken hk =>
        rw [htoken] at hrest
        dsimp only at hrest
        rw [if_pos hk] at hrest
        exact tokenStores_le_iff.mp (hrest _ List.mem_cons_self)
    · intro input hmacro
      cases hmacro with
      | macdef htoken hmatch hproxy hnum =>
        rw [htoken] at hrest
        dsimp only at hrest
        have hnone : takesValue env s .macdef = false := rfl
        rw [if_neg (ne_true_of_eq_false hnone),
          if_pos ⟨rfl, hmatch, by rw [hproxy]; rfl⟩] at hrest
        exact (macroStores_inBounds_iff hm).mp hrest hnum
  · intro h
    refine ⟨tokenStores_le_iff.mpr (h.word _ .first), fun w hw => ?_⟩
    split at hw
    · cases hw
    · next k v rest htoken =>
      split at hw
      · next hk =>
        obtain rfl := List.mem_singleton.mp hw
        exact tokenStores_le_iff.mpr (h.word _ (.value htoken hk))
      · split at hw
        · next hmacro =>
          obtain ⟨rfl, hmatch, hproxy⟩ := hmacro
          rw [Bool.not_eq_true'] at hproxy
          exact (macroStores_inBounds_iff hm).mpr
            (fun hnum => h.name _ (.macdef htoken hmatch hproxy hnum)) w hw
        · cases hw

theorem withValue_macros {rest : Bytes} {f : Bytes → Scan} (hf : ∀ v, (f v).macros = s.macros)
    (h : withValue s rest f = .ok t) : t.macros = s.macros := by
  unfold withValue at h
  split at h
  · cases h
  · cases h
    rfl
  · cases h
    exact hf _

theorem takeLogin_macros (s : Scan) (v : Bytes) : (takeLogin s v).macros = s.macros := by
  unfold takeLogin
  split
  · rfl
  · rfl

theorem handleItem_inOrder {rest : Bytes} {k : Kind} (hm : s.macros.InOrder)
    (h : handleItem env s rest k = .ok t) : t.macros.InOrder := by
  cases k with
  | eof => cases h
  | mach => cases h
  | default => cases h
  | login =>
    rw [withValue_macros (takeLogin_macros s) h]
    exact hm
  | passwd =>
    unfold handleItem at h
    dsimp only at h
    split at h
    · rw [withValue_macros (f := takePasswd s) (fun _ => rfl) h]
      exact hm
    · cases h
  | account =>
    unfold handleItem at h
    dsimp only at h
    split at h
    · cases h
    · rw [withValue_macros (f := takeAccount s) (fun _ => rfl) h]
      exact hm
  | macdef =>
    unfold handleItem at h
    dsimp only at h
    split at h
    · cases h
    · split at h
      · cases h
      · next hmacro =>
        cases h
        exact readMacro_inOrder hm hmacro
  | id =>
    cases h
    exact hm

theorem nextEntry_macros (h : nextEntry env s = .ok t) : t.macros = s.macros := by
  unfold nextEntry at h
  split at h
  · cases h
  · cases h
  · cases h
    rfl
  · split at h
    · cases h
      rfl
    · split at h
      · cases h
      · cases h
        rfl
      · cases h
        rfl
  · cases h
    rfl

theorem step_inOrder (h : step env s = .ok t) (hm : s.macros.InOrder) : t.macros.InOrder := by
  unfold step at h
  split at h
  · unfold nextItem at h
    split at h
    · cases h
    · exact handleItem_inOrder hm h
  · rw [nextEntry_macros h]
    exact hm

theorem comes_inOrder (h : Comes env s t) (hm : s.macros.InOrder) : t.macros.InOrder := by
  induction h with
  | refl => exact hm
  | tail _ hstep ih => exact step_inOrder hstep ih

theorem token_ne_none (h : ¬ LongWord input) : token input ≠ none := by
  rw [← tokenStores_le_iff, tokenStores] at h
  rw [token]
  split
  · exact Option.some_ne_none _
  · next c text htext =>
    rw [htext] at h
    rw [if_pos (show (readWord c text).1.length < 100 from h)]
    exact Option.some_ne_none _

theorem withValue_ne_overflow {rest : Bytes} {f : Bytes → Scan} (h : ¬ LongWord rest) :
    withValue s rest f ≠ .error .overflow := by
  unfold withValue
  split
  · next hnone => exact absurd hnone (token_ne_none h)
  · intro h
    cases h
  · intro h
    cases h

theorem handleItem_ne_overflow {rest v : Bytes} {k : Kind} (hmatch : s.isMatch = true)
    (hshort : Short env s) (htoken : token s.input = some (k, v, rest)) :
    handleItem env s rest k ≠ .error .overflow := by
  have hvalue (hk : takesValue env s k = true) : ¬ LongWord rest :=
    hshort.word rest (.value htoken hk)
  cases k with
  | eof => exact fun h => by cases h
  | mach => exact fun h => by cases h
  | default => exact fun h => by cases h
  | login => exact withValue_ne_overflow (hvalue hmatch)
  | passwd =>
    unfold handleItem
    dsimp only
    split
    · next hany => exact withValue_ne_overflow (hvalue (by rw [takesValue, hmatch, hany]; rfl))
    · exact fun h => by cases h
  | account =>
    unfold handleItem
    dsimp only
    split
    · exact fun h => by cases h
    · next hexposed =>
      have hfalse := eq_false_of_ne_true hexposed
      exact withValue_ne_overflow (hvalue (by rw [takesValue, hmatch, hfalse]; rfl))
  | macdef =>
    unfold handleItem
    dsimp only
    split
    · exact fun h => by cases h
    · split
      · exact fun h => by cases h
      · exact fun h => by cases h
  | id => exact fun h => by cases h

theorem step_ne_overflow (hshort : Short env s) : step env s ≠ .error .overflow := by
  have hfirst := token_ne_none (hshort.word s.input .first)
  unfold step
  split
  · next hmatch =>
    unfold nextItem
    split
    · next hnone => exact absurd hnone hfirst
    · next htoken => exact handleItem_ne_overflow hmatch hshort htoken
  · next hmatch =>
    unfold nextEntry
    split
    · next hnone => exact absurd hnone hfirst
    · exact fun h => by cases h
    · exact fun h => by cases h
    · next v rest htoken =>
      split
      · exact fun h => by cases h
      · next hdefault =>
        have hk : takesValue env s .mach = true := by
          rw [takesValue, eq_false_of_ne_true hmatch, eq_false_of_ne_true hdefault]
          rfl
        have hrest := token_ne_none (hshort.word rest (.value htoken hk))
        split
        · next hnone => exact absurd hnone hrest
        · exact fun h => by cases h
        · exact fun h => by cases h
    · exact fun h => by cases h

/-- The induction is on what is left of the file. -/
theorem comes_end (env : NetrcEnv) (s : Scan) :
    ∃ t v, Comes env s t ∧ step env t = .error v := by
  induction hn : s.input.length using Nat.strong_induction_on generalizing s with
  | _ n ih =>
    cases h : step env s with
    | error v => exact ⟨s, v, .refl, h⟩
    | ok t =>
      obtain ⟨u, v, hcomes, hend⟩ := ih t.input.length (hn ▸ step_shorter env s t h) t rfl
      exact ⟨u, v, .head h hcomes, hend⟩

def Stays (env : NetrcEnv) (s : Scan) : Prop :=
  (∀ t, Comes env s t → ∀ w ∈ stores env t, w.InBounds) ∧
    ∃ t v, Comes env s t ∧ step env t = .error v ∧ v ≠ .overflow

/-- For every file: the reader keeps within its buffers and comes to an end exactly if wherever it
comes to, the words that it reads have at most 99 characters and the names of macros at most 8. -/
theorem netrc_stores_iff (env : NetrcEnv) (macros : Macros) (given : Creds) (file : Bytes)
    (hm : macros.InOrder) : Stays env ⟨false, false, given, macros, file⟩ ↔
      ∀ t, Comes env ⟨false, false, given, macros, file⟩ t → Short env t := by
  constructor
  · rintro ⟨hstores, -⟩ t ht
    exact (stores_inBounds_iff (comes_inOrder ht hm)).mp (hstores t ht)
  · intro h
    refine ⟨fun t ht => (stores_inBounds_iff (comes_inOrder ht hm)).mpr (h t ht), ?_⟩
    obtain ⟨t, v, ht, hend⟩ := comes_end env ⟨false, false, given, macros, file⟩
    exact ⟨t, v, ht, hend, fun hv => step_ne_overflow (h t ht) (hv ▸ hend)⟩

theorem netrc_stores_login : Stays ⟨ascii "h", ascii "h", [], false, false⟩
    ⟨false, false, ⟨none, none, none⟩, ⟨0, 0, false⟩, ascii "default login u\n"⟩ := by
  have hm : Macros.InOrder ⟨0, 0, false⟩ := ⟨by decide, fun _ => rfl⟩
  refine (netrc_stores_iff _ _ _ _ hm).mpr fun t ht => ?_
  have hshort {s : Scan} (hs : s.macros = ⟨0, 0, false⟩)
      (h : (stores ⟨ascii "h", ascii "h", [], false, false⟩ s).all (fun w => w.InBounds) = true) :
      Short ⟨ascii "h", ascii "h", [], false, false⟩ s :=
    (stores_inBounds_iff (hs ▸ hm)).mp fun w hw => of_decide_eq_true (List.all_eq_true.mp h w hw)
  have hlast {s u : Scan} (hs : (step ⟨ascii "h", ascii "h", [], false, false⟩ s).isOk = false) :
      ¬ step ⟨ascii "h", ascii "h", [], false, false⟩ s = .ok u := by
    intro h
    rw [h] at hs
    cases hs
  rcases ht.cases_head with rfl | ⟨u, hu, ht⟩
  · exact hshort rfl (by decide +kernel)
  · obtain rfl : (⟨true, true, ⟨none, none, none⟩, ⟨0, 0, false⟩, ascii "login u\n"⟩ : Scan) = u :=
      Except.ok.inj ((show step _ _ = _ by decide +kernel).symm.trans hu)
    rcases ht.cases_head with rfl | ⟨u, hu, ht⟩
    · exact hshort rfl (by decide +kernel)
    · obtain rfl : (⟨true, true, ⟨some (ascii "u"), none, none⟩, ⟨0, 0, false⟩, []⟩ : Scan) = u :=
        Except.ok.inj ((show step _ _ = _ by decide +kernel).symm.trans hu)
      rcases ht.cases_head with rfl | ⟨u, hu, -⟩
      · exact hshort rfl (by decide +kernel)
      · exact absurd hu (hlast (by decide +kernel))

/-- A word of a hundred characters. -/
theorem not_netrc_stores : ¬ ∀ (env : NetrcEnv) (macros : Macros) (given : Creds) (file : Bytes),
    macros.InOrder → Stays env ⟨false, false, given, macros, file⟩ := by
  intro h
  have hm : Macros.InOrder ⟨0, 0, false⟩ := ⟨by decide, fun _ => rfl⟩
  have hstores := (h ⟨ascii "h", ascii "h", [], false, false⟩ ⟨0, 0, false⟩ ⟨none, none, none⟩
    (List.replicate 100 97) hm).1 _ .refl (.tokval 101) (by decide +kernel)
  exact absurd hstores (by decide)

end Netkit.Ftp.Ruserpass

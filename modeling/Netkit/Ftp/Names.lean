import Netkit.Foundations.Decimal

/-!
# Local names of ftp

How the settings `case`, `ntrans` and `nmap` turn the name of a file at the server into a local
one. Nothing comes out where the source writes past the end of a buffer.
-/

namespace Netkit.Ftp

open Netkit.Foundations

def PATH_MAX : Nat := 4096

/-- The settings; what the user has given for `ntrans` and `nmap` is cut to the size of the
buffers. -/
structure Settings where
  mcase : Bool
  ntflag : Bool
  ntin : Bytes
  ntout : Bytes
  mapflag : Bool
  mapin : Bytes
  mapout : Bytes
  ntout_nul : 0 ∉ ntout
  mapout_nul : 0 ∉ mapout

/-! ## `ntrans` -/

def dotrans (ntin ntout name : Bytes) : Bytes :=
  name.flatMap (fun c =>
    match (ntin.take 16).idxOf? c with
    | none => [c]
    | some i => ((ntout.take 16)[i]?).toList)

/-! ## `nmap` -/

/-- What `tp` and `te` delimit, by the digit of the token. -/
abbrev Tokens := UInt8 → Option Bytes

def Tokens.set (toks : Tokens) (d : UInt8) (t : Option Bytes) : Tokens :=
  fun e => if e = d then t else toks e

/-- The loop over `mapin`; the token that came last is forgotten when the rest does not match. -/
def matchTokens : Bytes → Bytes → Tokens → UInt8 → Tokens
  | [], _, toks, _ => toks
  | _ :: _, [], toks, _ => toks
  | [m], c :: _, toks, toknum => if m ≠ 92 ∧ m = c then toks else toks.set toknum none
  | m :: d :: mapin, c :: name, toks, toknum =>
    if m = 92 then
      if d = c then matchTokens mapin name toks toknum else toks.set toknum none
    else if m = 36 ∧ 49 ≤ d ∧ d ≤ 57 then
      match mapin with
      | [] => toks.set d (some (c :: name))
      | e :: mapin =>
        if c = e then matchTokens mapin name toks toknum
        else matchTokens mapin ((c :: name).dropWhile (fun b => b ≠ e)).tail
          (toks.set d (some ((c :: name).takeWhile (fun b => b ≠ e)))) d
    else if m = c then matchTokens (d :: mapin) name toks toknum
    else toks.set toknum none

/-- Where the loop over `mapout` is: outside brackets, at an alternative, of which a token may
come first, or behind the one that has been taken. -/
inductive Part where
  | text
  | choice (first : Bool)
  | skip
deriving DecidableEq

def emit (s : Bytes) (p : Bytes × Bool) : Bytes × Bool := (s ++ p.1, p.2)

def choiceEmit (c : UInt8) : Bytes := if c = 44 ∨ c = 93 ∨ c = 92 then [] else [c]

def choicePart (c : UInt8) : Part :=
  if c = 44 then .skip else if c = 93 then .text else .choice false

/-- The loop over `mapout`: what it writes, and whether the brackets are balanced. Behind a token
inside an alternative the digit is written, too. -/
def fill (tok : Tokens) : Part → Bytes → Bytes × Bool
  | .text, [] => ([], true)
  | .choice _, [] => ([], false)
  | .skip, [] => ([], false)
  | .text, [c] => if c = 92 then ([], true) else if c = 91 then ([], false) else ([c], true)
  | .text, c :: d :: rest =>
    if c = 92 then emit [d] (fill tok .text rest)
    else if c = 91 then fill tok (.choice true) (d :: rest)
    else if c = 36 ∧ isDigit d then emit ((tok d).getD []) (fill tok .text rest)
    else emit [c] (fill tok .text (d :: rest))
  | .choice _, [c] => emit (choiceEmit c) (fill tok (choicePart c) [])
  | .choice first, c :: d :: rest =>
    if c = 36 ∧ isDigit d then
      if first then
        match tok d, rest with
        | some t, rest => emit t (fill tok .skip rest)
        | none, [] => ([], false)
        | none, e :: rest =>
          if e = 44 then fill tok (.choice true) rest
          else if e = 93 then fill tok .text rest
          else fill tok (.choice true) (e :: rest)
      else emit ((tok d).getD []) (fill tok (.choice false) (d :: rest))
    else emit (choiceEmit c) (fill tok (choicePart c) (d :: rest))
  | .skip, [c] => if c = 93 then fill tok .text [] else fill tok .skip []
  | .skip, c :: d :: rest =>
    if c = 93 then fill tok .text (d :: rest)
    else if c = 92 then fill tok .skip rest
    else fill tok .skip (d :: rest)

/-- The map is left out when its brackets are not balanced, or when it has come to nothing. -/
def domap (mapin mapout name : Bytes) : Option Bytes :=
  let toks := matchTokens mapin name (fun _ => none) 49
  let new := fill (fun d => if d = 48 then some name else toks d) .text mapout
  if new.2 then
    if new.1.length < PATH_MAX then some (if new.1 = [] then name else new.1) else none
  else if new.1.length ≤ PATH_MAX then some name else none

/-! ## `case` -/

def islower (c : UInt8) : Bool := decide (97 ≤ c) && decide (c ≤ 122)

def isupper (c : UInt8) : Bool := decide (65 ≤ c) && decide (c ≤ 90)

/-- The copy into `tmpbuf`. -/
def lower (name : Bytes) : Bytes := name.map (fun c => if isupper c then c + 32 else c)

def stringIn (buf : Bytes) : Option Bytes := if 0 ∈ buf then some (cstring buf) else none

/-- The name is taken from `tmpbuf`, where it has been written if it has no lower-case letter. -/
def casemap (mcase : Bool) (tmpbuf cp : Bytes) : Option (Bytes × Bytes) :=
  if mcase then
    if cp.any islower then (stringIn tmpbuf).map (fun tp => (tp, tmpbuf))
    else if cp.length < PATH_MAX then
      let tmpbuf := lower cp ++ 0 :: tmpbuf.drop (cp.length + 1)
      (stringIn tmpbuf).map (fun tp => (tp, tmpbuf))
    else none
  else some (cp, tmpbuf)

def ntrans (c : Settings) (tp : Bytes) : Option Bytes :=
  if c.ntflag then
    if (dotrans c.ntin c.ntout tp).length < PATH_MAX then some (dotrans c.ntin c.ntout tp) else none
  else some tp

def nmap (c : Settings) (tp : Bytes) : Option Bytes :=
  if c.mapflag then domap c.mapin c.mapout tp else some tp

/-- `ntrans` and then `nmap`. -/
def translate (c : Settings) (tp : Bytes) : Option Bytes := (ntrans c tp).bind (nmap c)

/-! ## Strings stay strings -/

theorem not_mem_dotrans {ntin ntout name : Bytes} (hntout : 0 ∉ ntout) (hname : 0 ∉ name) :
    0 ∉ dotrans ntin ntout name := by
  intro h
  obtain ⟨c, hc, h⟩ := List.mem_flatMap.mp h
  cases hi : (ntin.take 16).idxOf? c with
  | none =>
    rw [hi] at h
    rw [List.mem_singleton.mp h] at hname
    exact hname hc
  | some i =>
    rw [hi] at h
    obtain hget := Option.mem_toList.mp h
    exact hntout (List.mem_of_mem_take (List.mem_of_getElem? hget))

def Tokens.Clean (toks : Tokens) : Prop := ∀ d t, toks d = some t → 0 ∉ t

theorem Tokens.Clean.set {toks : Tokens} (h : toks.Clean) (d : UInt8) {t : Option Bytes}
    (ht : ∀ s, t = some s → 0 ∉ s) : (toks.set d t).Clean := by
  intro e s hs
  unfold Tokens.set at hs
  split at hs
  · exact ht s hs
  · exact h e s hs

theorem matchTokens_clean {mapin name : Bytes} {toks : Tokens} {toknum : UInt8}
    (hname : 0 ∉ name) (h : toks.Clean) : (matchTokens mapin name toks toknum).Clean := by
  have hforget {toks : Tokens} (h : toks.Clean) (d : UInt8) : (toks.set d none).Clean :=
    h.set d (fun _ hs => nomatch hs)
  have htail {c : UInt8} {name : Bytes} (h : 0 ∉ c :: name) : 0 ∉ name := fun hmem =>
    h (List.mem_cons_of_mem c hmem)
  induction mapin, name, toks, toknum using matchTokens.induct with
  | case1 name toks toknum => exact h
  | case2 m mapin toks toknum => exact h
  | case3 m c name toks toknum hm =>
    rw [matchTokens, if_pos hm]
    exact h
  | case4 m c name toks toknum hm =>
    rw [matchTokens, if_neg hm]
    exact hforget h toknum
  | case5 mapin c name toks toknum ih =>
    rw [matchTokens.eq_def]
    dsimp only
    rw [if_pos rfl, if_pos rfl]
    exact ih (htail hname) h
  | case6 d mapin c name toks toknum hd =>
    rw [matchTokens.eq_def]
    dsimp only
    rw [if_pos rfl, if_neg hd]
    exact hforget h toknum
  | case7 m d c name toks toknum hm hd =>
    rw [matchTokens.eq_def]
    dsimp only
    rw [if_neg hm, if_pos hd]
    exact h.set d (fun s hs => Option.some.inj hs ▸ hname)
  | case8 m d name toks toknum hm hd e mapin ih =>
    rw [matchTokens.eq_def]
    dsimp only
    rw [if_neg hm, if_pos hd]
    rw [if_pos rfl]
    exact ih (htail hname) h
  | case9 m d c name toks toknum hm hd e mapin hc ih =>
    rw [matchTokens.eq_def]
    dsimp only
    rw [if_neg hm, if_pos hd]
    rw [if_neg hc]
    refine ih (fun hmem => hname ?_) (h.set d (fun s hs => ?_))
    · exact (List.dropWhile_suffix _).mem (List.mem_of_mem_tail hmem)
    · obtain rfl := Option.some.inj hs
      exact fun hmem => hname ((List.takeWhile_prefix _).mem hmem)
  | case10 d mapin c name toks toknum hm hd ih =>
    rw [matchTokens.eq_def]
    dsimp only
    rw [if_neg hm, if_neg hd, if_pos rfl]
    exact ih (htail hname) h
  | case11 m d mapin c name toks toknum hm hd hc =>
    rw [matchTokens.eq_def]
    dsimp only
    rw [if_neg hm, if_neg hd, if_neg hc]
    exact hforget h toknum

theorem not_mem_emit {s : Bytes} {p : Bytes × Bool} (hs : 0 ∉ s) (hp : 0 ∉ p.1) :
    0 ∉ (emit s p).1 := by
  rw [emit, List.mem_append, not_or]
  exact ⟨hs, hp⟩

theorem not_mem_choiceEmit {c : UInt8} (hc : c ≠ 0) : 0 ∉ choiceEmit c := by
  unfold choiceEmit
  split
  · exact List.not_mem_nil
  · exact fun h => hc (List.mem_singleton.mp h).symm

theorem not_mem_fill {tok : Tokens} (htok : tok.Clean) (part : Part) {mapout : Bytes}
    (hmapout : 0 ∉ mapout) : 0 ∉ (fill tok part mapout).1 := by
  have hhead {c : UInt8} {rest : Bytes} (h : 0 ∉ c :: rest) : c ≠ 0 := fun hc =>
    h (hc ▸ List.mem_cons_self)
  have htail {c : UInt8} {rest : Bytes} (h : 0 ∉ c :: rest) : 0 ∉ rest := fun hmem =>
    h (List.mem_cons_of_mem c hmem)
  have hone {c : UInt8} (hc : c ≠ 0) : (0 : UInt8) ∉ [c] := fun h =>
    hc (List.mem_singleton.mp h).symm
  have htoken (d : UInt8) : 0 ∉ (tok d).getD [] := by
    cases hd : tok d with
    | none => exact List.not_mem_nil
    | some t => exact htok d t hd
  induction part, mapout using fill.induct tok with
  | case1 => exact List.not_mem_nil
  | case2 first => exact List.not_mem_nil
  | case3 => exact List.not_mem_nil
  | case4 => exact List.not_mem_nil
  | case5 h => exact List.not_mem_nil
  | case6 c h h' =>
    rw [fill, if_neg h, if_neg h']
    exact hmapout
  | case7 d rest ih =>
    rw [fill, if_pos rfl]
    exact not_mem_emit (hone (hhead (htail hmapout))) (ih (htail (htail hmapout)))
  | case8 d rest h ih =>
    rw [fill, if_neg h, if_pos rfl]
    exact ih (htail hmapout)
  | case9 c d rest h h' hd ih =>
    rw [fill, if_neg h, if_neg h', if_pos hd]
    exact not_mem_emit (htoken d) (ih (htail (htail hmapout)))
  | case10 c d rest h h' hd ih =>
    rw [fill, if_neg h, if_neg h', if_neg hd]
    exact not_mem_emit (hone (hhead hmapout)) (ih (htail hmapout))
  | case11 first c ih =>
    rw [fill]
    exact not_mem_emit (not_mem_choiceEmit (hhead hmapout)) (ih List.not_mem_nil)
  | case12 c d hd t rest ht ih =>
    rw [fill.eq_def]
    dsimp only
    rw [if_pos hd, if_pos rfl, ht]
    exact not_mem_emit (htok d t ht) (ih (htail (htail hmapout)))
  | case13 c d hd ht =>
    rw [fill.eq_def]
    dsimp only
    rw [if_pos hd, if_pos rfl, ht]
    exact List.not_mem_nil
  | case14 c d hd rest ht ih =>
    rw [fill.eq_def]
    dsimp only
    rw [if_pos hd, if_pos rfl, ht]
    exact ih (htail (htail (htail hmapout)))
  | case15 c d hd rest ht h ih =>
    rw [fill.eq_def]
    dsimp only
    rw [if_pos hd, if_pos rfl, ht]
    exact ih (htail (htail (htail hmapout)))
  | case16 c d hd e rest ht h h' ih =>
    rw [fill.eq_def]
    dsimp only
    rw [if_pos hd, if_pos rfl, ht]
    dsimp only
    rw [if_neg h, if_neg h']
    exact ih (htail (htail hmapout))
  | case17 first c d rest hd hfirst ih =>
    rw [fill.eq_def]
    dsimp only
    rw [if_pos hd, if_neg hfirst]
    exact not_mem_emit (htoken d) (ih (htail hmapout))
  | case18 first c d rest hd ih =>
    rw [fill.eq_def]
    dsimp only
    rw [if_neg hd]
    exact not_mem_emit (not_mem_choiceEmit (hhead hmapout)) (ih (htail hmapout))
  | case19 ih => exact List.not_mem_nil
  | case20 c h ih =>
    rw [fill, if_neg h]
    exact List.not_mem_nil
  | case21 d rest ih =>
    rw [fill, if_pos rfl]
    exact ih (htail hmapout)
  | case22 d rest h ih =>
    rw [fill, if_neg h, if_pos rfl]
    exact ih (htail (htail hmapout))
  | case23 c d rest h h' ih =>
    rw [fill, if_neg h, if_neg h']
    exact ih (htail hmapout)

theorem domap_clean {mapin mapout name new : Bytes} (hmapout : 0 ∉ mapout) (hname : 0 ∉ name)
    (hnew : domap mapin mapout name = some new) : 0 ∉ new := by
  have htoks := @matchTokens_clean mapin _ (fun _ => none) 49 hname
    (fun _ _ h => nomatch h)
  have htok : Tokens.Clean (fun d => if d = 48 then some name
      else matchTokens mapin name (fun _ => none) 49 d) := by
    intro d t ht
    dsimp only at ht
    split at ht
    · exact Option.some.inj ht ▸ hname
    · exact htoks d t ht
  unfold domap at hnew
  dsimp only at hnew
  split at hnew
  · split at hnew
    · obtain rfl := Option.some.inj hnew
      split
      · exact hname
      · exact not_mem_fill htok .text hmapout
    · exact nomatch hnew
  · split at hnew
    · exact Option.some.inj hnew ▸ hname
    · exact nomatch hnew

theorem translate_clean {c : Settings} {tp s : Bytes} (htp : 0 ∉ tp) (hs : translate c tp = some s) :
    0 ∉ s := by
  obtain ⟨new, hnew, hs⟩ := Option.bind_eq_some_iff.mp hs
  have hclean : 0 ∉ new := by
    unfold ntrans at hnew
    split at hnew
    · split at hnew
      · exact Option.some.inj hnew ▸ not_mem_dotrans c.ntout_nul htp
      · exact nomatch hnew
    · exact Option.some.inj hnew ▸ htp
  unfold nmap at hs
  split at hs
  · exact domap_clean c.mapout_nul hclean hs
  · exact Option.some.inj hs ▸ hclean

theorem not_mem_lower {name : Bytes} (hname : 0 ∉ name) : 0 ∉ lower name := by
  intro h
  obtain ⟨c, hc, h⟩ := List.mem_map.mp h
  split at h
  case isTrue hup =>
    rw [isupper, Bool.and_eq_true, decide_eq_true_iff, decide_eq_true_iff] at hup
    have hlow : (65 : UInt8).toNat ≤ c.toNat := UInt8.le_iff_toNat_le.mp hup.1
    have hhigh : c.toNat ≤ (90 : UInt8).toNat := UInt8.le_iff_toNat_le.mp hup.2
    have hsum : (c + 32).toNat = 0 := by rw [h]; rfl
    rw [UInt8.toNat_add] at hsum
    simp only [UInt8.reduceToNat] at hlow hhigh hsum
    omega
  case isFalse => exact hname (h ▸ hc)

/-- What `case` makes of a name does not depend on the buffer if the name has no lower-case
letter. -/
theorem casemap_eq {mcase : Bool} {cp : Bytes}
    (hcase : mcase = true → cp.any islower = false ∧ cp.length < PATH_MAX) (hcp : 0 ∉ cp)
    (tmpbuf : Bytes) :
    ∃ buf, casemap mcase tmpbuf cp = some (if mcase then lower cp else cp, buf) := by
  unfold casemap
  cases mcase with
  | false => exact ⟨tmpbuf, rfl⟩
  | true =>
    obtain ⟨hlower, hlength⟩ := hcase rfl
    rw [if_pos rfl, hlower, if_neg Bool.false_ne_true, if_pos hlength, if_pos rfl]
    refine ⟨lower cp ++ 0 :: tmpbuf.drop (cp.length + 1), ?_⟩
    have hmem : 0 ∈ lower cp ++ 0 :: tmpbuf.drop (cp.length + 1) :=
      List.mem_append_right _ List.mem_cons_self
    dsimp only
    rw [stringIn, if_pos hmem, cstring_append (not_mem_lower hcp), cstring_zero, List.append_nil]
    rfl

end Netkit.Ftp

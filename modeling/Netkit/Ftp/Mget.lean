import Netkit.Foundations.Paths
import Netkit.Ftp.Names

/-!
# The names of mget

`mget` takes the names that the server lists, turns each into a local one and stores the file
there.

* `mget_confined_iff`: when every local name is that of a file below the current directory, and
  comes from the name it belongs to.
-/

namespace Netkit.Ftp

open Netkit.Foundations

/-! ## Protections -/

/-- `gotdots`; what has been gone through is kept in reverse. -/
def protectLoop : Int → Bytes → Bytes → Bytes
  | _, past, [] => past.reverse
  | gotdots, past, c :: rest =>
    if c = 46 ∧ 0 ≤ gotdots then protectLoop (gotdots + 1) (c :: past) rest
    else if c = slash ∧ gotdots < 0 then protectLoop 0 (c :: past) rest
    else if c = slash ∧ gotdots = 2 then protectLoop 0 (c :: 33 :: 33 :: past.drop 2) rest
    else if c = slash then protectLoop 0 (c :: past) rest
    else protectLoop (-1) (c :: past) rest

def pathprotect (name : Bytes) : Bytes := (protectLoop 0 [] (name ++ [slash])).dropLast

def pipeprotect (name : Bytes) : Bytes :=
  if name ≠ [45] ∧ name.head? ≠ some 124 ∧ name.head? ≠ some slash then name
  else 46 :: ((if name.head? = some slash then [] else [slash]) ++ name)

/-! ## The list of the server -/

def MAXPATHLEN : Nat := 4096

/-- The ends of a path that begin with a component; `here` says that one may begin. -/
def starts : Bool → Bytes → List Bytes
  | true, [] => [[]]
  | false, [] => []
  | true, c :: s => if c = slash then starts true s else (c :: s) :: starts false s
  | false, c :: s => if c = slash then starts true s else starts false s

def dotdotLoop : Bool → Bytes → Bool
  | _, [] => true
  | havedot, c :: s =>
    if c = slash then true
    else if c = 42 ∨ c = 63 then dotdotLoop havedot s
    else if c = 46 then if havedot then false else dotdotLoop true s
    else dotdotLoop havedot s

def isdotdotglob : Bytes → Bool
  | [] => false
  | c :: s => if c = 46 then dotdotLoop false s else false

def checkName (pattern name : Bytes) : Bool :=
  name.head? ≠ some 124 && (name.head? = some slash ↔ pattern.head? = some slash) &&
    (starts true name).zipIdx.all (fun p =>
      p.1.take 3 ≠ [46, 46, slash] || ((starts true pattern).map isdotdotglob).getD p.2 false)

/-- What `fgets` has read, up to the newline or the NUL. -/
def lineName (line : Bytes) : Bytes := (cstring line).takeWhile (fun c => c ≠ 10)

def checkglob (pattern file : Bytes) : Bool :=
  (starts true pattern).length ≤ MAXPATHLEN &&
    (chunks (MAXPATHLEN - 1) file []).all (fun line =>
      10 ∈ cstring line && checkName pattern (lineName line))

/-- The names, one call after the other. `lists` is what the server says to `NLST`, for each
pattern. -/
def remglob (doglob : Bool) (argv lists : List Bytes) : List Bytes :=
  if !doglob then argv.map cstring
  else if (argv.zip lists).all (fun p => checkglob p.1 p.2) then
    (chunks (PATH_MAX - 1) lists.flatten []).map lineName
  else []

/-! ## The loop -/

/-- The local name, and `tmpbuf` behind it. -/
def localName (c : Settings) (tmpbuf cp : Bytes) : Option (Bytes × Bytes) := do
  let (tp, tmpbuf) ← casemap c.mcase tmpbuf cp
  let tp ← translate c tp
  pure (pipeprotect (pathprotect tp), tmpbuf)

/-- The user: whether a name is confirmed, and whether the loop goes on behind its file. -/
structure Ask where
  confirmed : Bool
  more : Bool
deriving DecidableEq

/-- The names of the server and the local names that are passed to `recvrequest`, up to the first
one where something has been written or read past the end of a buffer. -/
def mgetLoop (c : Settings) : Bytes → List Bytes → List Ask → List (Bytes × Option Bytes)
  | _, [], _ => []
  | _, _ :: _, [] => []
  | tmpbuf, cp :: cps, a :: asks =>
    if cp = [] then []
    else if a.confirmed then
      match localName c tmpbuf cp with
      | none => [(cp, none)]
      | some (tp, tmpbuf) => (cp, some tp) :: if a.more then mgetLoop c tmpbuf cps asks else []
    else mgetLoop c tmpbuf cps asks

/-- `tmpbuf` is not initialised. -/
def mget (c : Settings) (doglob : Bool) (argv lists : List Bytes) (tmpbuf : Bytes)
    (asks : List Ask) : List (Bytes × Option Bytes) :=
  mgetLoop c tmpbuf (remglob doglob argv lists) asks

/-! ## What is wanted -/

/-- The name of a file below the current directory, and not one with another meaning. -/
structure Confined (name : Bytes) : Prop where
  nul : 0 ∉ name
  below : Below name
  minus : name ≠ [45]
  pipe : name.head? ≠ some 124

/-- The name does not come from `tmpbuf` as it was, what becomes of it fits into the buffers, and
it is more than slashes and single dots. -/
structure Kept (c : Settings) (cp : Bytes) : Prop where
  fresh : c.mcase = true → cp.any islower = false ∧ cp.length < PATH_MAX
  entry : ∃ name ∈ translate c (if c.mcase then lower cp else cp), ∃ e ∈ components name, IsName e

/-! ## No `..` is left -/

def shout (c : Bytes) : Bytes := if c = dotdot then [33, 33] else c

/-- `gotdots` behind the beginning of a component. -/
def dots (w : Bytes) : Int := if w.all (fun c => c = 46) then w.length else -1

theorem dots_dot {w : Bytes} (h : 0 ≤ dots w) : dots (w ++ [46]) = dots w + 1 := by
  unfold dots at h ⊢
  split at h
  case isTrue hall =>
    have hall' : (w ++ [46]).all (fun c => c = 46) = true := by
      rw [List.all_append, hall]
      rfl
    rw [if_pos hall', if_pos hall, List.length_append, List.length_singleton]
    rfl
  case isFalse => exact absurd h (by decide)

theorem dots_other {w : Bytes} {c : UInt8} (h : ¬ (c = 46 ∧ 0 ≤ dots w)) :
    dots (w ++ [c]) = -1 := by
  have hall : ¬ (w ++ [c]).all (fun c => c = 46) = true := by
    rw [List.all_append, Bool.and_eq_true]
    rintro ⟨hw, hc⟩
    refine h ⟨of_decide_eq_true (List.all_eq_true.mp hc c List.mem_cons_self), ?_⟩
    rw [dots, if_pos hw]
    exact Int.natCast_nonneg _
  rw [dots, if_neg hall]

theorem dots_eq_two {w : Bytes} : dots w = 2 ↔ w = dotdot := by
  constructor
  · intro h
    unfold dots at h
    split at h
    case isTrue hall =>
      have hlength : w.length = 2 := by exact_mod_cast h
      obtain ⟨a, b, rfl⟩ := List.length_eq_two.mp hlength
      have hmem := List.all_eq_true.mp hall
      rw [of_decide_eq_true (hmem a List.mem_cons_self),
        of_decide_eq_true (hmem b (List.mem_cons_of_mem a List.mem_cons_self))]
      rfl
    case isFalse => exact absurd h (by decide)
  · rintro rfl
    rfl

theorem protectLoop_slash (w done rest : Bytes) :
    protectLoop (dots w) (w.reverse ++ done) (slash :: rest) =
      protectLoop 0 (slash :: ((shout w).reverse ++ done)) rest := by
  have hdot : ¬ (slash = 46 ∧ 0 ≤ dots w) := fun h => absurd h.1 (by decide)
  rw [protectLoop, if_neg hdot]
  by_cases hw : w = dotdot
  · subst hw
    rfl
  · have htwo : ¬ (slash = slash ∧ dots w = 2) := fun h => hw (dots_eq_two.mp h.2)
    rw [shout, if_neg hw, if_neg htwo, if_pos rfl]
    split <;> rfl

/-- The loop, with the component that has been begun; the induction is on what follows. -/
theorem protectLoop_eq (s : Bytes) {w : Bytes} (hw : slash ∉ w) (done : Bytes) :
    protectLoop (dots w) (w.reverse ++ done) (s ++ [slash]) =
      done.reverse ++ (components (w ++ s)).flatMap (fun c => shout c ++ [slash]) := by
  induction s generalizing w done with
  | nil =>
    rw [List.nil_append, protectLoop_slash, List.append_nil, components_of_not_mem hw,
      List.flatMap_singleton, protectLoop, List.reverse_cons, List.reverse_append,
      List.reverse_reverse, List.append_assoc]
  | cons c s ih =>
    by_cases hc : c = slash
    · subst hc
      have h := ih (w := []) List.not_mem_nil (slash :: ((shout w).reverse ++ done))
      rw [List.cons_append, protectLoop_slash, components_append hw, List.flatMap_cons]
      change protectLoop (dots []) ([].reverse ++ _) _ = _
      rw [h, List.nil_append, List.reverse_cons, List.reverse_append, List.reverse_reverse,
        List.append_assoc, List.append_assoc, List.append_assoc]
    · have hw' : slash ∉ w ++ [c] := by
        rw [List.mem_append, List.mem_singleton, not_or]
        exact ⟨hw, fun h => hc h.symm⟩
      have h := ih hw' done
      rw [List.reverse_append, List.append_assoc, List.append_assoc] at h
      rw [List.cons_append, protectLoop]
      by_cases hdot : c = 46 ∧ 0 ≤ dots w
      · rw [if_pos hdot, ← dots_dot hdot.2, ← hdot.1]
        exact h
      · have h1 : ¬ (c = slash ∧ dots w < 0) := fun h => hc h.1
        have h2 : ¬ (c = slash ∧ dots w = 2) := fun h => hc h.1
        rw [if_neg hdot, if_neg h1, if_neg h2, if_neg hc, ← dots_other hdot]
        exact h

theorem slash_not_mem_shout {c : Bytes} (hc : slash ∉ c) : slash ∉ shout c := by
  unfold shout
  split
  · decide
  · exact hc

theorem components_pathprotect (name : Bytes) :
    components (pathprotect name) = (components name).map shout := by
  have hloop := protectLoop_eq name (w := []) List.not_mem_nil []
  have hflat : (components name).flatMap (fun c => shout c ++ [slash]) =
      ((components name).map shout).flatMap (fun c => c ++ [slash]) := by
    rw [List.flatMap_map]
  have hloop' : protectLoop 0 [] (name ++ [slash]) =
      ((components name).map shout).flatMap (fun c => c ++ [slash]) := hloop.trans hflat
  rw [pathprotect, hloop']
  refine components_flatMap (fun h => components_ne_nil name (List.map_eq_nil_iff.mp h)) ?_
  intro d hd
  obtain ⟨c, hc, rfl⟩ := List.mem_map.mp hd
  exact slash_not_mem_shout (slash_not_mem_components hc)

theorem dotdot_not_mem_pathprotect (name : Bytes) : dotdot ∉ components (pathprotect name) := by
  rw [components_pathprotect]
  intro h
  obtain ⟨c, -, hc⟩ := List.mem_map.mp h
  unfold shout at hc
  split at hc
  case isTrue => exact absurd hc (by decide)
  case isFalse hne => exact hne hc

theorem isName_shout {c : Bytes} : IsName (shout c) ↔ IsName c := by
  unfold shout
  split
  case isTrue h =>
    subst h
    decide
  case isFalse => exact Iff.rfl

theorem not_mem_protectLoop {gotdots : Int} {past rest : Bytes} (hpast : 0 ∉ past)
    (hrest : 0 ∉ rest) : 0 ∉ protectLoop gotdots past rest := by
  induction rest generalizing gotdots past with
  | nil =>
    rw [protectLoop, List.mem_reverse]
    exact hpast
  | cons c rest ih =>
    rw [List.mem_cons, not_or] at hrest
    have hcons {past : Bytes} (h : 0 ∉ past) : 0 ∉ c :: past := by
      rw [List.mem_cons, not_or]
      exact ⟨hrest.1, h⟩
    have hshout : (0 : UInt8) ∉ 33 :: 33 :: past.drop 2 := by
      rw [List.mem_cons, List.mem_cons, not_or, not_or]
      exact ⟨by decide, by decide, fun h => hpast (List.mem_of_mem_drop h)⟩
    rw [protectLoop]
    split
    · exact ih (hcons hpast) hrest.2
    · split
      · exact ih (hcons hpast) hrest.2
      · split
        · exact ih (hcons hshout) hrest.2
        · split
          · exact ih (hcons hpast) hrest.2
          · exact ih (hcons hpast) hrest.2

theorem not_mem_pathprotect {name : Bytes} (hname : 0 ∉ name) : 0 ∉ pathprotect name := by
  intro h
  refine not_mem_protectLoop List.not_mem_nil ?_ ((List.dropLast_prefix _).mem h)
  rw [List.mem_append, not_or]
  exact ⟨hname, by decide⟩

/-! ## What a name means -/

theorem components_pipeprotect (name : Bytes) :
    components (pipeprotect name) = components name ∨
      components (pipeprotect name) = dot :: components name ∨
      components name = [] :: (components (pipeprotect name)).tail ∧
        (components (pipeprotect name)).head? = some dot := by
  unfold pipeprotect
  split
  · exact Or.inl rfl
  · right
    by_cases hhead : name.head? = some slash
    · right
      obtain ⟨rest, rfl⟩ := List.head?_eq_some_iff.mp hhead
      have hcomponents : components (46 :: slash :: rest) = dot :: components rest :=
        components_append (w := [46]) (by decide) rest
      rw [if_pos hhead, List.nil_append, hcomponents, components_slash]
      exact ⟨rfl, rfl⟩
    · left
      rw [if_neg hhead]
      exact components_append (w := [46]) (by decide) name

theorem mem_components_pipeprotect {name : Bytes} {e : Bytes} (he : e ≠ []) (he' : e ≠ dot) :
    e ∈ components (pipeprotect name) ↔ e ∈ components name := by
  rcases components_pipeprotect name with h | h | ⟨h, hhead⟩
  · rw [h]
  · rw [h, List.mem_cons, or_iff_right he']
  · obtain ⟨rest, hrest⟩ := List.head?_eq_some_iff.mp hhead
    rw [h, hrest, List.tail_cons, List.mem_cons, List.mem_cons, or_iff_right he', or_iff_right he]

theorem named_pipeprotect (name : Bytes) :
    (∃ e ∈ components (pipeprotect (pathprotect name)), IsName e) ↔
      ∃ e ∈ components name, IsName e := by
  constructor
  · rintro ⟨e, he, hname⟩
    rw [mem_components_pipeprotect hname.1 hname.2, components_pathprotect] at he
    obtain ⟨c, hc, rfl⟩ := List.mem_map.mp he
    exact ⟨c, hc, isName_shout.mp hname⟩
  · rintro ⟨c, hc, hname⟩
    have hshout := isName_shout.mpr hname
    refine ⟨shout c, ?_, hshout⟩
    rw [mem_components_pipeprotect hshout.1 hshout.2, components_pathprotect]
    exact List.mem_map.mpr ⟨c, hc, rfl⟩

theorem confined_iff {name : Bytes} (hname : 0 ∉ name) :
    Confined (pipeprotect (pathprotect name)) ↔ ∃ e ∈ components name, IsName e := by
  have hdotdot : dotdot ∉ components (pipeprotect (pathprotect name)) := by
    rw [mem_components_pipeprotect (by decide) (by decide)]
    exact dotdot_not_mem_pathprotect name
  rw [← named_pipeprotect]
  constructor
  · intro h
    exact ((below_iff hdotdot).mp h.below).2
  · intro h
    have hnul := not_mem_pathprotect hname
    generalize hprotected : pathprotect name = p at h hdotdot hnul
    by_cases hplain : p ≠ [45] ∧ p.head? ≠ some 124 ∧ p.head? ≠ some slash
    · have heq : pipeprotect p = p := if_pos hplain
      rw [heq] at h hdotdot ⊢
      exact ⟨hnul, (below_iff hdotdot).mpr ⟨hplain.2.2, h⟩, hplain.1, hplain.2.1⟩
    · have heq : pipeprotect p = 46 :: ((if p.head? = some slash then [] else [slash]) ++ p) :=
        if_neg hplain
      refine ⟨?_, (below_iff hdotdot).mpr ⟨?_, h⟩, ?_, ?_⟩
      · rw [heq, List.mem_cons, List.mem_append, not_or, not_or]
        refine ⟨by decide, ?_, hnul⟩
        split <;> decide
      · rw [heq, List.head?_cons]
        decide
      · rw [heq]
        exact fun h => absurd (List.cons.inj h).1 (by decide)
      · rw [heq, List.head?_cons]
        decide

/-! ## The loop -/

def meant (c : Settings) (cp : Bytes) : Bytes :=
  pipeprotect (pathprotect ((translate c (if c.mcase then lower cp else cp)).getD []))

theorem localName_eq {c : Settings} {cp : Bytes}
    (hfresh : c.mcase = true → cp.any islower = false ∧ cp.length < PATH_MAX) (hcp : 0 ∉ cp)
    (tmpbuf : Bytes) :
    (localName c tmpbuf cp).map Prod.fst =
      (translate c (if c.mcase then lower cp else cp)).map
        (fun name => pipeprotect (pathprotect name)) := by
  obtain ⟨buf, hbuf⟩ := casemap_eq hfresh hcp tmpbuf
  rw [localName, hbuf]
  change Option.map Prod.fst ((translate c _).bind _) = _
  cases translate c (if c.mcase then lower cp else cp) <;> rfl

theorem translate_clean_cp {c : Settings} {cp name : Bytes} (hcp : 0 ∉ cp)
    (hname : translate c (if c.mcase then lower cp else cp) = some name) : 0 ∉ name := by
  refine translate_clean ?_ hname
  split
  · exact not_mem_lower hcp
  · exact hcp

theorem localName_kept {c : Settings} {cp : Bytes} (h : Kept c cp) (hcp : 0 ∉ cp)
    (tmpbuf : Bytes) :
    ∃ buf, localName c tmpbuf cp = some (meant c cp, buf) ∧ Confined (meant c cp) := by
  obtain ⟨name, hname, hentry⟩ := h.entry
  have hmeant : meant c cp = pipeprotect (pathprotect name) := by
    rw [meant, Option.mem_def.mp hname, Option.getD_some]
  have hlocal := localName_eq h.fresh hcp tmpbuf
  rw [Option.mem_def.mp hname, Option.map_some, ← hmeant] at hlocal
  obtain ⟨⟨tp, buf⟩, hp, htp⟩ := Option.map_eq_some_iff.mp hlocal
  obtain rfl : tp = meant c cp := htp
  refine ⟨buf, hp, ?_⟩
  rw [hmeant, confined_iff (translate_clean_cp hcp hname)]
  exact hentry

theorem takeWhile_name {cp : Bytes} (hcp : cp ≠ []) (cps : List Bytes) :
    (cp :: cps).takeWhile (fun cp => cp ≠ []) = cp :: cps.takeWhile (fun cp => cp ≠ []) :=
  List.takeWhile_cons_of_pos (decide_eq_true hcp)

theorem mgetLoop_kept {c : Settings} {cps : List Bytes} (hcps : ∀ cp ∈ cps, 0 ∉ cp)
    (hkept : ∀ cp ∈ cps.takeWhile (fun cp => cp ≠ []), Kept c cp) (tmpbuf : Bytes)
    (asks : List Ask) :
    ∀ p ∈ mgetLoop c tmpbuf cps asks, p.2 = some (meant c p.1) ∧ Confined (meant c p.1) := by
  induction cps generalizing tmpbuf asks with
  | nil => exact fun p hp => nomatch hp
  | cons cp cps ih =>
    cases asks with
    | nil => exact fun p hp => nomatch hp
    | cons a asks =>
      intro p hp
      rw [mgetLoop] at hp
      by_cases hempty : cp = []
      · rw [if_pos hempty] at hp
        exact nomatch hp
      rw [if_neg hempty] at hp
      rw [takeWhile_name hempty] at hkept
      have hrest (tmpbuf : Bytes) (asks : List Ask) := ih
        (fun cp hcp => hcps cp (List.mem_cons_of_mem _ hcp))
        (fun cp hcp => hkept cp (List.mem_cons_of_mem _ hcp)) tmpbuf asks
      obtain ⟨buf, hlocal, hconfined⟩ := localName_kept (hkept cp List.mem_cons_self)
        (hcps cp List.mem_cons_self) tmpbuf
      split at hp
      · rw [hlocal] at hp
        rcases List.mem_cons.mp hp with rfl | hp
        · exact ⟨rfl, hconfined⟩
        · split at hp
          · exact hrest buf asks p hp
          · exact nomatch hp
      · exact hrest tmpbuf asks p hp

theorem mgetLoop_reaches (c : Settings) {cps : List Bytes} {cp : Bytes}
    (hcp : cp ∈ cps.takeWhile (fun cp => cp ≠ [])) (tmpbuf : Bytes) :
    ∃ asks, (cp, (localName c tmpbuf cp).map Prod.fst) ∈ mgetLoop c tmpbuf cps asks := by
  induction cps with
  | nil => exact nomatch hcp
  | cons first cps ih =>
    by_cases hempty : first = []
    · subst hempty
      exact nomatch hcp
    rw [takeWhile_name hempty] at hcp
    rcases List.mem_cons.mp hcp with rfl | hcp
    · refine ⟨[⟨true, false⟩], ?_⟩
      rw [mgetLoop, if_neg hempty, if_pos rfl]
      cases localName c tmpbuf cp with
      | none => exact List.mem_cons_self
      | some p => exact List.mem_cons_self
    · obtain ⟨asks, hasks⟩ := ih hcp
      refine ⟨⟨false, false⟩ :: asks, ?_⟩
      rw [mgetLoop, if_neg hempty, if_neg Bool.false_ne_true]
      exact hasks

theorem remglob_clean {doglob : Bool} {argv lists : List Bytes} :
    ∀ cp ∈ remglob doglob argv lists, 0 ∉ cp := by
  intro cp hcp
  unfold remglob at hcp
  split at hcp
  · obtain ⟨a, -, rfl⟩ := List.mem_map.mp hcp
    exact zero_not_mem_cstring a
  · split at hcp
    · obtain ⟨line, -, rfl⟩ := List.mem_map.mp hcp
      exact fun h => zero_not_mem_cstring line ((List.takeWhile_prefix _).mem h)
    · exact nomatch hcp

theorem kept_of_confined {c : Settings} {cp : Bytes} (hcp : 0 ∉ cp) {name : Bytes}
    (hname : (localName c (List.replicate PATH_MAX 1) cp).map Prod.fst = some name)
    (hconfined : Confined name) : Kept c cp := by
  have hfresh : c.mcase = true → cp.any islower = false ∧ cp.length < PATH_MAX := by
    intro hcase
    have hnul : 0 ∉ List.replicate PATH_MAX (1 : UInt8) := fun h =>
      absurd (List.eq_of_mem_replicate h) (by decide)
    unfold localName casemap at hname
    rw [hcase, if_pos rfl] at hname
    by_cases hlower : cp.any islower = true
    · rw [if_pos hlower, stringIn, if_neg hnul] at hname
      cases hname
    · rw [if_neg hlower] at hname
      refine ⟨Bool.eq_false_iff.mpr hlower, ?_⟩
      by_contra hlength
      rw [if_neg hlength] at hname
      cases hname
  rw [localName_eq hfresh hcp] at hname
  obtain ⟨s, hs, rfl⟩ := Option.map_eq_some_iff.mp hname
  exact ⟨hfresh, s, hs, (confined_iff (translate_clean_cp hcp hs)).mp hconfined⟩

/-- **`mget` stays in the current directory**: every local name denotes a file below it, has no
other meaning and comes from the settings and its own name alone, whatever `tmpbuf` holds and
whatever the user says, exactly when all names of the list keep to the condition. -/
theorem mget_confined_iff (c : Settings) :
    ∃ own : Bytes → Bytes, ∀ (doglob : Bool) (argv lists : List Bytes),
      (∀ tmpbuf asks, tmpbuf.length = PATH_MAX →
        ∀ p ∈ mget c doglob argv lists tmpbuf asks, p.2 = some (own p.1) ∧ Confined (own p.1)) ↔
      ∀ cp ∈ (remglob doglob argv lists).takeWhile (fun cp => cp ≠ []), Kept c cp := by
  refine ⟨meant c, fun doglob argv lists => ⟨fun hown cp hcp => ?_, fun hkept => ?_⟩⟩
  · obtain ⟨asks, hasks⟩ := mgetLoop_reaches c hcp (List.replicate PATH_MAX 1)
    obtain ⟨hname, hconfined⟩ := hown _ asks List.length_replicate _ hasks
    exact kept_of_confined (remglob_clean cp ((List.takeWhile_prefix _).mem hcp)) hname hconfined
  · exact fun tmpbuf asks _ p hp => mgetLoop_kept remglob_clean hkept tmpbuf asks p hp

/-- With `case`, a name in small letters is stored under the name that came before it. -/
theorem not_mget_case :
    let c : Settings := ⟨true, false, [], [], false, [], [], List.not_mem_nil, List.not_mem_nil⟩
    ¬ ∃ own : Bytes → Bytes, ∀ tmpbuf asks, tmpbuf.length = PATH_MAX →
      ∀ p ∈ mget c true [ascii "*"] [ascii "README\nhello\n"] tmpbuf asks,
        p.2 = some (own p.1) ∧ Confined (own p.1) := by
  rintro c ⟨own, hown⟩
  have hboth : (ascii "hello", some (ascii "readme")) ∈ mget c true [ascii "*"]
      [ascii "README\nhello\n"] (List.replicate PATH_MAX 0) [⟨true, true⟩, ⟨true, true⟩] := by
    decide +kernel
  have hone : (ascii "hello", some []) ∈ mget c true [ascii "*"]
      [ascii "README\nhello\n"] (List.replicate PATH_MAX 0) [⟨false, true⟩, ⟨true, true⟩] := by
    decide +kernel
  have hreadme := (hown _ _ List.length_replicate _ hboth).1
  have hempty := (hown _ _ List.length_replicate _ hone).1
  exact absurd (hreadme.trans hempty.symm) (by decide)

end Netkit.Ftp

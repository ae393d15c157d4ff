import Netkit.Foundations.Lines

/-!
# Paths

A path is resolved component by component, with the directories that have been entered on a stack.
-/

namespace Netkit.Foundations

def slash : UInt8 := 47

def dot : Bytes := [46]

def dotdot : Bytes := [46, 46]

def components (path : Bytes) : List Bytes := path.splitOn slash

def IsName (c : Bytes) : Prop := c ≠ [] ∧ c ≠ dot

instance (c : Bytes) : Decidable (IsName c) := inferInstanceAs (Decidable (c ≠ [] ∧ c ≠ dot))

def walk : List Bytes → List Bytes → Option (List Bytes)
  | here, [] => some here
  | here, c :: cs =>
    if ¬ IsName c then walk here cs
    else if c = dotdot then
      if here = [] then none else walk here.tail cs
    else walk (c :: here) cs

def Below (path : Bytes) : Prop :=
  path.head? ≠ some slash ∧ ∃ entry up, walk [] (components path) = some (entry :: up)

theorem walk_of_no_dotdot {cs : List Bytes} (hcs : dotdot ∉ cs) (here : List Bytes) :
    walk here cs = some ((cs.filter (fun c => IsName c)).reverse ++ here) := by
  induction cs generalizing here with
  | nil => rfl
  | cons c cs ih =>
    rw [List.mem_cons, not_or] at hcs
    rw [walk]
    by_cases hc : IsName c
    · rw [if_neg (not_not.mpr hc), if_neg (fun h => hcs.1 h.symm), ih hcs.2, List.filter_cons,
        decide_eq_true hc, if_pos rfl, List.reverse_cons, List.append_assoc]
      rfl
    · rw [if_pos hc, ih hcs.2, List.filter_cons, decide_eq_false hc, if_neg Bool.false_ne_true]

/-- A path without `..` leads below the directory if it is not absolute and names an entry. -/
theorem below_iff {path : Bytes} (hpath : dotdot ∉ components path) :
    Below path ↔ path.head? ≠ some slash ∧ ∃ c ∈ components path, IsName c := by
  rw [Below, walk_of_no_dotdot hpath]
  refine and_congr_right (fun _ => ?_)
  constructor
  · rintro ⟨entry, up, h⟩
    rw [List.append_nil, Option.some.injEq] at h
    have hmem : entry ∈ (components path).filter (fun c => IsName c) := by
      rw [← List.mem_reverse, h]
      exact List.mem_cons_self
    obtain ⟨hmem, hname⟩ := List.mem_filter.mp hmem
    exact ⟨entry, hmem, of_decide_eq_true hname⟩
  · rintro ⟨c, hc, hname⟩
    have hmem : c ∈ ((components path).filter (fun c => IsName c)).reverse :=
      List.mem_reverse.mpr (List.mem_filter.mpr ⟨hc, decide_eq_true hname⟩)
    obtain ⟨entry, up, h⟩ := List.exists_cons_of_ne_nil (List.ne_nil_of_mem hmem)
    exact ⟨entry, up, by rw [h, List.append_nil]⟩

theorem components_nil : components [] = [[]] := rfl

theorem components_slash (path : Bytes) :
    components (slash :: path) = [] :: components path := by
  rw [components, List.splitOn, List.splitOnP_cons_eq_if_modifyHead,
    if_pos (beq_self_eq_true slash)]
  rfl

theorem components_cons {c : UInt8} (hc : c ≠ slash) (path : Bytes) :
    components (c :: path) = (components path).modifyHead (List.cons c) := by
  have hc' : (c == slash) = false := beq_eq_false_iff_ne.mpr hc
  rw [components, List.splitOn, List.splitOnP_cons_eq_if_modifyHead, hc',
    if_neg Bool.false_ne_true]
  rfl

theorem components_ne_nil (path : Bytes) : components path ≠ [] := List.splitOnP_ne_nil _ _

theorem components_append {w : Bytes} (hw : slash ∉ w) (path : Bytes) :
    components (w ++ slash :: path) = w :: components path := by
  induction w with
  | nil => exact components_slash path
  | cons c w ih =>
    rw [List.mem_cons, not_or] at hw
    rw [List.cons_append, components_cons (fun h => hw.1 h.symm), ih hw.2, List.modifyHead_cons]

theorem components_of_not_mem {w : Bytes} (hw : slash ∉ w) : components w = [w] := by
  induction w with
  | nil => exact components_nil
  | cons c w ih =>
    rw [List.mem_cons, not_or] at hw
    rw [components_cons (fun h => hw.1 h.symm), ih hw.2, List.modifyHead_cons]

theorem components_join (a b : Bytes) :
    components (a ++ slash :: b) = components a ++ components b := by
  induction a with
  | nil => exact components_slash b
  | cons c a ih =>
    by_cases hc : c = slash
    · subst hc
      rw [List.cons_append, components_slash, components_slash, ih]
      rfl
    · obtain ⟨e, es, hes⟩ := List.exists_cons_of_ne_nil (components_ne_nil a)
      rw [List.cons_append, components_cons hc, components_cons hc, ih, hes]
      rfl

theorem slash_not_mem_components {path c : Bytes} (h : c ∈ components path) : slash ∉ c := by
  induction path generalizing c with
  | nil =>
    rw [List.mem_singleton.mp h]
    exact List.not_mem_nil
  | cons d path ih =>
    by_cases hd : d = slash
    · subst hd
      rw [components_slash] at h
      rcases List.mem_cons.mp h with rfl | h
      · exact List.not_mem_nil
      · exact ih h
    · obtain ⟨e, es, hes⟩ := List.exists_cons_of_ne_nil (components_ne_nil path)
      rw [components_cons hd, hes, List.modifyHead_cons] at h
      rcases List.mem_cons.mp h with rfl | h
      · rw [List.mem_cons, not_or]
        exact ⟨fun h => hd h.symm, ih (hes ▸ List.mem_cons_self)⟩
      · exact ih (hes ▸ List.mem_cons_of_mem e h)

theorem components_flatMap {cs : List Bytes} (hcs : cs ≠ []) (hslash : ∀ c ∈ cs, slash ∉ c) :
    components ((cs.flatMap (fun c => c ++ [slash])).dropLast) = cs := by
  induction cs with
  | nil => exact absurd rfl hcs
  | cons c cs ih =>
    have hc := hslash c List.mem_cons_self
    cases cs with
    | nil =>
      rw [List.flatMap_singleton, List.dropLast_concat, components_of_not_mem hc]
    | cons c' cs =>
      have hne : (c' :: cs).flatMap (fun c => c ++ [slash]) ≠ [] := by
        rw [List.flatMap_cons, List.append_assoc]
        exact List.append_ne_nil_of_right_ne_nil _ (List.cons_ne_nil _ _)
      rw [List.flatMap_cons, List.dropLast_append_of_ne_nil hne, List.append_assoc,
        List.singleton_append, components_append hc,
        ih (List.cons_ne_nil _ _) (fun d hd => hslash d (List.mem_cons_of_mem c hd))]

/-! ## One path inside of another -/

/-- A path by its text: from the root or not, how many directories it goes up first, and the
names from there on. -/
structure Resolved where
  absolute : Bool
  ups : Nat
  names : List Bytes
  deriving DecidableEq

def Resolved.enter (r : Resolved) (c : Bytes) : Resolved :=
  if ¬ IsName c then r
  else if c = dotdot then
    if r.names ≠ [] then { r with names := r.names.dropLast }
    else if r.absolute then r
    else { r with ups := r.ups + 1 }
  else { r with names := r.names ++ [c] }

def resolve (path : Bytes) : Resolved :=
  (components path).foldl Resolved.enter ⟨path.head? == some slash, 0, []⟩

def Within (top path : Bytes) : Prop :=
  (resolve path).absolute = (resolve top).absolute ∧ (resolve path).ups = (resolve top).ups ∧
    (resolve top).names <+: (resolve path).names

instance (top path : Bytes) : Decidable (Within top path) := inferInstanceAs (Decidable (_ ∧ _))

example : Within [116] [116, 47, 97, 47, 46, 46, 47, 98] := by decide +kernel

example : ¬ Within [116] [116, 47, 46, 46, 47, 98] := by decide +kernel

/-! ## Paths from the root -/

def enterName (names : List Bytes) (c : Bytes) : List Bytes :=
  if ¬ IsName c then names else if c = dotdot then names.dropLast else names ++ [c]

theorem Resolved.enter_absolute (names : List Bytes) (c : Bytes) :
    Resolved.enter ⟨true, 0, names⟩ c = ⟨true, 0, enterName names c⟩ := by
  unfold Resolved.enter enterName
  split
  · rfl
  · split
    · by_cases hnames : names = []
      · subst hnames
        rfl
      · exact if_pos hnames
    · rfl

theorem foldl_enter_absolute (names cs : List Bytes) :
    cs.foldl Resolved.enter ⟨true, 0, names⟩ = ⟨true, 0, cs.foldl enterName names⟩ := by
  induction cs generalizing names with
  | nil => rfl
  | cons c cs ih => rw [List.foldl_cons, List.foldl_cons, Resolved.enter_absolute, ih]

theorem resolve_absolute {path : Bytes} (h : path.head? = some slash) :
    resolve path = ⟨true, 0, (components path).foldl enterName []⟩ := by
  rw [resolve, h, beq_self_eq_true, foldl_enter_absolute]

theorem resolve_below {dir : Bytes} (h : dir.head? = some slash) (path : Bytes) :
    resolve (dir ++ slash :: path) =
      ⟨true, 0, (components path).foldl enterName (resolve dir).names⟩ := by
  have hhead : (dir ++ slash :: path).head? = some slash := by
    rw [List.head?_append, h]
    rfl
  rw [resolve_absolute hhead, resolve_absolute h, components_join, List.foldl_append]

theorem within_absolute {top path : Bytes} (htop : top.head? = some slash) {names : List Bytes}
    (hpath : resolve path = ⟨true, 0, names⟩) :
    Within top path ↔ (resolve top).names <+: names := by
  rw [Within, hpath, resolve_absolute htop]
  exact ⟨fun h => h.2.2, fun h => ⟨rfl, rfl, h⟩⟩

theorem foldl_enterName {cs : List Bytes} (hcs : dotdot ∉ cs) (names : List Bytes) :
    cs.foldl enterName names = names ++ cs.filter (fun c => IsName c) := by
  induction cs generalizing names with
  | nil => exact (List.append_nil names).symm
  | cons c cs ih =>
    rw [List.mem_cons, not_or] at hcs
    rw [List.foldl_cons, ih hcs.2, List.filter_cons]
    unfold enterName
    by_cases hc : IsName c
    · rw [if_neg (not_not.mpr hc), if_neg (fun h => hcs.1 h.symm), if_pos (decide_eq_true hc),
        List.append_assoc]
      rfl
    · rw [if_pos hc, if_neg (fun h => hc (of_decide_eq_true h))]

theorem prefix_dropLast_iff {α : Type*} {front names : List α} (c : α) :
    front <+: names.dropLast ↔
      front <+: names ++ [c] ∧ (front = [] ∨ front.length + 2 ≤ (names ++ [c]).length) := by
  rw [List.length_append, List.length_singleton]
  constructor
  · intro h
    refine ⟨h.trans ((List.dropLast_prefix names).trans (List.prefix_append names [c])), ?_⟩
    by_cases hfront : front = []
    · exact Or.inl hfront
    · have hlength := h.length_le
      have hpos := List.length_pos_iff.mpr hfront
      rw [List.length_dropLast] at hlength
      exact Or.inr (by omega)
  · rintro ⟨h, rfl | hlength⟩
    · exact List.nil_prefix
    · refine List.prefix_of_prefix_length_le h
        ((List.dropLast_prefix names).trans (List.prefix_append names [c])) ?_
      rw [List.length_dropLast]
      omega

/-! ## Where a component stands -/

theorem eq_of_components {path c d : Bytes} {cs : List Bytes}
    (h : components path = c :: d :: cs) : ∃ rest, path = c ++ slash :: rest := by
  induction path generalizing c with
  | nil => cases h
  | cons b path ih =>
    by_cases hb : b = slash
    · subst hb
      rw [components_slash] at h
      exact ⟨path, by rw [← (List.cons.inj h).1]; rfl⟩
    · obtain ⟨e, es, hes⟩ := List.exists_cons_of_ne_nil (components_ne_nil path)
      rw [components_cons hb, hes, List.modifyHead_cons] at h
      obtain ⟨rfl, rfl⟩ := List.cons.inj h
      obtain ⟨rest, rfl⟩ := ih hes
      exact ⟨rest, rfl⟩

theorem infix_of_mem_components {path c : Bytes} (h : c ∈ (components path).tail.dropLast) :
    slash :: c ++ [slash] <:+: path := by
  induction path with
  | nil => exact absurd h List.not_mem_nil
  | cons b path ih =>
    by_cases hb : b = slash
    · subst hb
      rw [components_slash, List.tail_cons] at h
      cases hcs : components path with
      | nil => exact absurd hcs (components_ne_nil path)
      | cons d ds =>
        cases ds with
        | nil =>
          rw [hcs] at h
          exact absurd h List.not_mem_nil
        | cons e es =>
          rw [hcs, List.dropLast_cons_cons] at h
          rcases List.mem_cons.mp h with rfl | h
          · obtain ⟨rest, hrest⟩ := eq_of_components hcs
            rw [hrest]
            exact ⟨[], rest, by simp⟩
          · have htail : c ∈ (components path).tail.dropLast := by
              rw [hcs]
              exact h
            exact List.infix_cons (ih htail)
    · rw [components_cons hb, List.tail_modifyHead] at h
      exact List.infix_cons (ih h)

/-! ## The entries of a directory -/

def Resolved.entry (dir : Resolved) (c : Bytes) : Resolved := { dir with names := dir.names ++ [c] }

def Resolved.up (r : Resolved) : Resolved := { r with names := r.names.dropLast }

theorem Resolved.up_entry (dir : Resolved) (c : Bytes) : (dir.entry c).up = dir := by
  rw [Resolved.up, Resolved.entry, List.dropLast_concat]

theorem Resolved.entry_names (dir : Resolved) (c : Bytes) :
    (dir.entry c).names = dir.names ++ [c] := rfl

theorem Resolved.entry_ne (dir : Resolved) (c : Bytes) : dir.entry c ≠ dir := by
  intro h
  have hlength := congrArg (fun r => r.names.length) h
  rw [Resolved.entry_names, List.length_append, List.length_singleton] at hlength
  exact absurd hlength (Nat.succ_ne_self _)

def Resolved.Covers (top r : Resolved) : Prop :=
  r.absolute = top.absolute ∧ r.ups = top.ups ∧ top.names <+: r.names

theorem Resolved.covers_refl (r : Resolved) : r.Covers r := ⟨rfl, rfl, List.prefix_refl _⟩

theorem Resolved.Covers.trans {a b c : Resolved} (hab : a.Covers b) (hbc : b.Covers c) :
    a.Covers c :=
  ⟨hbc.1.trans hab.1, hbc.2.1.trans hab.2.1, hab.2.2.trans hbc.2.2⟩

theorem Resolved.covers_entry (dir : Resolved) (c : Bytes) : dir.Covers (dir.entry c) :=
  ⟨rfl, rfl, List.prefix_append _ _⟩

theorem Resolved.Covers.length_le {a b : Resolved} (h : a.Covers b) :
    a.names.length ≤ b.names.length := h.2.2.length_le

theorem Resolved.entry_disjoint {dir r : Resolved} {a b : Bytes} (ha : (dir.entry a).Covers r)
    (hb : (dir.entry b).Covers r) : a = b := by
  obtain ⟨x, hx⟩ := ha.2.2
  obtain ⟨y, hy⟩ := hb.2.2
  rw [Resolved.entry_names, List.append_assoc] at hx hy
  have heq := List.append_cancel_left (hx.trans hy.symm)
  exact (List.cons.inj heq).1

theorem resolve_entry {name : Bytes} (hname : IsName name) (hup : name ≠ dotdot)
    (hslash : slash ∉ name) (dir : Bytes) :
    resolve (if dir = [] then name else dir ++ slash :: name) = (resolve dir).entry name := by
  have henter (r : Resolved) : r.enter name = r.entry name := by
    rw [Resolved.enter, if_neg (not_not.mpr hname), if_neg hup]
    rfl
  cases dir with
  | nil =>
    have hhead : (name.head? == some slash) = false := by
      rw [beq_eq_false_iff_ne]
      intro hhead
      exact hslash (List.mem_of_mem_head? hhead)
    rw [if_pos rfl, resolve, components_of_not_mem hslash, hhead]
    exact henter _
  | cons c dir =>
    rw [if_neg (List.cons_ne_nil c dir), resolve, components_join, components_of_not_mem hslash,
      List.foldl_append, List.foldl_cons, List.foldl_nil, henter]
    rfl

end Netkit.Foundations

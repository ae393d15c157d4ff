import Netkit.Foundations.Paths
import Netkit.Tftp.Buffers

/-!
# The directories of tftpd

`validate_access` of `tftpd.c` compares the beginning of a name with the directories that tftpd was
started with, and looks for `..` between slashes. A directory may end in the middle of a component
of the name, and a `..` at the end of the name is not looked for.

* `access_confined_iff`: when this is so.
-/

namespace Netkit.Tftp

open Netkit.Foundations

/-! ## The tests -/

/-- `dirs`: there is a first one, and all of them are paths from the root. -/
structure Dirs where
  list : List Bytes
  ne : list ≠ []
  absolute : ∀ d ∈ list, d.head? = some slash

def MAXARG : ℕ := 4

def tftpboot : Bytes := [47, 116, 102, 116, 112, 98, 111, 111, 116]

/-- What `main` makes of its arguments. -/
def configured (args : List Bytes) (h : ∀ d ∈ args, d.head? = some slash) : Dirs :=
  if hargs : args = [] then ⟨[tftpboot], List.cons_ne_nil _ _, by simp [tftpboot, slash]⟩
  else
    { list := args.take MAXARG
      ne := fun hnil => (List.take_eq_nil_iff.mp hnil).elim (fun h => absurd h (by decide)) hargs
      absolute := fun d hd => h d (List.mem_of_mem_take hd) }

def noArguments : Dirs := configured [] (fun _ hd => absurd hd List.not_mem_nil)

def Dirs.first (dirs : Dirs) : Bytes := dirs.list.head dirs.ne

def EACCESS : ℕ := 2

/-- `../` -/
def upward : Bytes := dotdot ++ [slash]

/-- `for (cp = filename + 1; *cp; cp++)`: `/../` begins at some place. -/
def inside : Bytes → Bool
  | b :: c :: rest => (c == 46 && (slash :: upward).isPrefixOf (b :: c :: rest)) || inside (c :: rest)
  | _ => false

/-- `validate_access`, in front of `stat`: the directory to change to, if there is one. -/
def validateAccess (dirs : Dirs) (filename : Bytes) : Except ℕ (Option Bytes) :=
  let known := dirs.list.any (fun d => d.isPrefixOf filename)
  if filename.head? = some slash ∧ known = false then .error EACCESS
  else if upward.isPrefixOf filename then .error EACCESS
  else if inside filename then .error EACCESS
  else .ok (if filename.head? = some slash then none else some dirs.first)

/-- The path that `stat` and `open` get, from the root. -/
def opened (dirs : Dirs) (filename : Bytes) : Bytes :=
  if filename.head? = some slash then filename else dirs.first ++ slash :: filename

/-- A name that gets as far as `stat` is that of something in one of the directories. -/
def Confined (dirs : Dirs) (filename : Bytes) : Prop :=
  ∀ dir, validateAccess dirs filename = .ok dir → ∃ d ∈ dirs.list, Within d (opened dirs filename)

/-! ## What they let through -/

/-- The name begins with a directory or is not from the root, and has no `..` that the tests look
for. -/
structure Passes (dirs : Dirs) (filename : Bytes) : Prop where
  known : filename.head? = some slash → ∃ d ∈ dirs.list, d <+: filename
  front : ¬ upward <+: filename
  middle : ¬ slash :: upward <:+: filename

theorem inside_iff (filename : Bytes) : inside filename = true ↔ slash :: upward <:+: filename := by
  induction filename with
  | nil => exact iff_of_false Bool.false_ne_true (fun h => absurd h.length_le (by decide))
  | cons b filename ih =>
    rw [List.infix_cons_iff]
    cases filename with
    | nil =>
      refine iff_of_false Bool.false_ne_true ?_
      rintro (h | h)
      · have hlength : 4 ≤ 1 := h.length_le
        omega
      · have hlength : 4 ≤ 0 := h.length_le
        omega
    | cons c rest =>
      rw [inside, Bool.or_eq_true, ih, Bool.and_eq_true, List.isPrefixOf_iff_prefix]
      refine or_congr_left ⟨fun h => h.2, fun h => ⟨?_, h⟩⟩
      obtain ⟨hrest, -⟩ := List.cons_prefix_cons.mp (List.cons_prefix_cons.mp h).2
      exact beq_iff_eq.mpr (List.cons_prefix_cons.mp (List.cons_prefix_cons.mp h).2).1.symm

theorem validateAccess_iff (dirs : Dirs) (filename : Bytes) :
    (∃ dir, validateAccess dirs filename = .ok dir) ↔ Passes dirs filename := by
  have hknown : dirs.list.any (fun d => d.isPrefixOf filename) = false ↔
      ¬ ∃ d ∈ dirs.list, d <+: filename := by
    rw [← Bool.not_eq_true, List.any_eq_true]
    simp only [List.isPrefixOf_iff_prefix]
  unfold validateAccess
  dsimp only
  constructor
  · rintro ⟨dir, h⟩
    split at h
    · cases h
    · next hfront =>
      split at h
      · cases h
      · next hupward =>
        split at h
        · cases h
        · next hinside =>
          rw [hknown] at hfront
          rw [List.isPrefixOf_iff_prefix] at hupward
          rw [inside_iff] at hinside
          exact ⟨fun hhead => by_contra (fun hno => hfront ⟨hhead, hno⟩), hupward, hinside⟩
  · intro h
    have hfront : ¬ (filename.head? = some slash ∧
        dirs.list.any (fun d => d.isPrefixOf filename) = false) :=
      fun hno => hknown.mp hno.2 (h.known hno.1)
    refine ⟨if filename.head? = some slash then none else some dirs.first, ?_⟩
    rw [if_neg hfront, if_neg (by rw [List.isPrefixOf_iff_prefix]; exact h.front),
      if_neg (by rw [inside_iff]; exact h.middle)]

theorem Passes.dots {dirs : Dirs} {filename : Bytes} (h : Passes dirs filename) :
    dotdot ∉ (components filename).dropLast := by
  intro hmem
  cases hcs : components filename with
  | nil => exact components_ne_nil filename hcs
  | cons c cs =>
    cases cs with
    | nil =>
      rw [hcs] at hmem
      exact List.not_mem_nil hmem
    | cons d ds =>
      rw [hcs, List.dropLast_cons_cons] at hmem
      rcases List.mem_cons.mp hmem with rfl | hmem
      · obtain ⟨rest, hrest⟩ := eq_of_components hcs
        refine h.front ⟨rest, ?_⟩
        rw [hrest, upward, List.append_assoc]
        rfl
      · have htail : dotdot ∈ (components filename).tail.dropLast := by
          rw [hcs]
          exact hmem
        exact h.middle (infix_of_mem_components htail)

/-! ## Where they lead -/

def Dirs.base (dirs : Dirs) (filename : Bytes) : List Bytes :=
  if filename.head? = some slash then [] else (resolve dirs.first).names

/-- The names, with a `..` at the end. -/
def parts (dirs : Dirs) (filename : Bytes) : List Bytes :=
  dirs.base filename ++ (components filename).filter (fun c => IsName c)

/-- The directory is, component by component, the beginning of the name, and if the name ends in
`..` then there is something in between, or the directory is the root. -/
def Begins (dirs : Dirs) (filename d : Bytes) : Prop :=
  (resolve d).names <+: parts dirs filename ∧
    ((components filename).getLast? = some dotdot →
      (resolve d).names = [] ∨ (resolve d).names.length + 2 ≤ (parts dirs filename).length)

theorem resolve_opened (dirs : Dirs) (filename : Bytes) : resolve (opened dirs filename) =
    ⟨true, 0, (components filename).foldl enterName (dirs.base filename)⟩ := by
  unfold opened Dirs.base
  by_cases hhead : filename.head? = some slash
  · rw [if_pos hhead, if_pos hhead, resolve_absolute hhead]
  · rw [if_neg hhead, if_neg hhead]
    exact resolve_below (dirs.absolute _ (List.head_mem dirs.ne)) filename

theorem within_iff {dirs : Dirs} {filename d : Bytes} (h : Passes dirs filename)
    (hd : d ∈ dirs.list) : Within d (opened dirs filename) ↔ Begins dirs filename d := by
  have hdots := h.dots
  have hne := components_ne_nil filename
  rw [within_absolute (dirs.absolute d hd) (resolve_opened dirs filename)]
  unfold Begins parts
  rw [← List.dropLast_append_getLast hne, List.getLast?_concat, Option.some.injEq]
  generalize (components filename).dropLast = front at hdots
  generalize (components filename).getLast hne = last
  by_cases hlast : last = dotdot
  · subst hlast
    have hname : IsName dotdot := by decide
    have hfilter : (front ++ [dotdot]).filter (fun c => IsName c) =
        front.filter (fun c => IsName c) ++ [dotdot] := by
      rw [List.filter_append, List.filter_singleton, decide_eq_true hname]
      rfl
    have henter (names : List Bytes) : enterName names dotdot = names.dropLast := by
      rw [enterName, if_neg (not_not.mpr hname), if_pos rfl]
    rw [List.foldl_append, List.foldl_cons, List.foldl_nil, henter, foldl_enterName hdots, hfilter,
      ← List.append_assoc, prefix_dropLast_iff dotdot]
    exact and_congr_right (fun _ => ⟨fun hlength _ => hlength, fun hlength => hlength rfl⟩)
  · have hno : dotdot ∉ front ++ [last] := by
      rw [List.mem_append, List.mem_singleton]
      exact fun hmem => hmem.elim hdots (fun heq => hlast heq.symm)
    rw [foldl_enterName hno]
    exact ⟨fun hfront => ⟨hfront, fun heq => absurd heq hlast⟩, fun hfront => hfront.1⟩

/-- **tftpd serves only what is in its directories**, exactly if every name that gets through has
one of them as its beginning. -/
theorem access_confined_iff (dirs : Dirs) (filename : Bytes) : Confined dirs filename ↔
    (Passes dirs filename → ∃ d ∈ dirs.list, Begins dirs filename d) := by
  have hwithin (h : Passes dirs filename) :
      (∃ d ∈ dirs.list, Within d (opened dirs filename)) ↔
        ∃ d ∈ dirs.list, Begins dirs filename d :=
    exists_congr (fun d => and_congr_right (fun hd => within_iff h hd))
  constructor
  · intro h hpasses
    obtain ⟨dir, hdir⟩ := (validateAccess_iff dirs filename).mpr hpasses
    exact (hwithin hpasses).mp (h dir hdir)
  · intro h dir hdir
    have hpasses := (validateAccess_iff dirs filename).mp ⟨dir, hdir⟩
    exact (hwithin hpasses).mpr (h hpasses)

/-- `/tftpboot-secret/x` -/
def secret : Bytes :=
  tftpboot ++ [45, 115, 101, 99, 114, 101, 116, 47, 120]

/-- The directory ends in the middle of a component; and a name that ends in `..`. -/
theorem not_confined_secret : ¬ Confined noArguments secret ∧
    ¬ Confined noArguments (tftpboot ++ slash :: dotdot) := by
  constructor
  · intro h
    exact absurd (h none (by decide)) (by decide +kernel)
  · intro h
    exact absurd (h none (by decide)) (by decide +kernel)

end Netkit.Tftp

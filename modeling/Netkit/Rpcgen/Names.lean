import Netkit.Rpcgen.Declaration

/-!
# The buffers for names

What rpcgen does with the names of a `program`: `get_prog_declaration` has `name[10]` for the
name of an argument, `locase` has `buf[100]`, and `printit` points into `tabstr`.

* `suffice_iff`: the definitions for which all of them stay inside.
-/

namespace Netkit.Rpcgen

/-- An argument. `name` is the identifier directly behind the type; one behind a star is not
copied to `name[10]`. -/
structure Argument where
  type : Text
  name : Option Text

/-- A procedure. Between empty parentheses, `args` is empty. -/
structure Procedure where
  resType : Text
  procName : Text
  args : List Argument

structure Version where
  versNum : Text
  procs : List Procedure

structure Program where
  defName : Text
  versions : List Version

/-- The number of bytes stored in `name` or in `buf`, or the place where `tabstr` is read. -/
inductive Access where
  | name (stored : ℕ)
  | buf (stored : ℕ)
  | tabstr (index : ℤ)

def Access.Inside : Access → Prop
  | .name stored => stored ≤ 10
  | .buf stored => stored ≤ 100
  | .tabstr index => 0 ≤ index ∧ index < 6

instance : DecidablePred Access.Inside
  | .name stored => inferInstanceAs (Decidable (stored ≤ 10))
  | .buf stored => inferInstanceAs (Decidable (stored ≤ 100))
  | .tabstr index => inferInstanceAs (Decidable (0 ≤ index ∧ index < 6))

/-- `strcpy` of the given name, or `snprintf` of the default name. -/
def getProgDeclaration (arg : Argument) (num : ℕ) : Access :=
  match arg.name with
  | some str => .name (str.length + 1)
  | none => .name ((snprintf 10 ("arg".toList ++ Nat.toDigits 10 num)).length + 1)

def lowered (str : Text) : Text := str.map Char.toLower

/-- What `locase` stores, with the NUL. -/
def locase (str : Text) : Access := .buf ((lowered str).length + 1)

def makeArgname (pname vname : Text) : Text :=
  lowered pname ++ "_".toList ++ vname ++ "_".toList ++ "argument".toList

/-- `def_program`: the arguments of each procedure, and the name of the argument structure. -/
def defProgram (p : Program) : List Access :=
  p.versions.flatMap fun v => v.procs.flatMap fun proc =>
    (proc.args.zipIdx 1).map (fun a => getProgDeclaration a.1 a.2) ++ [locase proc.procName]

/-! ## Output routines -/

def stringfix (type : Text) : Text :=
  if type = "string".toList then "wrapstring".toList else type

def printit (type : Text) : Access :=
  let len : ℤ := ("\txdr_".toList ++ stringfix type ++ ",".toList).length
  let tabs := (40 - (len + (8 - 1)) + 8 - 1).tdiv 8
  .tabstr (5 - tabs)

def argType (v : Version) (proc : Procedure) : Text :=
  if 1 < proc.args.length then makeArgname proc.procName v.versNum
  else ((proc.args.head?).map Argument.type).getD "void".toList

inductive Output where
  | header (tblflag : Bool)
  | stubs
  | service
  | tables
  | sampleService
  | sampleClient
deriving DecidableEq

/-- The name of the program is changed to lower case, not only those of the procedures. -/
def Output.NamesProgram (o : Output) : Prop :=
  o ≠ .header false ∧ o ≠ .stubs ∧ o ≠ .sampleService

instance : DecidablePred Output.NamesProgram := fun o =>
  inferInstanceAs (Decidable (o ≠ .header false ∧ o ≠ .stubs ∧ o ≠ .sampleService))

/-- The accesses of an output routine. Further calls of `locase` with the same name are left
out. -/
def Output.accesses (o : Output) (p : Program) : List Access :=
  p.versions.flatMap fun v =>
    (if o.NamesProgram then [locase p.defName] else []) ++
      v.procs.flatMap fun proc => locase proc.procName ::
        if o = .tables then [printit (argType v proc), printit proc.resType] else []

/-- A run: the definitions are read, and one kind of output is made of them. -/
def rpcgen (o : Output) (defined : List Program) : List Access :=
  defined.flatMap defProgram ++ defined.flatMap o.accesses

/-! ## Names that fit -/

/-- The names of a procedure are short enough. -/
structure Procedure.Fits (o : Output) (v : Version) (proc : Procedure) : Prop where
  procName : proc.procName.length < 100
  args : ∀ arg ∈ proc.args, ∀ str ∈ arg.name, str.length < 10
  types : o = .tables → (argType v proc).length < 42 ∧ proc.resType.length < 42

def Program.Fits (o : Output) (p : Program) : Prop :=
  ∀ v ∈ p.versions, (o.NamesProgram → p.defName.length < 100) ∧ ∀ proc ∈ v.procs, proc.Fits o v

theorem locase_inside (str : Text) : (locase str).Inside ↔ str.length < 100 := by
  simp only [locase, lowered, Access.Inside, List.length_map]
  omega

theorem getProgDeclaration_inside (arg : Argument) (num : ℕ) :
    (getProgDeclaration arg num).Inside ↔ ∀ str ∈ arg.name, str.length < 10 := by
  unfold getProgDeclaration
  cases arg.name with
  | none =>
    have hlen := List.length_take_le (10 - 1) ("arg".toList ++ Nat.toDigits 10 num)
    simp only [Access.Inside, snprintf, Option.not_mem_none, false_imp_iff, implies_true, iff_true]
    omega
  | some str =>
    simp only [Access.Inside, Option.mem_some_iff, forall_eq']
    omega

theorem printit_inside (type : Text) : (printit type).Inside ↔ type.length < 42 := by
  have hfix : (stringfix type).length < 42 ↔ type.length < 42 := by
    unfold stringfix
    split
    · rename_i h
      subst h
      decide
    · rfl
  rw [← hfix]
  have hlen : ("\txdr_".toList ++ stringfix type ++ ",".toList).length =
      (stringfix type).length + 6 := by
    simp only [List.length_append]
    rw [show "\txdr_".toList.length = 5 from rfl, show ",".toList.length = 1 from rfl]
    omega
  simp only [printit, Access.Inside, hlen]
  -- the division of C goes towards zero
  have hneg : ∀ n : ℤ, n ≤ 0 → n.tdiv 8 = -(-n / 8) := by
    intro n hn
    rw [← Int.neg_neg (n.tdiv 8), ← Int.neg_tdiv, Int.tdiv_eq_ediv_of_nonneg (by omega)]
  rcases Nat.le_total (stringfix type).length 34 with h | h
  · rw [Int.tdiv_eq_ediv_of_nonneg (by omega)]
    omega
  · rw [hneg _ (by omega)]
    omega

theorem defProgram_inside (p : Program) : (∀ a ∈ defProgram p, a.Inside) ↔
    ∀ v ∈ p.versions, ∀ proc ∈ v.procs, proc.procName.length < 100 ∧
      ∀ arg ∈ proc.args, ∀ str ∈ arg.name, str.length < 10 := by
  have hargs : ∀ args : List Argument,
      (∀ a ∈ (args.zipIdx 1).map (fun a => getProgDeclaration a.1 a.2), a.Inside) ↔
        ∀ arg ∈ args, ∀ str ∈ arg.name, str.length < 10 := by
    intro args
    simp only [List.forall_mem_map, getProgDeclaration_inside]
    conv_rhs => rw [← List.zipIdx_map_fst 1 args]
    rw [List.forall_mem_map]
  simp only [defProgram, List.forall_mem_flatMap, List.forall_mem_append, hargs,
    List.forall_mem_singleton, locase_inside, and_comm]

theorem accesses_inside (o : Output) (p : Program) : (∀ a ∈ o.accesses p, a.Inside) ↔
    ∀ v ∈ p.versions, (o.NamesProgram → p.defName.length < 100) ∧
      ∀ proc ∈ v.procs, proc.procName.length < 100 ∧
        (o = .tables → (argType v proc).length < 42 ∧ proc.resType.length < 42) := by
  have hif : ∀ (c : Prop) [Decidable c] (l : List Access),
      (∀ a ∈ if c then l else [], a.Inside) ↔ (c → ∀ a ∈ l, a.Inside) := by
    intro c _ l
    split <;> simp_all
  simp only [Output.accesses, List.forall_mem_flatMap, List.forall_mem_append, hif,
    List.forall_mem_cons, locase_inside, printit_inside, List.not_mem_nil, false_imp_iff,
    implies_true, and_true]

/-- Exactly for names that are short enough, all accesses of a run stay inside. -/
theorem suffice_iff (o : Output) (defined : List Program) :
    (∀ a ∈ rpcgen o defined, a.Inside) ↔ ∀ p ∈ defined, p.Fits o := by
  simp only [rpcgen, List.forall_mem_append, List.forall_mem_flatMap, defProgram_inside,
    accesses_inside]
  constructor
  · rintro ⟨hparse, hout⟩ p hp v hv
    refine ⟨(hout p hp v hv).1, fun proc hproc => ?_⟩
    have hread := hparse p hp v hv proc hproc
    exact ⟨hread.1, hread.2, ((hout p hp v hv).2 proc hproc).2⟩
  · intro h
    refine ⟨fun p hp v hv proc hproc => ?_, fun p hp v hv => ⟨(h p hp v hv).1, ?_⟩⟩
    · have hfits := (h p hp v hv).2 proc hproc
      exact ⟨hfits.procName, hfits.args⟩
    · intro proc hproc
      have hfits := (h p hp v hv).2 proc hproc
      exact ⟨hfits.procName, hfits.types⟩

/-- An argument whose name has ten letters. -/
theorem not_suffice : ¬ ∀ (o : Output) (defined : List Program),
    ∀ a ∈ rpcgen o defined, a.Inside := by
  intro h
  have := h .stubs [⟨"P".toList, [⟨"1".toList,
    [⟨"void".toList, "F".toList, [⟨"int".toList, some "abcdefghij".toList⟩]⟩]⟩]⟩]
  revert this
  decide

end Netkit.Rpcgen

import Netkit.Ftpd.Contents

/-!
# What an upload leaves in a file

`STOR`, `APPE` and `STOU` behind a `REST`: how the file is opened, where it is positioned and what is
in it when the data have come. The mode that leaves the old contents alone is only chosen for a file
with a unique name.

* `keeps_prefix_iff`: when that is the same.
-/

namespace Netkit.Ftpd.Contents

open Netkit.Foundations Netkit.Ftpd.Data

/-! ## Files -/

/-- `"w"`, `"a"` and `"r+"`. -/
inductive OpenMode where
  | w
  | a
  | rPlus
deriving DecidableEq

/-- A file that is open: what is in it, where it is positioned, whether it can be read and whether
everything is written to its end. -/
structure Fout where
  content : Bytes
  pos : ℕ
  reads : Bool
  appends : Bool
deriving DecidableEq

/-- `fopen` of a file with these contents, or of one that is not there. -/
def fopen (mode : OpenMode) (old : Option Bytes) : Option Fout :=
  match mode with
  | .w => some ⟨[], 0, false, false⟩
  | .a => some ⟨old.getD [], 0, false, true⟩
  | .rPlus => old.map fun content => ⟨content, 0, true, false⟩

/-- `fdopen` of a file that is new, and open for reading and writing. -/
def fdopen (mode : OpenMode) : Fout := ⟨[], 0, decide (mode = .rPlus), decide (mode = .a)⟩

/-- What `getc` still gets. -/
def Fout.unread (f : Fout) : Bytes := if f.reads then f.content.drop f.pos else []

def Fout.skip (f : Fout) (n : Int) : Option Fout :=
  (skipAscii n 0 f.unread).map fun rest =>
    { f with pos := f.pos + (f.unread.length - rest.length) }

def Fout.lseek (f : Fout) (n : Int) : Option Fout :=
  if n < 0 then none else some { f with pos := n.toNat }

def Fout.write (f : Fout) (data : Bytes) : Fout :=
  if data = [] then f
  else if f.appends then { f with content := f.content ++ data }
  else
    { f with
      content := f.content.take f.pos ++ List.replicate (f.pos - f.content.length) 0 ++ data ++
        f.content.drop (f.pos + data.length)
      pos := f.pos + data.length }

def Fout.restart (f : Fout) (type : TypeCode) (restartPoint : Int) : Option Fout :=
  if restartPoint = 0 then some f
  else if type = .A then f.skip restartPoint
  else f.lseek restartPoint

/-! ## The commands -/

/-- What `receive_data` makes of the stream. -/
def received (type : TypeCode) (instr : Bytes) : Option Bytes :=
  match type with
  | .A => some (Ftp.receiveData false instr ⟨[], 0, 0⟩).outstr
  | .I | .L => some instr
  | .E => none

/-- Whether the file can be opened, whether there is a data connection, the data that come, and
whether they come to their end; and the name that `guniquefd` finds for a new file. -/
structure UploadEnv where
  opens : Bool
  conn : Bool
  instr : Bytes
  complete : Bool
  unique : Option Bytes

abbrev Files := Bytes → Option Bytes

/-- `store` behind the opening of the file: whether it answers 226, and what is in the file. -/
def storeTo (type : TypeCode) (restartPoint : Int) (env : UploadEnv) (fout : Fout) : Bool × Bytes :=
  match fout.restart type restartPoint with
  | none => (false, fout.content)
  | some fout =>
    if env.conn then
      match received type env.instr with
      | none => (false, fout.content)
      | some data => (env.complete, (fout.write data).content)
    else (false, fout.content)

/-- `store`: the answer, and the files. -/
def store (type : TypeCode) (restartPoint : Int) (env : UploadEnv) (name : Bytes) (mode : OpenMode)
    (unique : Bool) (files : Files) : Bool × Files :=
  if unique && (files name).isSome then
    match env.unique with
    | none => (false, files)
    | some new =>
      let mode := if restartPoint ≠ 0 then .rPlus else mode
      let r := storeTo type restartPoint env (fdopen mode)
      (r.1, Function.update files new (some r.2))
  else if env.opens then
    match fopen mode (files name) with
    | none => (false, files)
    | some fout =>
      let r := storeTo type restartPoint env fout
      (r.1, Function.update files name (some r.2))
  else (false, files)

def stor (type : TypeCode) (restartPoint : Int) (env : UploadEnv) (name : Bytes) (files : Files) :
    Bool × Files :=
  store type restartPoint env name .w false files

/-- Behind `REST n`, a `STOR` that succeeds leaves the first `n` bytes that a transfer of the file
would have, and the data behind them. -/
def KeepsPrefix (type : TypeCode) (old : Bytes) (n : ℕ) (instr : Bytes) : Prop :=
  ∀ (env : UploadEnv) (name : Bytes) (files : Files), env.instr = instr → files name = some old →
    (stor type n env name files).1 = true →
      ∃ front data, front <+: old ∧ sent type front = (sent type old).take n ∧
        received type instr = some data ∧ (stor type n env name files).2 name = some (front ++ data)

variable {type : TypeCode} {env : UploadEnv} {name old instr : Bytes} {files : Files} {n : ℕ}

/-! ## What is in the file -/

/-- The file that `STOR` opens. -/
def emptied : Fout := ⟨[], 0, false, false⟩

theorem stor_opens (type : TypeCode) (point : Int) (name : Bytes) (files : Files)
    (hopens : env.opens = true) :
    (stor type point env name files).1 = (storeTo type point env emptied).1 ∧
      (stor type point env name files).2 name = some (storeTo type point env emptied).2 := by
  rw [stor, store, Bool.false_and, if_neg Bool.false_ne_true, if_pos hopens]
  exact ⟨rfl, Function.update_self _ _ _⟩

theorem stor_succeeds {point : Int} (h : (stor type point env name files).1 = true) :
    (storeTo type point env emptied).1 = true ∧
      (stor type point env name files).2 name = some (storeTo type point env emptied).2 := by
  have hopens : env.opens = true := by
    rw [stor, store, Bool.false_and, if_neg Bool.false_ne_true] at h
    by_contra hopens
    rw [if_neg hopens] at h
    cases h
  obtain ⟨hanswer, hcontent⟩ := stor_opens type point name files hopens
  exact ⟨hanswer ▸ h, hcontent⟩

theorem emptied_skip (hn : 0 < n) : emptied.restart .A n = none := by
  have hne : (n : Int) ≠ 0 := Int.natCast_ne_zero.mpr hn.ne'
  have hskip : skipAscii n 0 [] = none := if_pos (Int.natCast_pos.mpr hn)
  rw [Fout.restart, if_neg hne, if_pos rfl, Fout.skip]
  exact congrArg (Option.map _) hskip

theorem emptied_lseek (htype : type ≠ .A) :
    emptied.restart type n = some ⟨[], n, false, false⟩ := by
  rw [Fout.restart, if_neg htype]
  split
  · next hzero =>
    obtain rfl := Int.natCast_eq_zero.mp hzero
    rfl
  · rw [Fout.lseek, if_neg (Int.natCast_nonneg n).not_gt, Int.toNat_natCast]
    rfl

theorem emptied_write (data : Bytes) :
    (Fout.write ⟨[], n, false, false⟩ data).content =
      if data = [] then [] else List.replicate n 0 ++ data := by
  rw [Fout.write]
  split
  · rfl
  · show ([] : Bytes).take n ++ List.replicate (n - 0) 0 ++ data ++ ([] : Bytes).drop _ = _
    rw [List.take_nil, List.drop_nil, List.nil_append, List.append_nil, Nat.sub_zero]

/-- In TYPE A, a `STOR` behind a `REST` is refused, and the file is left empty. -/
theorem storeTo_ascii (hn : 0 < n) : storeTo .A n env emptied = (false, []) := by
  rw [storeTo, emptied_skip hn]
  rfl

theorem storeTo_binary {data : Bytes} (hconn : env.conn = true)
    (hrestart : emptied.restart type n = some ⟨[], n, false, false⟩)
    (hdata : received type env.instr = some data) :
    storeTo type n env emptied =
      (env.complete, if data = [] then [] else List.replicate n 0 ++ data) := by
  rw [storeTo, hrestart]
  dsimp only
  rw [if_pos hconn, hdata]
  exact congrArg (Prod.mk env.complete) (emptied_write data)

theorem storeTo_conn {fout : Fout} {point : Int} (h : (storeTo type point env fout).1 = true) :
    env.conn = true := by
  by_contra hconn
  rw [storeTo] at h
  split at h
  · cases h
  · rw [if_neg hconn] at h
    cases h

/-! ## The restart point -/

theorem sent_binary (htype : type ≠ .A) (file : Bytes) : sent type file = file := if_neg htype

theorem received_some (htype : type ≠ .E) (instr : Bytes) : ∃ data, received type instr = some data := by
  cases type with
  | E => exact absurd rfl htype
  | _ => exact ⟨_, rfl⟩

theorem keepsPrefix_zero (htype : type ≠ .E) : KeepsPrefix type old 0 instr := by
  rintro env name files rfl hold hok
  obtain ⟨data, hdata⟩ := received_some htype env.instr
  obtain ⟨hanswer, hcontent⟩ := stor_succeeds hok
  have hrestart : emptied.restart type (0 : ℕ) = some ⟨[], 0, false, false⟩ := if_pos rfl
  rw [storeTo_binary (storeTo_conn hanswer) hrestart hdata] at hcontent
  refine ⟨[], data, List.nil_prefix, ?_, hdata, hcontent.trans ?_⟩
  · rw [List.take_zero]
    unfold sent
    split <;> rfl
  · dsimp only
    split
    · next hnil =>
      rw [hnil]
      rfl
    · rfl

theorem keepsPrefix_ascii (hn : 0 < n) : KeepsPrefix .A old n instr := by
  intro env name files hinstr hold hok
  have hanswer := (stor_succeeds hok).1
  rw [storeTo_ascii hn] at hanswer
  cases hanswer

theorem keepsPrefix_binary (htype : type = .I ∨ type = .L) (hn : 0 < n) (hlength : n ≤ old.length) :
    KeepsPrefix type old n instr ↔ old.take n = List.replicate n 0 ∧ instr ≠ [] := by
  have hA : type ≠ .A := by
    rintro rfl
    rcases htype with h | h <;> cases h
  have hdata (instr : Bytes) : received type instr = some instr := by
    rcases htype with rfl | rfl <;> rfl
  constructor
  · intro h
    let env : UploadEnv := ⟨true, true, instr, true, none⟩
    have hstored := storeTo_binary (rfl : env.conn = true) (emptied_lseek hA (n := n)) (hdata instr)
    obtain ⟨hanswer, hcontent⟩ :=
      stor_opens type n [] (fun _ => some old) (rfl : env.opens = true)
    rw [hstored] at hanswer hcontent
    obtain ⟨front, data, -, hfront, hreceived, hkept⟩ := h env [] (fun _ => some old) rfl rfl hanswer
    obtain rfl := Option.some.inj (hreceived.symm.trans (hdata instr))
    rw [sent_binary hA, sent_binary hA] at hfront
    subst hfront
    have heq := Option.some.inj (hcontent.symm.trans hkept)
    dsimp only at heq
    split at heq
    · have hlen := congrArg List.length heq
      rw [List.length_nil, List.length_append, List.length_take] at hlen
      omega
    · next hne => exact ⟨(List.append_cancel_right heq).symm, hne⟩
  · rintro ⟨hzeros, hne⟩ env name files rfl hold hok
    obtain ⟨hanswer, hcontent⟩ := stor_succeeds hok
    rw [storeTo_binary (storeTo_conn hanswer) (emptied_lseek hA) (hdata env.instr), if_neg hne,
      ← hzeros] at hcontent
    refine ⟨old.take n, env.instr, List.take_prefix _ _, ?_, hdata env.instr, hcontent⟩
    rw [sent_binary hA, sent_binary hA]

/-- **What is in front of the restart point stays**, exactly if there is nothing in front of it, or
the `STOR` is refused because of TYPE A, or what is in front of it are NULs and there are data. -/
theorem keeps_prefix_iff (htype : type ≠ .E) (hn : n ≤ (sent type old).length) :
    KeepsPrefix type old n instr ↔
      n = 0 ∨ type = .A ∨ old.take n = List.replicate n 0 ∧ instr ≠ [] := by
  rcases Nat.eq_zero_or_pos n with rfl | hpos
  · exact iff_of_true (keepsPrefix_zero htype) (Or.inl rfl)
  · rw [or_iff_right hpos.ne']
    by_cases hA : type = .A
    · subst hA
      exact iff_of_true (keepsPrefix_ascii hpos) (Or.inl rfl)
    · rw [or_iff_right hA]
      rw [sent_binary hA] at hn
      refine keepsPrefix_binary ?_ hpos hn
      cases type with
      | A => exact absurd rfl hA
      | E => exact absurd rfl htype
      | I => exact Or.inl rfl
      | L => exact Or.inr rfl

/-- A file that begins with a NUL. -/
theorem keeps_prefix_zeros : KeepsPrefix .I [0, 97] 1 [98] :=
  (keeps_prefix_iff (by decide) (by decide)).mpr (Or.inr (Or.inr ⟨rfl, by decide⟩))

/-- Two letters are gone. -/
theorem not_keeps_prefix : ¬ ∀ type old n instr, type = .A ∨ type = .I → n ≤ (sent type old).length →
    KeepsPrefix type old n instr := by
  intro h
  obtain ⟨front, data, -, hfront, hdata, hcontent⟩ :=
    h .I [97, 98, 99] 2 [100] (Or.inr rfl) (by decide) ⟨true, true, [100], true, none⟩ []
      (fun _ => some [97, 98, 99]) rfl rfl rfl
  have hstored : (stor .I 2 ⟨true, true, [100], true, none⟩ [] fun _ => some [97, 98, 99]).2 [] =
      some [0, 0, 100] := by decide
  obtain rfl : front = [97, 98] := hfront
  obtain rfl : [100] = data := Option.some.inj hdata
  exact absurd (hstored.symm.trans hcontent) (by decide)

end Netkit.Ftpd.Contents

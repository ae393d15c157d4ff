import Netkit.Foundations.Lines

/-!
# The database of bootparamd

`get_bootparam_line` and `get_bootparam_entry` of `rpc.bootparamd.c`. A line that ends in a
backslash goes on in the next one; what is read has to fit in a buffer of 8192 bytes. The words
of a line are the name of a client and its items, but no more than sixteen words are kept.

The database itself has neither limit.
-/

namespace Netkit.Bootparamd

open Netkit.Foundations

/-! ## What the program reads -/

def LINEBUF : Nat := 8192

def escapedNewline : Bytes := [92, 10]

/-- `buf` holds what has been read of the line. Every pass but the last one reads at least two
bytes. -/
def getBootparamLine (len : Nat) : Nat → Bytes → Bytes → Bytes × Bytes
  | 0, buf, f => (buf, f)
  | fuel + 1, buf, f =>
    match fgets (len - buf.length) f with
    | none => (buf, f)
    | some (chunk, f) =>
      let inc := cstring chunk
      let buf := buf ++ inc
      if inc.length < 2 ∨ ¬ escapedNewline <:+ buf then (buf, f)
      else getBootparamLine len fuel (buf.take (buf.length - 2)) f

structure Host where
  name : Bytes
  addr : UInt32
deriving DecidableEq

/-- A map of names, `gethostbyname`. -/
abbrev Names := Bytes → Option Host

def wordsOf (linebuf : Bytes) : List Bytes :=
  (strtok (fun c => c = 32 || c = 9 || c = 10) linebuf).takeWhile (fun s => s.head? ≠ some 35)

/-- The line is for the host: it begins with its name, or with another name that leads to it. -/
def isFor (names : Names) (askname client : Bytes) : Bool :=
  askname = client || (names client).any (fun hp => askname = hp.name)

def lineFor (names : Names) (askname linebuf : Bytes) : Option (List Bytes) :=
  if linebuf.head? = some 35 then none
  else
    match wordsOf linebuf with
    | [] => none
    | client :: items => if isFor names askname client then some (client :: items) else none

def getBootparamEntry (names : Names) (askname : Bytes) : Nat → Bytes → Option (List Bytes)
  | 0, _ => none
  | fuel + 1, f =>
    let (linebuf, f) := getBootparamLine LINEBUF (f.length + 1) [] f
    if linebuf = [] then none
    else
      match lineFor names askname linebuf with
      | some words => some (words.take 16)
      | none => getBootparamEntry names askname fuel f

/-! ## What the database says -/

/-- A line whose continuations have been joined, and the room that is needed to read it. -/
structure Line where
  text : Bytes
  room : Nat
deriving DecidableEq

/-- The lines of a file are joined; `cur` is what there is of the first one. -/
def joinLines : List Bytes → Bytes → Nat → List Line
  | [], cur, room => if cur = [] then [] else [⟨cur, room⟩]
  | p :: ps, cur, room =>
    if escapedNewline <:+ p then
      joinLines ps (cur ++ p.take (p.length - 2)) (max room (cur.length + p.length))
    else ⟨cur ++ p, max room (cur.length + p.length)⟩ :: joinLines ps [] 0

def lines (file : Bytes) : List Line := joinLines (physicalLines file) [] 0

def entry (names : Names) (askname : Bytes) (ls : List Line) : Option (List Bytes) :=
  ls.findSome? (fun l => lineFor names askname l.text)

def Line.Readable (l : Line) : Prop := l.room < LINEBUF ∧ 0 ∉ l.text

instance (l : Line) : Decidable l.Readable := inferInstanceAs (Decidable (_ ∧ _))

def Readable (names : Names) (askname : Bytes) : List Line → Prop
  | [] => True
  | l :: ls => l.Readable ∧ (lineFor names askname l.text = none → Readable names askname ls)

instance decidableReadable (names : Names) (askname : Bytes) :
    ∀ ls, Decidable (Readable names askname ls)
  | [] => isTrue trivial
  | l :: ls =>
    have := decidableReadable names askname ls
    inferInstanceAs (Decidable (l.Readable ∧ (_ → Readable names askname ls)))

/-! ## Lines are read as they are -/

theorem joinLines_room {ps : List Bytes} {cur : Bytes} {room : Nat} {l : Line} {ls : List Line}
    (h : joinLines ps cur room = l :: ls) : room ≤ l.room ∧ cur <+: l.text := by
  induction ps generalizing cur room with
  | nil =>
    rw [joinLines] at h
    split at h
    · cases h
    · obtain ⟨rfl, -⟩ := List.cons.inj h
      exact ⟨Nat.le_refl _, List.prefix_rfl⟩
  | cons p ps ih =>
    rw [joinLines] at h
    split at h
    · obtain ⟨hroom, hcur⟩ := ih h
      exact ⟨Nat.le_trans (Nat.le_max_left _ _) hroom, (List.prefix_append _ _).trans hcur⟩
    · obtain ⟨rfl, -⟩ := List.cons.inj h
      exact ⟨Nat.le_max_left _ _, List.prefix_append _ _⟩

theorem joinLines_nil {ps : List Bytes} {cur : Bytes} {room : Nat}
    (h : joinLines ps cur room = []) : cur = [] := by
  induction ps generalizing cur room with
  | nil =>
    rw [joinLines] at h
    split at h
    · next hcur => exact hcur
    · cases h
  | cons p ps ih =>
    rw [joinLines] at h
    split at h
    · exact (List.append_eq_nil_iff.mp (ih h)).1
    · cases h

theorem escaped_split {p : Bytes} (hp : escapedNewline <:+ p) :
    2 ≤ p.length ∧ p = p.take (p.length - 2) ++ escapedNewline := by
  obtain ⟨front, rfl⟩ := hp
  have hlen : (front ++ escapedNewline).length - 2 = front.length := by
    rw [List.length_append]
    exact Nat.add_sub_cancel front.length 2
  rw [hlen, List.take_left]
  refine ⟨?_, rfl⟩
  rw [List.length_append]
  exact Nat.le_add_left 2 _

theorem escaped_append {cur p : Bytes} (hp : 2 ≤ p.length) :
    escapedNewline <:+ cur ++ p ↔ escapedNewline <:+ p := by
  constructor
  · intro h
    exact List.suffix_of_suffix_length_le h (List.suffix_append cur p) hp
  · exact fun h => h.trans (List.suffix_append cur p)

theorem getBootparamLine_pass {fuel : Nat} {cur p : Bytes} {ps : List Bytes} {f : Bytes}
    (hf : physicalLines f = p :: ps) (hroom : cur.length + p.length < LINEBUF) (hp : 0 ∉ p) :
    getBootparamLine LINEBUF (fuel + 1) cur f =
        (if escapedNewline <:+ p then
          getBootparamLine LINEBUF fuel (cur ++ p.take (p.length - 2)) ps.flatten
        else (cur ++ p, ps.flatten)) ∧ physicalLines ps.flatten = ps := by
  obtain ⟨hgets, hps⟩ := @fgets_physicalLines _ _ _ (LINEBUF - cur.length) hf (by omega)
  refine ⟨?_, hps⟩
  rw [getBootparamLine, hgets]
  dsimp only
  rw [cstring_eq_self hp]
  by_cases hshort : p.length < 2
  · have hlast : ¬ escapedNewline <:+ p := fun h => by
      have := (escaped_split h).1
      omega
    rw [if_pos (Or.inl hshort), if_neg hlast]
  · by_cases hlast : escapedNewline <:+ p
    · have hcur : escapedNewline <:+ cur ++ p := (escaped_append (Nat.le_of_not_lt hshort)).mpr hlast
      have hcut : (cur ++ p).take ((cur ++ p).length - 2) = cur ++ p.take (p.length - 2) := by
        rw [List.length_append, Nat.add_sub_assoc (Nat.le_of_not_lt hshort), List.take_length_add_append]
      rw [if_neg (not_or.mpr ⟨hshort, not_not.mpr hcur⟩), if_pos hlast, hcut]
    · have hcur : ¬ escapedNewline <:+ cur ++ p :=
        fun h => hlast ((escaped_append (Nat.le_of_not_lt hshort)).mp h)
      rw [if_pos (Or.inr hcur), if_neg hlast]

theorem getBootparamLine_end (fuel : Nat) (cur : Bytes) :
    getBootparamLine LINEBUF fuel cur [] = (cur, []) := by
  cases fuel with
  | zero => rfl
  | succ fuel =>
    have hgets : fgets (LINEBUF - cur.length) [] = none ∨
        fgets (LINEBUF - cur.length) [] = some ([], []) := by
      unfold fgets
      split
      · exact Or.inl rfl
      · split
        · exact Or.inr rfl
        · exact Or.inl rfl
    rw [getBootparamLine]
    rcases hgets with hgets | hgets
    · rw [hgets]
    · rw [hgets]
      dsimp only
      rw [if_pos (Or.inl (by decide))]
      exact congrArg (·, []) (List.append_nil cur)

theorem getBootparamLine_eq {fuel room : Nat} {cur f : Bytes} {l : Line} {ls : List Line}
    (hlines : joinLines (physicalLines f) cur room = l :: ls) (hl : l.Readable)
    (hfuel : f.length < fuel) :
    ∃ rest, getBootparamLine LINEBUF fuel cur f = (l.text, rest) ∧ lines rest = ls ∧
      rest.length ≤ f.length - 1 ∧ l.text ≠ [] := by
  induction fuel generalizing cur room f with
  | zero => exact absurd hfuel (Nat.not_lt_zero _)
  | succ fuel ih =>
    cases hf : physicalLines f with
    | nil =>
      have hempty : f = [] := by
        rw [← physicalLines_flatten f, hf]
        rfl
      rw [hf, joinLines] at hlines
      split at hlines
      · cases hlines
      · next hcur =>
        obtain ⟨rfl, rfl⟩ := List.cons.inj hlines
        rw [hempty]
        exact ⟨[], getBootparamLine_end _ _, rfl, Nat.zero_le _, hcur⟩
    | cons p ps =>
      have hflat : f = p ++ ps.flatten := by
        rw [← physicalLines_flatten f, hf]
        rfl
      rw [hf, joinLines] at hlines
      have hpos := physicalLines_pos hf
      by_cases hlast : escapedNewline <:+ p
      · rw [if_pos hlast] at hlines
        obtain ⟨hroom, hcur⟩ := joinLines_room hlines
        obtain ⟨-, hsplit⟩ := escaped_split hlast
        have hfit : cur.length + p.length < LINEBUF :=
          Nat.lt_of_le_of_lt (Nat.le_trans (Nat.le_max_right _ _) hroom) hl.1
        have hp : 0 ∉ p := by
          rw [hsplit, List.mem_append]
          rintro (h | h)
          · exact hl.2 (hcur.mem (List.mem_append_right _ h))
          · exact absurd h (by decide)
        obtain ⟨hpass, hps⟩ := @getBootparamLine_pass fuel _ _ _ _ hf hfit hp
        rw [← hps] at hlines
        have hshort : ps.flatten.length < f.length := by
          rw [hflat, List.length_append]
          omega
        obtain ⟨rest, hread, hrest, hlen, hne⟩ := ih hlines (by omega)
        refine ⟨rest, ?_, hrest, by omega, hne⟩
        rw [hpass, if_pos hlast]
        exact hread
      · rw [if_neg hlast] at hlines
        obtain ⟨rfl, rfl⟩ := List.cons.inj hlines
        have hfit : cur.length + p.length < LINEBUF :=
          Nat.lt_of_le_of_lt (Nat.le_max_right _ _) hl.1
        obtain ⟨hpass, hps⟩ := @getBootparamLine_pass fuel _ _ _ _ hf hfit
          (fun h => hl.2 (List.mem_append_right _ h))
        refine ⟨ps.flatten, ?_, congrArg (joinLines · [] 0) hps, ?_, ?_⟩
        · rw [hpass, if_neg hlast]
        · rw [hflat, List.length_append]
          omega
        · exact List.append_ne_nil_of_right_ne_nil cur (List.ne_nil_of_length_pos hpos)

theorem getBootparamLine_nil {fuel room : Nat} {f : Bytes}
    (hlines : joinLines (physicalLines f) [] room = []) :
    ∃ rest, getBootparamLine LINEBUF fuel [] f = ([], rest) := by
  induction fuel generalizing room f with
  | zero => exact ⟨f, rfl⟩
  | succ fuel ih =>
    cases hf : physicalLines f with
    | nil =>
      have hempty : f = [] := by
        rw [← physicalLines_flatten f, hf]
        rfl
      rw [hempty]
      exact ⟨[], getBootparamLine_end _ _⟩
    | cons p ps =>
      rw [hf, joinLines] at hlines
      split at hlines
      · next hlast =>
        have hcut : p.take (p.length - 2) = [] := joinLines_nil hlines
        obtain ⟨-, hsplit⟩ := escaped_split hlast
        rw [hcut, List.nil_append] at hsplit
        obtain ⟨hpass, hps⟩ := @getBootparamLine_pass fuel [] p ps f hf
          (by rw [hsplit]; decide) (by rw [hsplit]; decide)
        rw [← hps, hcut] at hlines
        rw [hpass, if_pos hlast, hcut]
        exact ih hlines
      · cases hlines

/-! ## Entries -/

theorem getBootparamEntry_eq {names : Names} {askname : Bytes} {fuel : Nat} {f : Bytes}
    (hreadable : Readable names askname (lines f)) (hfuel : f.length < fuel) :
    getBootparamEntry names askname fuel f =
      (entry names askname (lines f)).map (·.take 16) := by
  induction fuel generalizing f with
  | zero => exact absurd hfuel (Nat.not_lt_zero _)
  | succ fuel ih =>
    rw [getBootparamEntry]
    cases hlines : lines f with
    | nil =>
      obtain ⟨rest, hread⟩ := @getBootparamLine_nil (f.length + 1) _ _ hlines
      rw [hread]
      rfl
    | cons l ls =>
      rw [hlines] at hreadable
      obtain ⟨hl, hrest⟩ := hreadable
      obtain ⟨rest, hread, hleft, hlen, hne⟩ :=
        getBootparamLine_eq hlines hl (Nat.lt_succ_self f.length)
      rw [hread, entry, List.findSome?_cons]
      dsimp only
      rw [if_neg hne]
      cases hfor : lineFor names askname l.text with
      | some words => rfl
      | none =>
        have hne : f ≠ [] := by
          rintro rfl
          cases hlines
        have hpos : 0 < f.length := List.length_pos_of_ne_nil hne
        have hnext := ih (f := rest) (by rw [hleft]; exact hrest hfor) (by omega)
        rw [hleft] at hnext
        exact hnext

end Netkit.Bootparamd

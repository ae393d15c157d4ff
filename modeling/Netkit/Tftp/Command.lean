import Netkit.Foundations.Lines
import Netkit.Foundations.Pieces

/-!
# Command lines of tftp and timedc

`makeargv` takes the command line apart: the words are ended with NULs in the line, and pointers to
them are stored in `margv`. Both programs have the function, with arrays of the same sizes. A
pointer is an index into the line.

* `stays_iff`: the lines whose pointers fit.
-/

namespace Netkit.Command

open Netkit.Foundations

/-! ## The function -/

def isspace (c : UInt8) : Bool := c = 32 || decide (9 ≤ c) && decide (c ≤ 13)

/-- The line and `margv`, and the index that `argp` points to. -/
structure Argv where
  line : Bytes
  margv : List (Option ℕ)
  argp : ℕ
  margc : ℕ

/-- `*argp++ = p` -/
def Argv.push (a : Argv) (p : Option ℕ) : Option Argv :=
  if a.argp < a.margv.length then some { a with margv := a.margv.set a.argp p, argp := a.argp + 1 }
  else none

/-- At most so many rounds of the loop, from `cp` on. -/
def makeargvLoop : ℕ → ℕ → Argv → Option Argv
  | 0, _, _ => none
  | fuel + 1, cp, a =>
    let s := cstring (a.line.drop cp)
    let cp := cp + (s.takeWhile isspace).length
    let s := s.dropWhile isspace
    if s = [] then some a
    else do
      let a ← a.push (some cp)
      let a := { a with margc := a.margc + 1 }
      let cp := cp + (s.takeWhile (!isspace ·)).length
      if s.dropWhile (!isspace ·) = [] then some a
      else makeargvLoop fuel (cp + 1) { a with line := a.line.set cp 0 }

def makeargv (line : Bytes) (margv : List (Option ℕ)) : Option Argv := do
  let a ← makeargvLoop (line.length + 1) 0 ⟨line, margv, 0, 0⟩
  a.push none

/-- The arrays before a call: the line has been read by `fgets`. -/
structure Arrays (lineSize margvSize : ℕ) where
  line : Bytes
  margv : List (Option ℕ)
  size : line.length = lineSize
  ends : 0 ∈ line
  room : margv.length = margvSize

def Tftp.makeargv (a : Arrays 200 20) : Option Argv := Command.makeargv a.line a.margv

def Timedc.makeargv (a : Arrays 200 20) : Option Argv := Command.makeargv a.line a.margv

/-- The first `n` of `margv` point into the line. -/
def Within (margv : List (Option ℕ)) (size n : ℕ) : Prop :=
  ∀ i < n, ∃ p < size, margv[i]? = some (some p)

/-- All is stored in `margv`: pointers into the line, and a null pointer behind them. -/
def Stays (size : ℕ) (result : Option Argv) : Prop :=
  ∃ a, result = some a ∧ a.line.length = size ∧ Within a.margv size a.margc ∧
    a.margv[a.margc]? = some none

/-! ## The loop -/

variable {a : Argv} {size : ℕ}

theorem Within.push {margv : List (Option ℕ)} {n p : ℕ} (h : Within margv size n)
    (hn : n < margv.length) (hp : p < size) : Within (margv.set n (some p)) size (n + 1) := by
  intro i hi
  rcases Nat.lt_succ_iff_lt_or_eq.mp hi with hi | rfl
  · obtain ⟨q, hq, hget⟩ := h i hi
    exact ⟨q, hq, by rw [List.getElem?_set_ne (by omega), hget]⟩
  · exact ⟨p, hp, List.getElem?_set_self hn⟩

theorem lt_of_cstring {line s : Bytes} {cp : ℕ} {c : UInt8} (h : cstring (line.drop cp) = c :: s) :
    cp < line.length := by
  by_contra hle
  rw [List.drop_eq_nil_of_le (Nat.le_of_not_lt hle)] at h
  cases h

theorem cstring_behind {line u v : Bytes} {cp : ℕ} (h : cstring (line.drop cp) = u ++ v) :
    cstring (line.drop (cp + u.length)) = v := by
  have hle : u.length ≤ (cstring (line.drop cp)).length := by
    rw [h, List.length_append]
    exact Nat.le_add_right _ _
  rw [← List.drop_drop, cstring_drop hle, h, List.drop_left]

/-- The loop stores a pointer for every word of the string, if `margv` has room for them. The
induction is on the rounds. -/
theorem makeargvLoop_eq {fuel : ℕ} (cp : ℕ) {s : Bytes} (hs : cstring (a.line.drop cp) = s)
    (hfuel : s.length < fuel) (hargp : a.argp = a.margc) (hroom : a.argp ≤ a.margv.length)
    (hsize : a.line.length = size) (hwithin : Within a.margv size a.margc) :
    (∃ b, makeargvLoop fuel cp a = some b ∧ b.argp = b.margc ∧
      b.margc = a.margc + (pieces isspace s).length ∧ b.margv.length = a.margv.length ∧
      b.line.length = size ∧ Within b.margv size b.margc) ∨
    makeargvLoop fuel cp a = none ∧ a.margv.length < a.margc + (pieces isspace s).length := by
  induction fuel generalizing a cp s with
  | zero => exact absurd hfuel (Nat.not_lt_zero _)
  | succ fuel ih =>
    have hpieces := pieces_eq (p := isspace) s
    have hblanks := List.takeWhile_append_dropWhile (p := isspace) (l := s)
    rw [nextPiece] at hpieces
    rw [makeargvLoop, hs]
    generalize s.takeWhile isspace = blanks at hblanks ⊢
    cases hword : s.dropWhile isspace with
    | nil =>
      rw [hword] at hpieces
      refine Or.inl ⟨a, rfl, hargp, ?_, rfl, hsize, hwithin⟩
      rw [hpieces]
      rfl
    | cons c cs =>
      rw [hword] at hpieces hblanks
      have hat := cstring_behind (hs.trans hblanks.symm)
      have hp := lt_of_cstring hat
      have hsplit := List.takeWhile_append_dropWhile (p := (!isspace ·)) (l := c :: cs)
      dsimp only at hpieces ⊢
      rw [if_neg (List.cons_ne_nil c cs), Argv.push]
      generalize (c :: cs).takeWhile (!isspace ·) = word at hsplit hpieces ⊢
      by_cases hfull : a.argp < a.margv.length
      · have hwithin' := hwithin.push (hargp ▸ hfull) (hsize ▸ hp)
        rw [if_pos hfull, Option.bind_eq_bind, Option.bind_some]
        cases hrest : (c :: cs).dropWhile (!isspace ·) with
        | nil =>
          rw [hrest, List.drop_nil, pieces_nil] at hpieces
          rw [if_pos rfl, hpieces]
          refine Or.inl ⟨_, rfl, ?_, rfl, List.length_set, hsize, ?_⟩
          · exact congrArg (· + 1) hargp
          · rw [← hargp] at hwithin' ⊢
            exact hwithin'
        | cons d rest =>
          rw [hrest, List.drop_one, List.tail_cons] at hpieces
          rw [hrest] at hsplit
          have hbehind := cstring_behind (hat.trans hsplit.symm)
          have hrest' := cstring_behind (u := [d]) hbehind
          have hlength : rest.length < fuel := by
            rw [← hblanks, List.length_append, ← hsplit, List.length_append,
              List.length_cons] at hfuel
            omega
          rw [if_neg (List.cons_ne_nil d rest), hpieces, List.length_cons,
            Nat.add_comm (pieces isspace rest).length, ← Nat.add_assoc a.margc]
          have hloop := ih (a := ⟨a.line.set (cp + blanks.length + word.length) 0,
            a.margv.set a.argp (some (cp + blanks.length)), a.argp + 1, a.margc + 1⟩)
            (cp + blanks.length + word.length + 1) (s := rest) ?_ hlength
            (congrArg (· + 1) hargp) ?_ (List.length_set.trans hsize) ?_
          · simpa only [List.length_set] using hloop
          · rw [List.drop_set_of_lt (Nat.lt_succ_self _)]
            exact hrest'
          · rw [List.length_set]
            exact hfull
          · rw [← hargp] at hwithin' ⊢
            exact hwithin'
      · refine Or.inr ⟨by rw [if_neg hfull]; rfl, ?_⟩
        rw [hpieces, List.length_cons]
        omega

theorem makeargv_stays (line : Bytes) (margv : List (Option ℕ)) :
    Stays line.length (makeargv line margv) ↔
      (pieces isspace (cstring line)).length < margv.length := by
  have hlength : (cstring line).length ≤ line.length := (List.takeWhile_prefix _).length_le
  rw [makeargv]
  have hloop := makeargvLoop_eq (a := ⟨line, margv, 0, 0⟩) 0 rfl
    (Nat.lt_succ_of_le hlength) rfl (Nat.zero_le _) rfl (fun i hi => absurd hi (Nat.not_lt_zero i))
  simp only [Nat.zero_add, List.drop_zero] at hloop
  rcases hloop with ⟨b, hloop, hargp, hmargc, hroom, hline, hwithin⟩ | ⟨hloop, hfull⟩
  · rw [hloop, Option.bind_eq_bind, Option.bind_some, Argv.push, hargp, hroom, ← hmargc]
    by_cases hlt : b.margc < margv.length
    · rw [if_pos hlt]
      refine iff_of_true ⟨_, rfl, hline, fun i hi => ?_, ?_⟩ hlt
      · obtain ⟨p, hp, hget⟩ := hwithin i hi
        exact ⟨p, hp, (List.getElem?_set_ne (Nat.ne_of_gt hi)).trans hget⟩
      · exact List.getElem?_set_self (hroom.symm ▸ hlt)
    · rw [if_neg hlt]
      exact iff_of_false (fun ⟨_, h, _⟩ => nomatch h) hlt
  · rw [hloop]
    refine iff_of_false (fun ⟨_, h, _⟩ => nomatch h) ?_
    omega

/-- **The pointers of a command line fit into `margv`** in both programs, exactly if it has less
than 20 words. -/
theorem stays_iff (a : Arrays 200 20) :
    Stays 200 (Tftp.makeargv a) ∧ Stays 200 (Timedc.makeargv a) ↔
      (pieces isspace (cstring a.line)).length < 20 := by
  have h := makeargv_stays a.line a.margv
  rw [a.size, a.room] at h
  exact (and_self_iff).trans h

def twenty : Arrays 200 20 where
  line := (List.replicate 20 [97, 32]).flatten ++ List.replicate 160 0
  margv := List.replicate 20 none
  size := by decide +kernel
  ends := by decide +kernel
  room := List.length_replicate

theorem not_stays :
    ¬ ∀ a : Arrays 200 20, Stays 200 (Tftp.makeargv a) ∧ Stays 200 (Timedc.makeargv a) := by
  intro h
  exact absurd ((stays_iff twenty).mp (h twenty)) (by decide +kernel)

end Netkit.Command

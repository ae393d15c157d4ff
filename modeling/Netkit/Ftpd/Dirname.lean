import Netkit.Foundations.Memory
import Netkit.Ftpd.Server

/-!
# Names of directories in replies

`replydirname` of `ftpd.c`, by which `makedir` and `pwd` answer: the double quotes of the name are
doubled in `npath`, and the reply has the name between two more.

* `dirReply_iff`: the names that are stored within `npath`.
-/

namespace Netkit.Ftpd

open Netkit.Foundations

/-! ## The reply -/

def MAXPATHLEN : ℕ := 4096

/-- One byte is stored in `npath`. -/
def putByte (npath : Bytes) (i : ℕ) (c : UInt8) : Option Bytes :=
  if i < npath.length then some (npath.set i c) else none

/-- The loop of `replydirname`: the index, and `npath`. -/
def quoteLoop : Bytes → ℕ → Bytes → Option (ℕ × Bytes)
  | [], i, npath => some (i, npath)
  | c :: name, i, npath =>
    if i < MAXPATHLEN - 1 then do
      let npath ← putByte npath i c
      if c = 34 then do
        let npath ← putByte npath (i + 1) 34
        quoteLoop name (i + 2) npath
      else quoteLoop name (i + 1) npath
    else some (i, npath)

/-- What `reply` prints; `npath` is not initialized before. -/
def replydirname (npath name message : Bytes) : Option Bytes := do
  let (i, npath) ← quoteLoop name 0 npath
  let npath ← putByte npath i 0
  some (ascii "257 \"" ++ cstring npath ++ ascii "\" " ++ message ++ ascii "\r\n")

def makedirMessage : Bytes := ascii "directory created."

def pwdMessage : Bytes := ascii "is current directory."

/-! ## The client -/

/-- The text up to the closing quote, with doubled quotes reduced to one. -/
def unquote : Bytes → Option Bytes
  | [] => none
  | [c] => if c = 34 then some [] else none
  | c :: d :: s =>
    if c = 34 then if d = 34 then (unquote s).map (34 :: ·) else some []
    else (unquote (d :: s)).map (c :: ·)

def dirname (text : Bytes) : Option Bytes := unquote (text.drop 5)

def doubled (name : Bytes) : Bytes := name.flatMap fun c => if c = 34 then [34, 34] else [c]

/-- All is stored within `npath`, and a client finds the name if there is room for it. -/
def DirReply (npath name message : Bytes) : Prop :=
  ∃ text, replydirname npath name message = some text ∧
    ((doubled name).length < MAXPATHLEN → dirname text = some name)

def Straddles (name : Bytes) (room : ℕ) : Prop :=
  ∃ front rest, name = front ++ 34 :: rest ∧ (doubled front).length + 1 = room

/-! ## Doubled quotes -/

variable {name npath : Bytes} {room i : ℕ}

theorem doubled_cons (c : UInt8) (name : Bytes) :
    doubled (c :: name) = (if c = 34 then [34, 34] else [c]) ++ doubled name :=
  List.flatMap_cons

theorem unquote_doubled (name : Bytes) {d : UInt8} (hd : d ≠ 34) (s : Bytes) :
    unquote (doubled name ++ 34 :: d :: s) = some name := by
  induction name with
  | nil => simp [doubled, unquote, hd]
  | cons c name ih =>
    rw [doubled_cons, List.append_assoc]
    by_cases hc : c = 34
    · simp [hc, unquote, ih]
    · obtain ⟨e, rest, hrest⟩ : ∃ e rest, doubled name ++ 34 :: d :: s = e :: rest :=
        List.exists_cons_of_ne_nil (List.append_ne_nil_of_right_ne_nil _ (List.cons_ne_nil _ _))
      rw [hrest] at ih ⊢
      simp [hc, unquote, ih]

theorem quoted_nil (room : ℕ) : quoted room [] = [] := by
  cases room <;> rfl

theorem quoted_fits (h : (doubled name).length ≤ room) : quoted room name = doubled name := by
  induction name generalizing room with
  | nil => exact quoted_nil room
  | cons c name ih =>
    rw [doubled_cons, List.length_append] at h
    by_cases hc : c = 34
    · rw [if_pos hc] at h
      obtain ⟨room, rfl⟩ : ∃ n, room = n + 2 := ⟨room - 2, by simp at h; omega⟩
      simp only [List.length_cons, List.length_nil] at h
      rw [quoted, if_pos hc, doubled_cons, if_pos hc, hc, ih (by omega)]
      rfl
    · rw [if_neg hc] at h
      obtain ⟨room, rfl⟩ : ∃ n, room = n + 1 := ⟨room - 1, by simp at h; omega⟩
      simp only [List.length_cons, List.length_nil] at h
      rw [quoted, if_neg hc, doubled_cons, if_neg hc, ih (by omega)]
      rfl

theorem not_mem_quoted (h : (0 : UInt8) ∉ name) (room : ℕ) : (0 : UInt8) ∉ quoted room name := by
  induction name generalizing room with
  | nil => simp [quoted_nil]
  | cons c name ih =>
    obtain ⟨hc, hname⟩ := not_or.mp (List.mem_cons.not.mp h)
    cases room with
    | zero => simp [quoted]
    | succ room =>
      rw [quoted]
      split <;> simp [hc, ih hname]

theorem straddles_cons (c : UInt8) (name : Bytes) (room : ℕ) :
    Straddles (c :: name) (room + 1) ↔
      c = 34 ∧ room = 0 ∨ Straddles name (room - if c = 34 then 1 else 0) := by
  have hlength (front : Bytes) : (doubled (c :: front)).length + 1 = room + 1 ↔
      (doubled front).length + 1 = room - if c = 34 then 1 else 0 := by
    rw [doubled_cons, List.length_append]
    split <;> simp <;> omega
  constructor
  · rintro ⟨front, rest, heq, hroom⟩
    cases front with
    | nil => exact Or.inl ⟨(List.cons.inj heq).1, (Nat.succ.inj hroom).symm⟩
    | cons d front =>
      obtain ⟨rfl, hname⟩ := List.cons.inj heq
      exact Or.inr ⟨front, rest, hname, (hlength front).mp hroom⟩
  · rintro (⟨rfl, rfl⟩ | ⟨front, rest, rfl, hroom⟩)
    · exact ⟨[], name, rfl, rfl⟩
    · exact ⟨c :: front, rest, rfl, (hlength front).mpr hroom⟩

theorem quoted_length (name : Bytes) (room : ℕ) : (quoted room name).length ≤ room + 1 ∧
    ((quoted room name).length ≤ room ↔ ¬ Straddles name room) := by
  induction name generalizing room with
  | nil =>
    rw [quoted_nil]
    exact ⟨Nat.zero_le _, iff_of_true (Nat.zero_le _) fun ⟨front, rest, h, _⟩ => by simp at h⟩
  | cons c name ih =>
    cases room with
    | zero => exact ⟨Nat.zero_le _, iff_of_true le_rfl fun ⟨_, _, _, h⟩ => by simp at h⟩
    | succ room =>
      rw [straddles_cons, quoted]
      by_cases hc : c = 34
      · obtain ⟨hle, hiff⟩ := ih (room - 1)
        simp only [if_pos hc, List.length_cons, not_or, ← hiff]
        cases room with
        | zero => simp [quoted, hc]
        | succ room => omega
      · obtain ⟨hle, hiff⟩ := ih room
        have hnot : ¬ (c = 34 ∧ room = 0) := fun h => hc h.1
        rw [if_neg hc, if_neg hc, Nat.sub_zero, or_iff_right hnot, ← hiff, List.length_cons]
        omega

/-! ## The loop -/

theorem putByte_eq (h : i < npath.length) (c : UInt8) : putByte npath i c = some (npath.set i c) :=
  if_pos h

/-- The loop stores nothing outside of `npath`, but may go behind it. -/
theorem quoteLoop_eq (name : Bytes) (hi : i < MAXPATHLEN) (hnpath : npath.length = MAXPATHLEN) :
    quoteLoop name i npath = some (i + (quoted (MAXPATHLEN - 1 - i) name).length,
      store npath i (quoted (MAXPATHLEN - 1 - i) name)) := by
  have hmax : MAXPATHLEN = 4096 := rfl
  induction name generalizing i npath with
  | nil => simp [quoteLoop, quoted_nil]
  | cons c name ih =>
    rw [quoteLoop]
    by_cases hroom : i < MAXPATHLEN - 1
    · have hset (d : UInt8) : (npath.set i d).length = MAXPATHLEN := List.length_set.trans hnpath
      rw [if_pos hroom, putByte_eq (hnpath ▸ hi), Option.bind_eq_bind, Option.bind_some]
      obtain ⟨room, hnext⟩ : ∃ n, MAXPATHLEN - 1 - i = n + 1 := ⟨MAXPATHLEN - 1 - i - 1, by omega⟩
      rw [hnext, quoted]
      by_cases hc : c = 34
      · rw [if_pos hc, if_pos hc, putByte_eq (by rw [hset]; omega), Option.bind_some]
        cases room with
        | zero =>
          -- The second quote fills the buffer.
          have hend : ¬ i + 2 < MAXPATHLEN - 1 := by omega
          have hfit : i + [c, (34 : UInt8)].length ≤ npath.length := by
            rw [List.length_cons, List.length_singleton]
            omega
          have hstore : store npath i [c, 34] = (npath.set i c).set (i + 1) 34 := by
            rw [store_cons hfit, store_singleton 34 (by rw [hset]; omega)]
          rw [quoted, hstore]
          cases name with
          | nil => rfl
          | cons d name => rw [quoteLoop, if_neg hend]; rfl
        | succ room =>
          have hlen := (quoted_length name room).1
          have hlen' : i + 1 + (34 :: quoted room name).length ≤ MAXPATHLEN := by
            rw [List.length_cons]
            omega
          rw [ih (by omega) (List.length_set.trans (hset c)), Nat.add_sub_cancel,
            show MAXPATHLEN - 1 - (i + 2) = room by omega, store_cons, store_cons]
          · simp only [List.length_cons, Nat.add_assoc, Nat.add_comm 2]
          · rw [hset]
            exact hlen'
          · rw [List.length_cons, hnpath]
            omega
      · have hlen := (quoted_length name room).1
        rw [if_neg hc, if_neg hc, ih (by omega) (hset c),
          show MAXPATHLEN - 1 - (i + 1) = room by omega, store_cons]
        · simp only [List.length_cons, Nat.add_assoc, Nat.add_comm 1]
        · rw [List.length_cons, hnpath]
          omega
    · rw [if_neg hroom, show MAXPATHLEN - 1 - i = 0 by omega]
      simp [quoted]

theorem cstring_stored {s : Bytes} (hs : (0 : UInt8) ∉ s) (hroom : s.length < npath.length) :
    cstring ((store npath 0 s).set s.length 0) = s := by
  obtain ⟨d, rest, hdrop⟩ : ∃ d rest, npath.drop (0 + s.length) = d :: rest :=
    List.exists_cons_of_length_pos (by rw [List.length_drop]; omega)
  rw [store_eq (by omega), hdrop, List.take_zero, List.nil_append,
    List.set_append_right _ _ le_rfl, Nat.sub_self, List.set_cons_zero, cstring_append hs,
    cstring_zero, List.append_nil]

/-- **A directory is named in a reply** within `npath`, and as the client reads it, exactly if no
quote of its name comes to the last byte of `npath` but one. -/
theorem dirReply_iff (npath name message : Bytes) (hnpath : npath.length = MAXPATHLEN)
    (hname : 0 ∉ name) : DirReply npath name message ↔ ¬ Straddles name (MAXPATHLEN - 1) := by
  have hmax : MAXPATHLEN = 4096 := rfl
  have hloop := quoteLoop_eq (i := 0) name (by decide) hnpath
  rw [Nat.sub_zero, Nat.zero_add] at hloop
  obtain ⟨-, hiff⟩ := quoted_length name (MAXPATHLEN - 1)
  rw [← hiff, DirReply, replydirname, hloop]
  simp only [Option.bind_eq_bind, Option.bind_some, putByte,
    store_length npath (Nat.zero_le npath.length), hnpath]
  by_cases hroom : (quoted (MAXPATHLEN - 1) name).length ≤ MAXPATHLEN - 1
  · have hlt : (quoted (MAXPATHLEN - 1) name).length < MAXPATHLEN := by omega
    rw [if_pos hlt, Option.bind_some, cstring_stored (not_mem_quoted hname _) (hnpath ▸ hlt)]
    refine iff_of_true ⟨_, rfl, fun hfits => ?_⟩ hroom
    rw [quoted_fits (by omega), dirname]
    simp only [List.append_assoc]
    exact unquote_doubled name (d := 32) (by decide) _
  · rw [if_neg (by omega), Option.bind_none]
    exact iff_of_false (fun ⟨_, h, _⟩ => nomatch h) hroom

theorem dirReply_quote : DirReply (List.replicate MAXPATHLEN 1) [47, 34] pwdMessage ↔
    ¬ Straddles [47, 34] (MAXPATHLEN - 1) :=
  dirReply_iff _ _ _ List.length_replicate (by decide)

/-- 4094 letters and a quote. -/
theorem not_dirReply : ¬ ∀ npath name message : Bytes, npath.length = MAXPATHLEN → 0 ∉ name →
    name.length ≤ MAXPATHLEN → DirReply npath name message := by
  intro h
  have hplain : doubled (List.replicate 4094 97) = List.replicate 4094 97 := by
    rw [doubled, List.flatMap_replicate]
    exact List.flatten_replicate_singleton
  have hname : (0 : UInt8) ∉ List.replicate 4094 97 ++ [34] := by
    intro hmem
    rcases List.mem_append.mp hmem with hmem | hmem
    · exact absurd (List.eq_of_mem_replicate hmem) (by decide)
    · exact absurd hmem (by decide)
  have hnpath : (List.replicate MAXPATHLEN (1 : UInt8)).length = MAXPATHLEN := List.length_replicate
  refine (dirReply_iff _ _ pwdMessage hnpath hname).mp (h _ _ _ hnpath hname ?_)
    ⟨List.replicate 4094 97, [], rfl, ?_⟩
  · rw [List.length_append, List.length_replicate]
    decide
  · rw [hplain, List.length_replicate]
    rfl

end Netkit.Ftpd

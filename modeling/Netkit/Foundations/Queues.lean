import Mathlib.Data.List.Nodup
import Mathlib.Logic.Function.Basic
import Mathlib.Data.List.Basic

/-!
# Queues in memory

Cells in memory, each with the place of the next one, behind a head that holds nothing. A place
that has been freed has no link.

A circular buffer is a list of cells, a start index and a number of occupied cells; the occupied cells
run past the end of the list and go on at its beginning. Indices are moved by at most one revolution
at a time, so they are brought back by one subtraction.
-/

namespace Netkit.Foundations

section LinkedQueues

variable {κ : Type*} {next next' : κ → Option (Option κ)} {a b c x : κ} {us vs ps : List κ}

/-- From `a`, the links lead over the places `us`, the last of which is `b`. -/
def Path (next : κ → Option (Option κ)) : κ → List κ → κ → Prop
  | a, [], b => a = b
  | a, u :: us, b => next a = some (some u) ∧ Path next u us b

theorem path_append : Path next a (us ++ vs) c ↔ ∃ b, Path next a us b ∧ Path next b vs c := by
  induction us generalizing a with
  | nil =>
    constructor
    · exact fun h => ⟨a, rfl, h⟩
    · rintro ⟨b, rfl, h⟩
      exact h
  | cons u us ih =>
    rw [List.cons_append]
    constructor
    · rintro ⟨hu, h⟩
      obtain ⟨b, hus, hvs⟩ := ih.mp h
      exact ⟨b, ⟨hu, hus⟩, hvs⟩
    · rintro ⟨b, ⟨hu, hus⟩, hvs⟩
      exact ⟨hu, ih.mpr ⟨b, hus, hvs⟩⟩

theorem Path.mem (h : Path next a us b) : b ∈ a :: us := by
  induction us generalizing a with
  | nil => exact List.mem_singleton.mpr h.symm
  | cons u us ih => exact List.mem_cons_of_mem a (ih h.2)

theorem Path.end_unique (h : Path next a us b) (h' : Path next' a us c) : b = c := by
  induction us generalizing a with
  | nil => exact h.symm.trans h'
  | cons u us ih => exact ih h.2 h'.2

theorem Path.congr (h : Path next a us b) (hnodup : (a :: us).Nodup)
    (hsame : ∀ y ∈ a :: us, y ≠ b → next' y = next y) : Path next' a us b := by
  induction us generalizing a with
  | nil => exact h
  | cons u us ih =>
    have hab : a ≠ b := by
      rintro rfl
      exact (List.nodup_cons.mp hnodup).1 h.2.mem
    refine ⟨(hsame a List.mem_cons_self hab).trans h.1, ih h.2 (List.nodup_cons.mp hnodup).2 ?_⟩
    exact fun y hy => hsame y (List.mem_cons_of_mem a hy)

/-- The queue from the head `a` to the tail `b`. -/
structure Linked (next : κ → Option (Option κ)) (a : κ) (ps : List κ) (b : κ) : Prop where
  path : Path next a ps b
  tail : next b = some none
  nodup : (a :: ps).Nodup

theorem Linked.link (h : Linked next a (us ++ vs) c) (hus : Path next a us b) :
    Path next b vs c ∧ next b = some vs.head? := by
  obtain ⟨b', hus', hvs⟩ := path_append.mp h.path
  obtain rfl := hus.end_unique hus'
  refine ⟨hvs, ?_⟩
  cases vs with
  | nil =>
    obtain rfl : b = c := hvs
    exact h.tail
  | cons v vs => exact hvs.1

theorem Linked.next_head (h : Linked next a ps c) : next a = some ps.head? := by
  have hsplit : Linked next a ([] ++ ps) c := h
  exact (hsplit.link rfl).2

theorem Linked.unique {d : κ} {qs : List κ} (h : Linked next a ps c) (h' : Linked next a qs d) :
    ps = qs := by
  obtain ⟨hpath, htail, -⟩ := h
  obtain ⟨hpath', htail', -⟩ := h'
  induction ps generalizing a qs with
  | nil =>
    obtain rfl : a = c := hpath
    cases qs with
    | nil => rfl
    | cons q qs =>
      rw [hpath'.1] at htail
      cases htail
  | cons p ps ih =>
    cases qs with
    | nil =>
      obtain rfl : a = d := hpath'
      rw [hpath.1] at htail'
      cases htail'
    | cons q qs =>
      obtain rfl := Option.some.inj (Option.some.inj (hpath.1.symm.trans hpath'.1))
      rw [ih hpath.2 hpath'.2]

theorem Linked.exists_next (h : Linked next a ps c) (hx : x ∈ a :: ps) : ∃ n, next x = some n := by
  rcases List.mem_cons.mp hx with rfl | hx
  · exact ⟨_, h.next_head⟩
  · obtain ⟨us, vs, rfl⟩ := List.append_of_mem hx
    rw [List.append_cons] at h
    obtain ⟨b, hus, -⟩ := path_append.mp h.path
    obtain ⟨d, -, -, rfl⟩ := path_append.mp hus
    exact ⟨_, (h.link hus).2⟩

/-- When the cell `x` is taken from the queue, the place in front of it is linked to the one behind
it. -/
theorem Linked.unlink [DecidableEq κ] (h : Linked next a (us ++ x :: vs) c) (hus : Path next a us b)
    (hb : next' b = some vs.head?) (hsame : ∀ y ∈ a :: us ++ vs, y ≠ b → next' y = next y) :
    Linked next' a (us ++ vs) (if x = c then b else c) ∧ Path next' a us b := by
  have hx := (h.link hus).1
  have hnodup : (a :: us ++ x :: vs).Nodup := h.nodup
  have hsublist : (a :: us ++ vs).Sublist (a :: us ++ x :: vs) :=
    (List.sublist_cons_self x vs).append_left _
  have hbefore : Path next' a us b := by
    refine hus.congr (List.nodup_append.mp hnodup).1 fun y hy hyb => ?_
    exact hsame y (List.mem_append_left vs hy) hyb
  have hapart : ∀ y ∈ vs, y ≠ b := by
    rintro y hy rfl
    exact List.disjoint_of_nodup_append hnodup hus.mem (List.mem_cons_of_mem x hy)
  refine ⟨⟨path_append.mpr ⟨b, hbefore, ?_⟩, ?_, hnodup.sublist hsublist⟩, hbefore⟩
  · cases vs with
    | nil => exact (if_pos hx.2).symm
    | cons v vs =>
      have hvs := hx.2.2
      have hxc : x ≠ c := by
        rintro rfl
        exact (List.nodup_cons.mp (List.nodup_append.mp hnodup).2.1).1 hvs.mem
      have hvsnodup := (List.nodup_cons.mp (List.nodup_append.mp hnodup).2.1).2
      rw [if_neg hxc]
      refine ⟨hb, hvs.congr hvsnodup fun y hy _ => ?_⟩
      exact hsame y (List.mem_append_right _ hy) (hapart y hy)
  · cases vs with
    | nil =>
      have hxc : x = c := hx.2
      rw [if_pos hxc, hb, List.head?_nil]
    | cons v vs =>
      have hvs := hx.2.2
      have hxc : x ≠ c := by
        rintro rfl
        exact (List.nodup_cons.mp (List.nodup_append.mp hnodup).2.1).1 hvs.mem
      rw [if_neg hxc, hsame c (List.mem_append_right _ hvs.mem) (hapart c hvs.mem)]
      exact h.tail

theorem Linked.extend (h : Linked next a ps b) (hx : x ∉ a :: ps) (hb : next' b = some (some x))
    (htail : next' x = some none) (hsame : ∀ y ∈ a :: ps, y ≠ b → next' y = next y) :
    Linked next' a (ps ++ [x]) x := by
  refine ⟨path_append.mpr ⟨b, h.path.congr h.nodup hsame, hb, rfl⟩, htail, ?_⟩
  rw [← List.cons_append]
  exact h.nodup.append (List.nodup_singleton x) (List.disjoint_singleton.mpr hx)

def Stored {α : Type*} (node : κ → Option α) (ps : List κ) (xs : List α) : Prop :=
  List.Forall₂ (fun p d => node p = some d) ps xs

theorem Stored.congr {α : Type*} {node node' : κ → Option α} {xs : List α} (h : Stored node ps xs)
    (hsame : ∀ p ∈ ps, node' p = node p) : Stored node' ps xs := by
  induction h with
  | nil => exact .nil
  | cons hp _ ih =>
    refine .cons ((hsame _ List.mem_cons_self).trans hp) (ih fun p hp => ?_)
    exact hsame p (List.mem_cons_of_mem _ hp)

theorem Stored.unique {α : Type*} {node : κ → Option α} {xs ys : List α} (h : Stored node ps xs)
    (h' : Stored node ps ys) : xs = ys := by
  induction h generalizing ys with
  | nil => exact (List.forall₂_nil_left_iff.mp h').symm
  | cons hp _ ih =>
    obtain ⟨y, ys, hy, hys, rfl⟩ := List.forall₂_cons_left_iff.mp h'
    obtain rfl := Option.some.inj (hp.symm.trans hy)
    rw [ih hys]

/-- Of the list, some elements are left out, each of the kind `P`. -/
inductive Loses {α : Type*} (P : α → Prop) : List α → List α → Prop
  | nil : Loses P [] []
  | keep {d : α} {xs ys : List α} : Loses P xs ys → Loses P (d :: xs) (d :: ys)
  | drop {d : α} {xs ys : List α} : P d → Loses P xs ys → Loses P (d :: xs) ys

theorem Loses.refl {α : Type*} {P : α → Prop} (xs : List α) : Loses P xs xs := by
  induction xs with
  | nil => exact .nil
  | cons d xs ih => exact .keep ih

theorem Loses.middle {α : Type*} {P : α → Prop} {d : α} (hd : P d) (xs ys : List α) :
    Loses P (xs ++ d :: ys) (xs ++ ys) := by
  induction xs with
  | nil => exact .drop hd (.refl ys)
  | cons x xs ih => exact .keep ih

end LinkedQueues

section CircularBuffers

variable {α : Type*} [Inhabited α]

/-- `i`, at most one revolution too far, brought back below `len`. -/
def wrap (len i : Nat) : Nat := if i < len then i else i - len

theorem wrap_lt {len i : Nat} (h : i < 2 * len) : wrap len i < len := by
  unfold wrap
  split <;> omega

theorem wrap_eq_mod {len i : Nat} (h : i < 2 * len) : wrap len i = i % len := by
  unfold wrap
  split
  · rename_i hlt
    exact (Nat.mod_eq_of_lt hlt).symm
  · rename_i hge
    rw [Nat.mod_eq_sub_mod (by omega), Nat.mod_eq_of_lt (by omega)]

theorem wrap_wrap_add {len i n : Nat} (h : i + n < 2 * len) :
    wrap len (wrap len i + n) = wrap len (i + n) := by
  unfold wrap
  split_ifs <;> omega

/-- The contents of the `n` cells from `start` on. -/
def window (buf : List α) (start : Nat) : Nat → List α
  | 0 => []
  | n + 1 => window buf start n ++ [buf.getD (wrap buf.length (start + n)) default]

@[simp] theorem window_zero (buf : List α) (start : Nat) : window buf start 0 = [] := rfl

@[simp] theorem length_window (buf : List α) (start n : Nat) :
    (window buf start n).length = n := by
  induction n with
  | zero => rfl
  | succ n ih => simp [window, ih]

theorem window_set_outside {buf : List α} {start n i : Nat} {a : α}
    (h : ∀ k, k < n → i ≠ wrap buf.length (start + k)) :
    window (buf.set i a) start n = window buf start n := by
  induction n with
  | zero => rfl
  | succ n ih =>
    have hn := h n (Nat.lt_succ_self n)
    rw [window, window, ih (fun k hk => h k (Nat.lt_succ_of_lt hk)), List.length_set]
    simp [List.getD_eq_getElem?_getD, List.getElem?_set_ne hn]

theorem window_push {buf : List α} {start n : Nat} (a : α) (hstart : start < buf.length)
    (hn : n < buf.length) :
    window (buf.set (wrap buf.length (start + n)) a) start (n + 1) =
      window buf start n ++ [a] := by
  have hlt : wrap buf.length (start + n) < buf.length := wrap_lt (by omega)
  rw [window, window_set_outside, List.length_set]
  · simp [List.getD_eq_getElem?_getD, hlt]
  · intro k hk
    unfold wrap
    split <;> split <;> omega

theorem window_pop {buf : List α} {start n : Nat} (hstart : start < buf.length)
    (hn : n < buf.length) :
    window buf start (n + 1) =
      buf.getD start default :: window buf (wrap buf.length (start + 1)) n := by
  induction n with
  | zero => simp [window, wrap, hstart]
  | succ n ih =>
    rw [window, ih (by omega), List.cons_append, window, wrap_wrap_add (by omega)]
    rw [show start + 1 + n = start + (n + 1) by omega]

theorem window_add {buf : List α} {start m n : Nat} (hstart : start < buf.length)
    (h : m + n ≤ buf.length) :
    window buf start (m + n) =
      window buf start m ++ window buf (wrap buf.length (start + m)) n := by
  induction n with
  | zero => simp
  | succ n ih =>
    rw [← Nat.add_assoc, window, ih (by omega), List.append_assoc, window,
      wrap_wrap_add (by omega), Nat.add_assoc]

theorem window_eq_slice {buf : List α} {start n : Nat} (h : start + n ≤ buf.length) :
    window buf start n = (buf.drop start).take n := by
  induction n with
  | zero => simp
  | succ n ih =>
    have hlt : start + n < buf.length := by omega
    rw [window, ih (by omega), List.take_add_one]
    simp [wrap, hlt, List.getD_eq_getElem?_getD]

end CircularBuffers

end Netkit.Foundations

import Mathlib.Data.List.Basic

/-!
# Regions of a list of cells

An array of the program is a list of its cells. `store` is what `memcpy` into it does, and
`slice` is what is read from one index up to another.
-/

namespace Netkit.Foundations

variable {α : Type*}

/-- The cells with `bs` copied to index `i`. Cells behind the end are dropped: the caller
shows that there are none. -/
def store (mem : List α) (i : Nat) (bs : List α) : List α :=
  (mem.take i ++ bs ++ mem.drop (i + bs.length)).take mem.length

/-- The cells from index `i` up to index `j`. -/
def slice (mem : List α) (i j : Nat) : List α := (mem.take j).drop i

@[simp] theorem slice_self (mem : List α) (i : Nat) : slice mem i i = [] := by
  simp [slice]

theorem slice_length {mem : List α} {i j : Nat} (h : j ≤ mem.length) :
    (slice mem i j).length = j - i := by
  simp only [slice, List.length_drop, List.length_take]
  omega

theorem slice_split {mem : List α} {i j k : Nat} (hij : i ≤ j) (hjk : j ≤ k) :
    slice mem i k = slice mem i j ++ slice mem j k := by
  simp only [slice, List.drop_take]
  rw [show k - i = (j - i) + (k - j) by omega, List.take_add, List.drop_drop,
    show i + (j - i) = j by omega]

theorem slice_of_append {mem xs ys : List α} {i k : Nat} (hk : k ≤ mem.length) (hik : i ≤ k)
    (h : slice mem i k = xs ++ ys) :
    i + xs.length ≤ k ∧ slice mem i (i + xs.length) = xs ∧ slice mem (i + xs.length) k = ys := by
  have hlen := slice_length (i := i) hk
  rw [h, List.length_append] at hlen
  refine ⟨by omega, ?_, ?_⟩
  · have hsplit : slice mem i k = slice mem i (i + xs.length) ++ slice mem (i + xs.length) k :=
      slice_split (by omega) (by omega)
    rw [h] at hsplit
    refine ((List.append_inj hsplit ?_).1).symm
    rw [slice_length (by omega)]
    omega
  · simp only [slice] at h ⊢
    rw [← List.drop_drop, h, List.drop_left]

theorem slice_add {mem : List α} {i n : Nat} : slice mem i (i + n) = (mem.drop i).take n := by
  rw [slice, List.drop_take, Nat.add_sub_cancel_left]

theorem slice_append_left {mem xs : List α} {i j : Nat} (h : j ≤ mem.length) :
    slice (mem ++ xs) i j = slice mem i j := by
  rw [slice, slice, List.take_append_of_le_length h]

theorem store_length (mem : List α) {i : Nat} {bs : List α} (h : i ≤ mem.length) :
    (store mem i bs).length = mem.length := by
  simp only [store, List.length_take, List.length_append, List.length_drop]
  omega

theorem store_eq {mem bs : List α} {i : Nat} (h : i + bs.length ≤ mem.length) :
    store mem i bs = mem.take i ++ (bs ++ mem.drop (i + bs.length)) := by
  unfold store
  rw [List.append_assoc, List.take_of_length_le]
  simp only [List.length_append, List.length_take, List.length_drop]
  omega

theorem slice_store_below {mem bs : List α} {i j k : Nat} (hji : j ≤ i)
    (h : i + bs.length ≤ mem.length) : slice (store mem i bs) k j = slice mem k j := by
  rw [store_eq h, slice, slice, List.take_append_of_le_length, List.take_take,
    Nat.min_eq_left hji]
  rw [List.length_take]
  omega

theorem slice_store_above {mem bs : List α} {i j k : Nat} (hij : i + bs.length ≤ j)
    (h : i + bs.length ≤ mem.length) : slice (store mem i bs) j k = slice mem j k := by
  have hlen : (mem.take i ++ bs).length = i + bs.length := by
    rw [List.length_append, List.length_take]
    omega
  have hdrop : (store mem i bs).drop j = mem.drop j := by
    rw [store_eq h, ← List.append_assoc, List.drop_append, hlen, List.drop_drop,
      List.drop_eq_nil_of_le (by omega), List.nil_append]
    congr 1
    omega
  rw [slice, slice, List.drop_take, List.drop_take, hdrop]

theorem slice_store_self {mem bs : List α} {i : Nat} (h : i + bs.length ≤ mem.length) :
    slice (store mem i bs) i (i + bs.length) = bs := by
  have hlen : (mem.take i).length = i := by
    rw [List.length_take]
    omega
  rw [store_eq h, slice_add, List.drop_left' hlen, List.take_left' rfl]

theorem slice_store_append {mem bs : List α} {i j : Nat} (hij : i ≤ j)
    (h : j + bs.length ≤ mem.length) :
    slice (store mem j bs) i (j + bs.length) = slice mem i j ++ bs := by
  rw [slice_split hij (Nat.le_add_right j bs.length), slice_store_below (Nat.le_refl j) h,
    slice_store_self h]

theorem store_cons {mem bs : List α} {i : Nat} {b : α} (h : i + (b :: bs).length ≤ mem.length) :
    store mem i (b :: bs) = store (mem.set i b) (i + 1) bs := by
  rw [List.length_cons] at h
  rw [store_eq (by rw [List.length_cons]; exact h), store_eq (by rw [List.length_set]; omega)]
  have hi : i < mem.length := by omega
  have hset : (mem.set i b).take (i + 1) = mem.take i ++ [b] := by
    rw [List.set_eq_take_append_cons_drop, if_pos hi, List.take_append]
    simp [Nat.min_eq_left (Nat.le_of_lt hi), List.take_take]
  rw [hset, List.drop_set_of_lt (by omega)]
  simp [Nat.add_assoc, Nat.add_comm 1]

@[simp] theorem store_nil (mem : List α) (i : Nat) : store mem i [] = mem := by
  simp [store, List.take_append_drop]

/-! ## One cell -/

theorem store_singleton {mem : List α} {i : Nat} (b : α) (h : i < mem.length) :
    store mem i [b] = mem.set i b := by
  rw [store_cons (by rw [List.length_singleton]; omega), store_nil]

theorem slice_set_below {mem : List α} {i j k : Nat} (b : α) (hji : j ≤ i) :
    slice (mem.set i b) k j = slice mem k j := by
  rw [slice, slice, List.take_set_of_le hji]

theorem slice_set_above {mem : List α} {i j k : Nat} (b : α) (hij : i < j) :
    slice (mem.set i b) j k = slice mem j k := by
  rw [slice, slice, List.drop_take, List.drop_take, List.drop_set_of_lt hij]

theorem slice_set_push {mem : List α} {i j : Nat} (b : α) (hij : i ≤ j) (h : j < mem.length) :
    slice (mem.set j b) i (j + 1) = slice mem i j ++ [b] := by
  have hfit : j + [b].length ≤ mem.length := by
    rw [List.length_singleton]
    omega
  have happ := slice_store_append hij hfit
  rwa [store_singleton b h] at happ

theorem slice_eq_cons {mem xs : List α} {i k : Nat} {x : α} (hk : k ≤ mem.length)
    (h : slice mem i k = x :: xs) (d : α) :
    i < k ∧ mem.getD i d = x ∧ slice mem (i + 1) k = xs := by
  have hlen := congrArg List.length h
  rw [slice_length hk, List.length_cons] at hlen
  have hi : i < mem.length := by omega
  refine ⟨by omega, ?_, ?_⟩
  · have hget : (slice mem i k)[0]? = some x := by rw [h]; rfl
    rw [slice, List.getElem?_drop, List.getElem?_take_of_lt (by omega)] at hget
    rw [List.getD_eq_getElem?_getD]
    simpa using congrArg (fun o => o.getD d) hget
  · rw [slice] at h ⊢
    rw [← List.drop_drop, h]
    rfl

/-! ## Buffers that drop what does not fit -/

/-- The first `used` cells of `mem` are in use. -/
structure Bounded (α : Type*) where
  mem : List α
  used : Nat

namespace Bounded

variable {α : Type*} {b : Bounded α} {text : List α}

def push (b : Bounded α) (x : α) : Bounded α :=
  if b.used < b.mem.length then ⟨b.mem.set b.used x, b.used + 1⟩ else b

/-- What is in use is all of the text that fits. -/
structure Holds (b : Bounded α) (text : List α) : Prop where
  used : b.used = min b.mem.length text.length
  front : b.mem.take b.used = text.take b.mem.length

@[simp] theorem length_push (b : Bounded α) (x : α) : (b.push x).mem.length = b.mem.length := by
  unfold push
  split
  · exact List.length_set
  · rfl

theorem push_holds (h : b.Holds text) (x : α) : (b.push x).Holds (text ++ [x]) := by
  obtain ⟨hused, hfront⟩ := h
  have hlength : (text ++ [x]).length = text.length + 1 := List.length_append
  unfold push
  split
  · next hlt =>
    have htext : b.used = text.length := by omega
    have hfits : (text ++ [x]).length ≤ b.mem.length := by omega
    refine ⟨?_, ?_⟩
    · dsimp only
      rw [List.length_set]
      omega
    · dsimp only
      have hwhole : text.take b.mem.length = text := List.take_of_length_le (by omega)
      rw [List.length_set, List.take_of_length_le hfits, List.take_add_one,
        List.take_set_of_le (Nat.le_refl _), hfront, hwhole, List.getElem?_set_self hlt]
      rfl
  · next hge =>
    refine ⟨by omega, ?_⟩
    rw [hfront, List.take_append_of_le_length (by omega)]

theorem Holds.whole (h : b.Holds text) (hfits : text.length ≤ b.mem.length) :
    b.used = text.length ∧ b.mem.take b.used = text := by
  refine ⟨h.used.trans (Nat.min_eq_right hfits), ?_⟩
  rw [h.front, List.take_of_length_le hfits]

theorem Holds.full (h : b.Holds text) (hlong : b.mem.length ≤ text.length) :
    b.used = b.mem.length :=
  h.used.trans (Nat.min_eq_left hlong)

end Bounded

end Netkit.Foundations

import Mathlib.Data.List.Basic

/-!
# Lists that are taken apart

A list is taken apart at the elements that separate, where empty pieces are left out, and a tokenizer
takes one piece after another; or it is cut into blocks of `n` elements, all of them full but the last
one, which is shorter and may be empty.
-/

namespace Netkit.Foundations

section Pieces

variable {α : Type*} {p : α → Bool}

def pieces (p : α → Bool) (s : List α) : List (List α) :=
  (s.splitOnP p).filter (fun w => !w.isEmpty)

def nextPiece (p : α → Bool) (s : List α) : Option (List α × List α) :=
  match s.dropWhile p with
  | [] => none
  | c :: cs =>
    some ((c :: cs).takeWhile (fun d => !p d), ((c :: cs).dropWhile (fun d => !p d)).drop 1)

@[simp] theorem pieces_nil : pieces p [] = [] := by
  rw [pieces, List.splitOnP_nil]
  rfl

theorem pieces_append_cons {c : α} (hc : p c = true) (s t : List α) :
    pieces p (s ++ c :: t) = pieces p s ++ pieces p t := by
  rw [pieces, List.splitOnP_append_cons s t hc, List.filter_append]
  rfl

theorem pieces_cons {c : α} (hc : p c = true) (s : List α) : pieces p (c :: s) = pieces p s := by
  have h := pieces_append_cons hc [] s
  rwa [List.nil_append, pieces_nil, List.nil_append] at h

theorem pieces_of_forall {w : List α} (hne : w ≠ []) (hw : ∀ c ∈ w, p c = false) :
    pieces p w = [w] := by
  rw [pieces, List.splitOnP_eq_singleton hw, List.filter_singleton]
  cases w with
  | nil => exact absurd rfl hne
  | cons c w => rfl

theorem pieces_append {w : List α} (hne : w ≠ []) (hw : ∀ c ∈ w, p c = false) {c : α}
    (hc : p c = true) (s : List α) : pieces p (w ++ c :: s) = w :: pieces p s := by
  rw [pieces_append_cons hc, pieces_of_forall hne hw]
  rfl

theorem exists_piece {c : α} (hc : p c = false) (s : List α) :
    ∃ w ws, pieces p (c :: s) = (c :: w) :: ws := by
  obtain ⟨w, ws, hws⟩ := List.exists_cons_of_ne_nil (List.splitOnP_ne_nil p s)
  refine ⟨w, ws.filter (fun w => !w.isEmpty), ?_⟩
  rw [pieces, List.splitOnP_cons_eq_if_modifyHead, if_neg (by rw [hc]; exact Bool.false_ne_true),
    hws, List.modifyHead_cons]
  rfl

theorem ne_nil_of_mem_pieces {s w : List α} (hw : w ∈ pieces p s) : w ≠ [] := by
  obtain ⟨-, hne⟩ := List.mem_filter.mp hw
  rintro rfl
  cases hne

theorem mem_of_mem_splitOnP {s w : List α} {c : α} (hw : w ∈ s.splitOnP p) (hc : c ∈ w) :
    c ∈ s := by
  induction s generalizing w with
  | nil =>
    rw [List.splitOnP_nil, List.mem_singleton] at hw
    rw [hw] at hc
    exact absurd hc List.not_mem_nil
  | cons d s ih =>
    rw [List.splitOnP_cons_eq_if_modifyHead] at hw
    split at hw
    · rcases List.mem_cons.mp hw with rfl | hw
      · exact absurd hc List.not_mem_nil
      · exact List.mem_cons_of_mem d (ih hw hc)
    · obtain ⟨e, es, hes⟩ := List.exists_cons_of_ne_nil (List.splitOnP_ne_nil p s)
      rw [hes, List.modifyHead_cons] at hw
      rcases List.mem_cons.mp hw with rfl | hw
      · rcases List.mem_cons.mp hc with rfl | hc
        · exact List.mem_cons_self
        · exact List.mem_cons_of_mem d (ih (hes ▸ List.mem_cons_self) hc)
      · exact List.mem_cons_of_mem d (ih (hes ▸ List.mem_cons_of_mem e hw) hc)

theorem mem_of_mem_pieces {s w : List α} {c : α} (hw : w ∈ pieces p s) (hc : c ∈ w) : c ∈ s :=
  mem_of_mem_splitOnP (List.mem_filter.mp hw).1 hc

theorem nextPiece_cons {c : α} (hc : p c = true) (s : List α) :
    nextPiece p (c :: s) = nextPiece p s := by
  unfold nextPiece
  rw [List.dropWhile_cons_of_pos hc]

theorem nextPiece_letter {c : α} (hc : p c = false) (s : List α) : nextPiece p (c :: s) =
    some (c :: s.takeWhile (fun d => !p d), (s.dropWhile (fun d => !p d)).drop 1) := by
  have hnot : ¬ p c = true := Bool.eq_false_iff.mp hc
  unfold nextPiece
  rw [List.dropWhile_cons_of_neg hnot]
  simp only [List.takeWhile_cons, List.dropWhile_cons, hc, Bool.not_false, if_true]

theorem pieces_eq (s : List α) : pieces p s =
    match nextPiece p s with
    | none => []
    | some (w, rest) => w :: pieces p rest := by
  induction s with
  | nil => exact pieces_nil
  | cons c s ih =>
    by_cases hc : p c = true
    · rw [pieces_cons hc, nextPiece_cons hc]
      exact ih
    · rw [Bool.not_eq_true] at hc
      rw [nextPiece_letter hc]
      dsimp only
      have hall : ∀ d ∈ c :: s.takeWhile (fun d => !p d), p d = false := by
        intro d hd
        rcases List.mem_cons.mp hd with rfl | hd
        · exact hc
        · have hletters := List.all_takeWhile (p := fun d => !p d) (l := s)
          simpa using List.all_eq_true.mp hletters d hd
      have hsplit := List.takeWhile_append_dropWhile (p := fun d => !p d) (l := s)
      cases hrest : s.dropWhile (fun d => !p d) with
      | nil =>
        rw [hrest, List.append_nil] at hsplit
        rw [List.drop_nil, pieces_nil, hsplit]
        rw [hsplit] at hall
        exact pieces_of_forall (List.cons_ne_nil c s) hall
      | cons d rest =>
        have hd : p d = true := by
          have hhead := List.head_dropWhile_not (fun d => !p d) (l := s) (by
            rw [hrest]
            exact List.cons_ne_nil d rest)
          simp only [hrest, List.head_cons] at hhead
          simpa using hhead
        have hpiece := pieces_append (List.cons_ne_nil c _) hall hd rest
        rw [← hrest, List.cons_append, hsplit] at hpiece
        exact hpiece

theorem nextPiece_length {s w rest : List α} (h : nextPiece p s = some (w, rest)) :
    rest.length < s.length := by
  induction s with
  | nil => cases h
  | cons c s ih =>
    by_cases hc : p c = true
    · rw [nextPiece_cons hc] at h
      exact Nat.lt_succ_of_lt (ih h)
    · rw [Bool.not_eq_true] at hc
      rw [nextPiece_letter hc] at h
      obtain ⟨-, rfl⟩ := Prod.mk.inj (Option.some.inj h)
      rw [List.length_drop, List.length_cons]
      have hle := (List.dropWhile_suffix (fun d => !p d) (l := s)).length_le
      omega

theorem nextPiece_ne_nil {s w rest : List α} (h : nextPiece p s = some (w, rest)) : w ≠ [] := by
  have hpieces := pieces_eq (p := p) s
  rw [h] at hpieces
  refine ne_nil_of_mem_pieces (p := p) (s := s) ?_
  rw [hpieces]
  exact List.mem_cons_self

end Pieces

section Blocks

variable {α : Type*} {n : ℕ} {xs : List α}

/-- Block number `i` of `xs`, counted from 0. -/
def block (n : ℕ) (xs : List α) (i : ℕ) : List α := (xs.drop (n * i)).take n

/-- The first `k` blocks. -/
def blocks (n : ℕ) (xs : List α) (k : ℕ) : List (List α) := (List.range k).map (block n xs)

@[simp] theorem blocks_zero : blocks n xs 0 = [] := rfl

theorem blocks_succ (k : ℕ) : blocks n xs (k + 1) = blocks n xs k ++ [block n xs k] := by
  simp [blocks, List.range_succ]

theorem block_length (i : ℕ) : (block n xs i).length = min n (xs.length - n * i) := by
  simp [block]

theorem block_length_le (i : ℕ) : (block n xs i).length ≤ n := by
  rw [block_length]
  exact Nat.min_le_left _ _

theorem blocks_flatten (k : ℕ) : (blocks n xs k).flatten = xs.take (n * k) := by
  induction k with
  | zero => simp
  | succ k ih =>
    rw [blocks_succ, List.flatten_append, ih, Nat.mul_succ, List.take_add]
    simp [block]

theorem blocks_prefix (k : ℕ) : (blocks n xs k).flatten <+: xs := by
  rw [blocks_flatten]
  exact List.take_prefix _ _

theorem length_le_of_short {i : ℕ} (h : (block n xs i).length ≠ n) :
    xs.length ≤ n * (i + 1) := by
  rw [block_length] at h
  rw [Nat.mul_succ]
  omega

theorem blocks_eq_of_short {i : ℕ} (h : (block n xs i).length ≠ n) :
    (blocks n xs (i + 1)).flatten = xs := by
  rw [blocks_flatten]
  exact List.take_of_length_le (length_le_of_short h)

theorem block_short (hn : 0 < n) : (block n xs (xs.length / n)).length < n := by
  rw [block_length]
  have hmod : xs.length - n * (xs.length / n) = xs.length % n := by
    have := Nat.div_add_mod xs.length n
    omega
  have := Nat.mod_lt xs.length hn
  omega

theorem blocks_flatMap {β : Type*} {f : β → List α} (hf : ∀ b, (f b).length = n) (l : List β) :
    blocks n (l.flatMap f) l.length = l.map f := by
  induction l with
  | nil => rfl
  | cons b l ih =>
    have hfirst : block n (f b ++ l.flatMap f) 0 = f b := by
      rw [block, Nat.mul_zero, List.drop_zero, List.take_left' (hf b)]
    have hnext (i : ℕ) : block n (f b ++ l.flatMap f) (i + 1) = block n (l.flatMap f) i := by
      have hindex : n * (i + 1) = (f b).length + n * i := by rw [hf b, Nat.mul_succ, Nat.add_comm]
      rw [block, hindex, List.drop_length_add_append, block]
    rw [List.flatMap_cons, List.length_cons, blocks, List.range_succ_eq_map, List.map_cons,
      List.map_map, hfirst, List.map_cons, ← ih, blocks]
    exact congrArg (f b :: ·) (List.map_congr_left (fun i _ => hnext i))

end Blocks

end Netkit.Foundations

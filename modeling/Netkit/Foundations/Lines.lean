import Mathlib.Data.List.Basic

/-!
# Lines of a file

Bytes, and how a file comes back from reads that stop at the end of a line or of the buffer.
-/

namespace Netkit.Foundations

abbrev Bytes := List UInt8

def ascii (s : String) : Bytes := s.toList.map (fun c => UInt8.ofNat c.toNat)

def cstring (b : Bytes) : Bytes := b.takeWhile (fun c => c ≠ 0)

/-- `fgets` reads at most `size` bytes and stops behind a newline; `cur` is what it has read
so far. -/
def chunks (size : Nat) : Bytes → Bytes → List Bytes
  | [], cur => if cur = [] then [] else [cur]
  | c :: cs, cur =>
    if c = 10 ∨ cur.length + 1 = size then (cur ++ [c]) :: chunks size cs []
    else chunks size cs (cur ++ [c])

/-- What `strtok` returns, call by call. -/
def strtok (delims : UInt8 → Bool) (s : Bytes) : List Bytes :=
  (s.splitOnP delims).filter (fun token => token ≠ [])

/-! ## Strings in a buffer -/

theorem cstring_nil : cstring [] = [] := rfl

theorem cstring_zero (b : Bytes) : cstring (0 :: b) = [] := rfl

theorem cstring_cons {c : UInt8} (hc : c ≠ 0) (b : Bytes) : cstring (c :: b) = c :: cstring b :=
  List.takeWhile_cons_of_pos (decide_eq_true hc)

theorem zero_not_mem_cstring (b : Bytes) : (0 : UInt8) ∉ cstring b := by
  intro h
  have hall : (cstring b).all (fun c => c ≠ 0) = true := List.all_takeWhile
  exact absurd rfl (of_decide_eq_true (List.all_eq_true.mp hall 0 h))

theorem cstring_append {a : Bytes} (ha : (0 : UInt8) ∉ a) (b : Bytes) :
    cstring (a ++ b) = a ++ cstring b :=
  List.takeWhile_append_of_pos (fun _ hc => decide_eq_true (fun h => ha (h ▸ hc)))

theorem cstring_append_zero (a b : Bytes) : cstring (a ++ 0 :: b) = cstring a := by
  induction a with
  | nil => rfl
  | cons c a ih =>
    by_cases hc : c = 0
    · rw [hc]
      rfl
    · rw [List.cons_append, cstring_cons hc, cstring_cons hc, ih]

theorem cstring_take (b : Bytes) (n : Nat) : cstring (b.take n) = (cstring b).take n := by
  induction b generalizing n with
  | nil => rw [List.take_nil, cstring_nil, List.take_nil]
  | cons c b ih =>
    cases n with
    | zero => rfl
    | succ n =>
      by_cases hc : c = 0
      · rw [hc]
        rfl
      · rw [List.take_succ_cons, cstring_cons hc, cstring_cons hc, List.take_succ_cons, ih]

theorem cstring_eq_self {a : Bytes} (ha : (0 : UInt8) ∉ a) : cstring a = a := by
  have h := cstring_append ha []
  rwa [List.append_nil, cstring_nil, List.append_nil] at h

theorem take_cstring {b : Bytes} {i : Nat} (h : i ≤ (cstring b).length) :
    (cstring b).take i = b.take i := by
  have hpre : (cstring b).take i <+: b := (List.take_prefix i _).trans (List.takeWhile_prefix _)
  rw [List.prefix_iff_eq_take, List.length_take, Nat.min_eq_left h] at hpre
  exact hpre

theorem cstring_drop {b : Bytes} {i : Nat} (h : i ≤ (cstring b).length) :
    cstring (b.drop i) = (cstring b).drop i := by
  have htake : (0 : UInt8) ∉ b.take i := by
    rw [← take_cstring h]
    exact fun hmem => zero_not_mem_cstring b (List.mem_of_mem_take hmem)
  have hsplit : cstring b = b.take i ++ cstring (b.drop i) := by
    conv_lhs => rw [← List.take_append_drop i b]
    exact cstring_append htake _
  have hlength : (b.take i).length = i := by
    rw [← take_cstring h, List.length_take, Nat.min_eq_left h]
  conv_rhs => rw [hsplit]
  exact (List.drop_left' hlength).symm

theorem headD_cstring (b : Bytes) : (cstring b).headD 0 = b.headD 0 := by
  cases b with
  | nil => rfl
  | cons c b =>
    by_cases hc : c = 0
    · rw [hc, cstring_zero]
      rfl
    · rw [cstring_cons hc]
      rfl

theorem getD_cstring {b : Bytes} {i : Nat} (h : i ≤ (cstring b).length) :
    (cstring b).getD i 0 = b.getD i 0 := by
  have hhead (a : Bytes) : a.getD i 0 = (a.drop i).headD 0 := by
    rw [List.getD_eq_getElem?_getD, List.headD_eq_head?_getD, List.head?_drop]
  rw [hhead, hhead, ← cstring_drop h, headD_cstring]

/-! ## Lines of a stream -/

/-- A loop reads bytes up to a newline, but no more than `n`; the line and what is left, if the
stream has that many. -/
def takeLine : Nat → Bytes → Option (Bytes × Bytes)
  | _, [] => none
  | n, c :: stream =>
    if c = 10 ∨ n ≤ 1 then some ([c], stream)
    else (takeLine (n - 1) stream).map (fun p => (c :: p.1, p.2))

theorem takeLine_line {line : Bytes} (hline : 10 ∉ line) {n : Nat} (hn : line.length < n)
    (rest : Bytes) : takeLine n (line ++ 10 :: rest) = some (line ++ [10], rest) := by
  induction line generalizing n with
  | nil =>
    rw [List.nil_append, takeLine, if_pos (Or.inl rfl)]
    rfl
  | cons c line ih =>
    rw [List.mem_cons, not_or] at hline
    rw [List.length_cons] at hn
    rw [List.cons_append, takeLine, if_neg, ih hline.2 (by omega)]
    · rfl
    · rintro (hc | hle)
      · exact hline.1 hc.symm
      · omega

/-- At most `n` bytes, up to a newline, and what is left. -/
def lineChunk : Nat → Bytes → Bytes × Bytes
  | 0, s => ([], s)
  | _ + 1, [] => ([], [])
  | n + 1, c :: s => if c = 10 then ([c], s) else (c :: (lineChunk n s).1, (lineChunk n s).2)

/-- `fgets` into a buffer of this size; nothing comes at the end of the file. -/
def fgets (size : Nat) (s : Bytes) : Option (Bytes × Bytes) :=
  if size = 0 then none
  else if size = 1 then some ([], s)
  else if s = [] then none
  else some (lineChunk (size - 1) s)

def physicalLines : Bytes → List Bytes
  | [] => []
  | c :: s =>
    if c = 10 then [c] :: physicalLines s
    else
      match physicalLines s with
      | [] => [[c]]
      | p :: ps => (c :: p) :: ps

theorem physicalLines_flatten (s : Bytes) : (physicalLines s).flatten = s := by
  induction s with
  | nil => rfl
  | cons c s ih =>
    rw [physicalLines]
    split
    · rw [List.flatten_cons, ih]
      rfl
    · cases hs : physicalLines s with
      | nil =>
        rw [hs] at ih
        rw [← ih]
        rfl
      | cons p ps =>
        rw [hs] at ih
        rw [← ih]
        rfl

theorem physicalLines_pos {s p : Bytes} {ps : List Bytes} (hs : physicalLines s = p :: ps) :
    0 < p.length := by
  cases s with
  | nil => cases hs
  | cons c s =>
    rw [physicalLines] at hs
    split at hs
    · obtain ⟨rfl, -⟩ := List.cons.inj hs
      exact Nat.zero_lt_one
    · split at hs
      · obtain ⟨rfl, -⟩ := List.cons.inj hs
        exact Nat.zero_lt_one
      · obtain ⟨rfl, -⟩ := List.cons.inj hs
        exact Nat.succ_pos _

theorem lineChunk_physicalLines {s p : Bytes} {ps : List Bytes} {n : Nat}
    (hs : physicalLines s = p :: ps) (hn : p.length ≤ n) :
    lineChunk n s = (p, ps.flatten) ∧ physicalLines ps.flatten = ps := by
  induction s generalizing p n with
  | nil => cases hs
  | cons c s ih =>
    rw [physicalLines] at hs
    split at hs
    · next hc =>
      obtain ⟨rfl, rfl⟩ := List.cons.inj hs
      obtain ⟨m, rfl⟩ := Nat.exists_eq_add_of_le' hn
      rw [List.length_singleton, lineChunk, if_pos hc, physicalLines_flatten]
      exact ⟨rfl, rfl⟩
    · next hc =>
      split at hs
      · next hnil =>
        obtain ⟨rfl, rfl⟩ := List.cons.inj hs
        obtain ⟨m, rfl⟩ := Nat.exists_eq_add_of_le' hn
        have hempty : s = [] := by
          rw [← physicalLines_flatten s, hnil]
          rfl
        rw [List.length_singleton, lineChunk, if_neg hc, hempty]
        cases m with
        | zero => exact ⟨rfl, rfl⟩
        | succ m => exact ⟨rfl, rfl⟩
      · next q qs hrest =>
        obtain ⟨rfl, rfl⟩ := List.cons.inj hs
        rw [List.length_cons] at hn
        obtain ⟨m, rfl⟩ := Nat.exists_eq_add_of_le' hn
        obtain ⟨hchunk, hps⟩ := ih (n := m + q.length) hrest (Nat.le_add_left _ _)
        rw [← Nat.add_assoc, lineChunk, if_neg hc, hchunk]
        exact ⟨rfl, hps⟩

theorem fgets_physicalLines {s p : Bytes} {ps : List Bytes} {size : Nat}
    (hs : physicalLines s = p :: ps) (hsize : p.length < size) :
    fgets size s = some (p, ps.flatten) ∧ physicalLines ps.flatten = ps := by
  have hne : s ≠ [] := by
    rintro rfl
    cases hs
  have hpos := physicalLines_pos hs
  obtain ⟨hchunk, hps⟩ := lineChunk_physicalLines hs (Nat.le_sub_one_of_lt hsize)
  rw [fgets, if_neg (by omega), if_neg (by omega), if_neg hne, hchunk]
  exact ⟨rfl, hps⟩

end Netkit.Foundations

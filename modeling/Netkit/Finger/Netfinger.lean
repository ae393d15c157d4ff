import Netkit.Foundations.Lines

/-!
# Line ends from the remote host

The loop of `netfinger` in `net.c` that reads the answer and gives it to `xputc`.

* `lineEnds_iff`: the answers that are put out as whole lines.
-/

namespace Netkit.Finger

open Netkit.Foundations

/-- The flags of the loop, and what has been given to `xputc`. -/
structure Netread where
  sawret : Bool
  ateol : Bool
  out : Bytes

def lowered (c : UInt8) : UInt8 := if c = 0x8d ∨ c = 0x8a then c &&& 0x7f else c

def readByte (s : Netread) (c : UInt8) : Netread :=
  let c := lowered c
  if c = 13 then ⟨true, true, s.out ++ [10]⟩
  else if s.sawret ∧ c = 10 then { s with sawret := false }
  else ⟨false, if c = 10 then true else s.ateol, s.out ++ [c]⟩

/-- What `netfinger` gives to `xputc` for the bytes that `getc` returns. -/
def netfinger (stream : Bytes) : Bytes :=
  let s := stream.foldl readByte ⟨false, true, []⟩
  if s.ateol then s.out else s.out ++ [10]

/-! ## Lines -/

def IsEol (c : UInt8) : Prop := lowered c = 13 ∨ lowered c = 10

instance : DecidablePred IsEol := fun c =>
  inferInstanceAs (Decidable (lowered c = 13 ∨ lowered c = 10))

def unified : Bytes → Bytes
  | [] => []
  | [c] => [if IsEol c then 10 else c]
  | c :: d :: s =>
    if lowered c = 13 ∧ lowered d = 10 then 10 :: unified s
    else (if IsEol c then 10 else c) :: unified (d :: s)

def Whole (s : Bytes) : Prop := ∀ c ∈ s.getLast?, IsEol c

instance : DecidablePred Whole := fun s =>
  inferInstanceAs (Decidable (∀ c ∈ s.getLast?, IsEol c))

def LineEnds (stream : Bytes) : Prop :=
  netfinger stream = unified stream ++ (if Whole stream then [] else [10]) ∧
    ∀ c ∈ (netfinger stream).getLast?, c = 10

/-! ## The loop -/

variable {c : UInt8} {s : Bytes}

def afterReturn : Bytes → Bytes
  | [] => []
  | c :: s => if lowered c = 10 then s else c :: s

theorem unified_return (hc : lowered c = 13) (s : Bytes) :
    unified (c :: s) = 10 :: unified (afterReturn s) := by
  have heol : IsEol c := Or.inl hc
  cases s with
  | nil => simp [unified, afterReturn, heol]
  | cons d s =>
    by_cases hd : lowered d = 10
    · simp [unified, afterReturn, hc, hd]
    · simp [unified, afterReturn, hd, heol]

theorem unified_cons (hc : lowered c ≠ 13) (s : Bytes) :
    unified (c :: s) = (if IsEol c then 10 else c) :: unified s := by
  cases s with
  | nil => rfl
  | cons d s => simp [unified, hc]

theorem lowered_eq (hc : lowered c ≠ 13) : lowered c = if IsEol c then 10 else c := by
  by_cases hten : lowered c = 10
  · have heol : IsEol c := Or.inr hten
    rw [if_pos heol, hten]
  · have heol : ¬ IsEol c := not_or.mpr ⟨hc, hten⟩
    rw [if_neg heol]
    unfold lowered at hc hten ⊢
    split
    · next h => rcases h with rfl | rfl <;> contradiction
    · rfl

/-- What has been given to `xputc`. The induction is on what is still to be read. -/
theorem out_foldl (s : Bytes) (t : Netread) :
    (s.foldl readByte t).out = t.out ++ unified (if t.sawret then afterReturn s else s) := by
  induction s generalizing t with
  | nil => cases t.sawret <;> simp [unified, afterReturn]
  | cons c s ih =>
    rw [List.foldl_cons, ih]
    by_cases hret : lowered c = 13
    · have hten : lowered c ≠ 10 := by rw [hret]; decide
      have hafter : afterReturn (c :: s) = c :: s := if_neg hten
      simp [readByte, hret, hafter, unified_return hret]
    · by_cases hdrop : t.sawret ∧ lowered c = 10
      · simp [readByte, hdrop, afterReturn]
      · have hkeep : (if t.sawret then afterReturn (c :: s) else c :: s) = c :: s := by
          cases hsaw : t.sawret with
          | false => rfl
          | true => exact if_neg fun h => hdrop ⟨hsaw, h⟩
        rw [hkeep, unified_cons hret, ← lowered_eq hret]
        simp [readByte, hret, hdrop]

theorem ateol_foldl (s : Bytes) {t : Netread} (ht : t.ateol = true) :
    (s.foldl readByte t).ateol = true := by
  induction s generalizing t with
  | nil => exact ht
  | cons c s ih =>
    refine ih ?_
    simp only [readByte]
    split_ifs <;> first | rfl | exact ht

theorem netfinger_eq (stream : Bytes) : netfinger stream = unified stream := by
  have hout := out_foldl stream ⟨false, true, []⟩
  rw [netfinger, if_pos (ateol_foldl stream rfl)]
  simpa using hout

theorem unified_getLast? (s : Bytes) :
    (unified s).getLast? = s.getLast?.map fun c => if IsEol c then 10 else c := by
  induction s using unified.induct with
  | case1 => rfl
  | case2 c => rfl
  | case3 c d s h ih =>
    have heol : IsEol d := Or.inr h.2
    rw [unified, if_pos h, List.getLast?_cons, ih, List.getLast?_cons_cons, List.getLast?_cons]
    cases s.getLast? <;> simp [heol]
  | case4 c d s h ih =>
    rw [unified, if_neg h, List.getLast?_cons, ih, List.getLast?_cons_cons, List.getLast?_cons]
    rfl

/-- **The answer is put out in whole lines** exactly if it ends with a line end, or is empty. -/
theorem lineEnds_iff (stream : Bytes) : LineEnds stream ↔ Whole stream := by
  rw [LineEnds, netfinger_eq]
  constructor
  · rintro ⟨heq, -⟩
    by_contra hwhole
    rw [if_neg hwhole] at heq
    exact List.cons_ne_nil _ _ (List.self_eq_append_right.mp heq)
  · intro hwhole
    refine ⟨by rw [if_pos hwhole, List.append_nil], fun c hc => ?_⟩
    rw [unified_getLast?] at hc
    obtain ⟨d, hd, rfl⟩ := Option.map_eq_some_iff.mp hc
    exact if_pos (hwhole d hd)

/-- The answer `a` without a line end. -/
theorem not_lineEnds : ¬ ∀ stream, LineEnds stream := by
  intro h
  exact absurd ((lineEnds_iff [97]).mp (h [97])) (by decide)

end Netkit.Finger

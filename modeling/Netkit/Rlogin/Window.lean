import Netkit.Foundations.Inband

/-!
# Window sizes within the data

The rlogin client sends the size of its window as twelve bytes among the data: a magic of four
bytes and the four numbers of `struct winsize` in network order. `rlogind` looks for them in what
one `read` has returned.
-/

namespace Netkit.Rlogin

open Netkit.Foundations

structure Winsize where
  row : UInt16
  col : UInt16
  xpixel : UInt16
  ypixel : UInt16
  deriving DecidableEq, Repr

def htons (x : UInt16) : List UInt8 := [UInt8.ofNat (x.toNat / 256), UInt8.ofNat x.toNat]

def ntohs (high low : UInt8) : UInt16 := UInt16.ofNat (high.toNat * 256 + low.toNat)

theorem ntohs_htons (x : UInt16) :
    ntohs (UInt8.ofNat (x.toNat / 256)) (UInt8.ofNat x.toNat) = x := by
  have hx := x.toNat_lt
  apply UInt16.toNat.inj
  rw [ntohs, UInt16.toNat_ofNat', UInt8.toNat_ofNat', UInt8.toNat_ofNat']
  omega

/-- The bytes of a `struct winsize` whose numbers are in network order. -/
def Winsize.bytes (w : Winsize) : List UInt8 :=
  htons w.row ++ htons w.col ++ htons w.xpixel ++ htons w.ypixel

def Winsize.ofBytes (b : List UInt8) : Winsize where
  row := ntohs (b.getD 0 0) (b.getD 1 0)
  col := ntohs (b.getD 2 0) (b.getD 3 0)
  xpixel := ntohs (b.getD 4 0) (b.getD 5 0)
  ypixel := ntohs (b.getD 6 0) (b.getD 7 0)

theorem Winsize.ofBytes_bytes (w : Winsize) : Winsize.ofBytes w.bytes = w := by
  obtain ⟨row, col, xpixel, ypixel⟩ := w
  exact Winsize.mk.injEq _ _ _ _ _ _ _ _ ▸
    ⟨ntohs_htons row, ntohs_htons col, ntohs_htons xpixel, ntohs_htons ypixel⟩

/-- The character `s`. -/
def letterS : UInt8 := 0x73

def sendwindow (w : Winsize) : List UInt8 := [0xff, 0xff, letterS, letterS] ++ w.bytes

/-! ## rlogind -/

/-- What stands from `cp` on is the message that begins there, or no message: then the answer is 0,
else its length. -/
def control (cp : List UInt8) : Option Winsize :=
  if cp.length < 4 + 8 ∨ cp.getD 2 0 ≠ letterS ∨ cp.getD 3 0 ≠ letterS then none
  else some (.ofBytes ((cp.drop 4).take 8))

/-- One round of the loop `for (cp = fibuf; cp < fibuf+fcc-1; cp++)`: what stands before the first
message, its window size and what stands behind it. -/
def scan : List UInt8 → Option (List UInt8 × Winsize × List UInt8)
  | c0 :: c1 :: cp =>
    let next := (scan (c1 :: cp)).map (fun r => (c0 :: r.1, r.2))
    if c0 = 0xff ∧ c1 = 0xff then
      match control (c0 :: c1 :: cp) with
      | some w => some ([], w, (c0 :: c1 :: cp).drop (4 + 8))
      | none => next
    else next
  | _ => none

/-- One message is removed, and `goto top`. -/
def removeOne (s : List UInt8 × List Winsize) :
    Except (List UInt8 × List Winsize) (List UInt8 × List Winsize) :=
  match scan s.1 with
  | none => .error s
  | some (before, w, behind) => .ok (before ++ behind, s.2 ++ [w])

def top (fibuf : List UInt8) : List UInt8 × List Winsize :=
  outcome removeOne (fun s => s.1.length) ([], []) (fibuf, [])

/-! ## The signal -/

theorem magic_unbordered (u v w : List UInt8) (hu : [0xff, 0xff, letterS, letterS] = u ++ v)
    (hw : [0xff, 0xff, letterS, letterS] = v ++ w) : u = [] ∨ v = [] := by
  have hne : (0xff : UInt8) ≠ letterS := by decide
  rcases u with _ | ⟨a, _ | ⟨b, _ | ⟨c, _ | ⟨d, u⟩⟩⟩⟩
  · exact Or.inl rfl
  all_goals right
  · -- Behind one byte: the magic would go on with an `s` in the second place.
    obtain ⟨-, rfl⟩ := List.cons.inj hu
    obtain ⟨-, h⟩ := List.cons.inj hw
    exact absurd (List.cons.inj h).1 hne
  · obtain ⟨-, rfl⟩ := List.cons.inj (List.cons.inj hu).2
    exact absurd (List.cons.inj hw).1 hne
  · obtain ⟨-, rfl⟩ := List.cons.inj (List.cons.inj (List.cons.inj hu).2).2
    exact absurd (List.cons.inj hw).1 hne
  · exact (List.append_eq_nil_iff.mp
      (List.cons.inj (List.cons.inj (List.cons.inj (List.cons.inj hu).2).2).2).2.symm).2

def window : Signal UInt8 Winsize where
  marker := [0xff, 0xff, letterS, letterS]
  size := 8
  encode := Winsize.bytes
  decode := Winsize.ofBytes
  marker_ne_nil := List.cons_ne_nil _ _
  unbordered := magic_unbordered
  length_encode := fun _ => rfl
  decode_encode := Winsize.ofBytes_bytes

theorem starts_iff (c0 c1 : UInt8) (cp : List UInt8) :
    window.Starts (c0 :: c1 :: cp) ↔
      (c0 = 0xff ∧ c1 = 0xff) ∧ (control (c0 :: c1 :: cp)).isSome := by
  have hmarker : window.marker = [0xff, 0xff, letterS, letterS] := rfl
  have hsize : window.marker.length + window.size = 4 + 8 := rfl
  rw [Signal.Starts, hsize, hmarker, control]
  cases cp with
  | nil => simp
  | cons c2 cp =>
    cases cp with
    | nil => simp
    | cons c3 cp =>
      simp only [List.cons_prefix_cons, List.nil_prefix, and_true, List.getD_cons_succ,
        List.getD_cons_zero]
      split
      · simp only [Option.isSome_none, Bool.false_eq_true, and_false, iff_false]
        rintro ⟨⟨-, -, h2, h3⟩, hle⟩
        rename_i hor
        rcases hor with hlt | hne | hne
        · omega
        · exact hne h2.symm
        · exact hne h3.symm
      · simp only [Option.isSome_some, and_true]
        rename_i hor
        push Not at hor
        constructor
        · rintro ⟨⟨h0, h1, -⟩, -⟩
          exact ⟨h0.symm, h1.symm⟩
        · rintro ⟨rfl, rfl⟩
          exact ⟨⟨rfl, rfl, hor.2.1.symm, hor.2.2.symm⟩, hor.1⟩

theorem control_of_starts {l : List UInt8} (h : window.Starts l) :
    control l = some (window.value l) := by
  obtain ⟨⟨t, rfl⟩, hlength⟩ := h
  have hlong : ¬ (window.marker ++ t).length < 4 + 8 := Nat.not_lt.mpr hlength
  have hsecond : (window.marker ++ t).getD 2 0 = letterS := rfl
  have hthird : (window.marker ++ t).getD 3 0 = letterS := rfl
  rw [control, hsecond, hthird, if_neg (fun hor => ?_)]
  · rfl
  · rcases hor with hlt | hne | hne
    · exact hlong hlt
    · exact hne rfl
    · exact hne rfl

theorem scan_eq (l : List UInt8) : scan l = window.find l := by
  induction l with
  | nil => rfl
  | cons c0 l ih =>
    cases l with
    | nil =>
      have hshort : window.find [c0] = none := Signal.find_of_short (show 1 < 4 + 8 by decide)
      exact hshort.symm
    | cons c1 cp =>
      rw [scan, ih]
      by_cases hstarts : window.Starts (c0 :: c1 :: cp)
      · rw [Signal.find_of_starts hstarts, if_pos ((starts_iff c0 c1 cp).mp hstarts).1,
          control_of_starts hstarts]
        rfl
      · rw [Signal.find_of_not_starts hstarts]
        split
        · have hnone : control (c0 :: c1 :: cp) = none := by
            rw [starts_iff, not_and, Option.not_isSome_iff_eq_none] at hstarts
            exact hstarts ‹_›
          rw [hnone]
        · rfl

theorem top_eq (fibuf : List UInt8) : top fibuf = window.strip fibuf := by
  have hstep : removeOne = window.stripStep := by
    funext s
    rw [removeOne, Signal.stripStep, scan_eq]
    cases window.find s.1 <;> rfl
  rw [top, Signal.strip, hstep]

end Netkit.Rlogin

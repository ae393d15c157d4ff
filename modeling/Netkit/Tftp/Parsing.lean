import Mathlib.Data.List.GetD
import Netkit.Foundations.Lines
import Netkit.Tftp.Buffers

/-!
# A request in the buffer of tftpd

`tftp` of `tftpd.c` with the buffer that the request stands in. The scan for the NULs ends behind
the datagram at the latest, and the byte at which it ends is looked at even there: it may be left
from before, or lie behind the buffer.

* `readsOnly_iff`: when this is so.
-/

namespace Netkit.Tftp

open Netkit.Foundations

/-! ## The scan -/

/-- `while (cp < buf + size)`, with as many bytes left as the first number says. -/
def scan (mem : ℕ → UInt8) : ℕ → ℕ → ℕ
  | 0, cp => cp
  | left + 1, cp => if mem cp = NUL then cp else scan mem left (cp + 1)

def bytesAt (mem : ℕ → UInt8) (start stop : ℕ) : Bytes :=
  (List.range (stop - start)).map (fun i => mem (start + i))

def findFormat (filename mode : Bytes) : Option (Bytes × Bool) :=
  (formats.find? (fun pf => pf.1 == mode.map tolower)).map (fun pf => (filename, pf.2))

/-- `tftp`, as far as `validate_access`, on a datagram of `size` bytes at the beginning of the
memory. Where the second scan has ended is the first NUL from `mode` on. -/
def tftpAt (mem : ℕ → UInt8) (size : ℕ) : Option (Bytes × Bool) :=
  let cp := scan mem (size - 2) 2
  if mem cp ≠ NUL then none
  else
    let mode := cp + 1
    let stop := scan mem (size - mode) mode
    if mem stop ≠ NUL then none else findFormat (bytesAt mem 2 cp) (bytesAt mem mode stop)

/-! ## What it comes to -/

def split : Bytes → Option (Bytes × Bytes)
  | [] => none
  | c :: cs => if c = NUL then some ([], cs) else (split cs).map (fun p => (c :: p.1, p.2))

theorem split_eq_none {s : Bytes} : split s = none ↔ NUL ∉ s := by
  induction s with
  | nil => exact iff_of_true rfl List.not_mem_nil
  | cons c s ih =>
    rw [split, List.mem_cons, not_or]
    split
    · next hc => exact iff_of_false (Option.some_ne_none _) (fun h => h.1 hc.symm)
    · next hc =>
      rw [Option.map_eq_none_iff, ih]
      exact ⟨fun h => ⟨fun heq => hc heq.symm, h⟩, fun h => h.2⟩

theorem split_eq_some {s front back : Bytes} :
    split s = some (front, back) ↔ s = front ++ NUL :: back ∧ NUL ∉ front := by
  induction s generalizing front with
  | nil =>
    refine iff_of_false (Option.some_ne_none _).symm (fun h => ?_)
    exact absurd h.1.symm (List.append_ne_nil_of_right_ne_nil front (List.cons_ne_nil NUL back))
  | cons c s ih =>
    rw [split]
    split
    · next hc =>
      subst hc
      constructor
      · intro h
        obtain ⟨rfl, rfl⟩ := Prod.mk.inj (Option.some.inj h)
        exact ⟨rfl, List.not_mem_nil⟩
      · rintro ⟨h, hfront⟩
        cases front with
        | nil => rw [(List.cons.inj h).2]
        | cons d front =>
          exact absurd (List.mem_cons.mpr (Or.inl (List.cons.inj h).1)) hfront
    · next hc =>
      constructor
      · intro h
        obtain ⟨p, hp, heq⟩ := Option.map_eq_some_iff.mp h
        obtain ⟨rfl, rfl⟩ := Prod.mk.inj heq
        obtain ⟨rfl, hfront⟩ := ih.mp hp
        exact ⟨rfl, fun hmem => (List.mem_cons.mp hmem).elim (fun h => hc h.symm) hfront⟩
      · rintro ⟨h, hfront⟩
        cases front with
        | nil => exact absurd (List.cons.inj h).1 hc
        | cons d front =>
          obtain ⟨rfl, hs⟩ := List.cons.inj h
          rw [ih.mpr ⟨hs, fun hmem => hfront (List.mem_cons_of_mem _ hmem)⟩]
          rfl

/-- The memory begins with these bytes, from `start` on. -/
def Holds (mem : ℕ → UInt8) (start : ℕ) (s : Bytes) : Prop :=
  ∀ i, (hi : i < s.length) → mem (start + i) = s[i]

variable {mem mem' : ℕ → UInt8} {start : ℕ} {s t : Bytes}

theorem Holds.left (h : Holds mem start (s ++ t)) : Holds mem start s := by
  intro i hi
  have := h i (by rw [List.length_append]; omega)
  rwa [List.getElem_append_left hi] at this

theorem Holds.right (h : Holds mem start (s ++ t)) : Holds mem (start + s.length) t := by
  intro i hi
  have := h (s.length + i) (by rw [List.length_append]; omega)
  rw [List.getElem_append_right (Nat.le_add_right _ _)] at this
  simp only [Nat.add_sub_cancel_left] at this
  rw [Nat.add_assoc, this]

theorem Holds.head {c : UInt8} (h : Holds mem start (c :: s)) : mem start = c :=
  h 0 (Nat.succ_pos _)

theorem Holds.tail {c : UInt8} (h : Holds mem start (c :: s)) : Holds mem (start + 1) s :=
  @Holds.right mem start [c] s h

theorem Holds.bytesAt (h : Holds mem start s) : bytesAt mem start (start + s.length) = s := by
  refine List.ext_getElem (by simp [Tftp.bytesAt]) (fun i _ hi => ?_)
  simp only [Tftp.bytesAt, List.getElem_map, List.getElem_range]
  exact h i hi

theorem scan_passes (h : Holds mem start s) (hs : NUL ∉ s) (left : ℕ) :
    scan mem (s.length + left) start = scan mem left (start + s.length) := by
  induction s generalizing start with
  | nil => rw [List.length_nil, Nat.zero_add, Nat.add_zero]
  | cons c s ih =>
    have hc : mem start ≠ NUL := by
      rw [h.head]
      exact fun heq => hs (List.mem_cons.mpr (Or.inl heq.symm))
    have hindex : (c :: s).length + left = (s.length + left) + 1 := by
      rw [List.length_cons]
      omega
    rw [hindex, scan, if_neg hc, ih h.tail (fun hmem => hs (List.mem_cons_of_mem c hmem)),
      List.length_cons]
    congr 1
    omega

theorem scan_stops (h : Holds mem start (s ++ NUL :: t)) (hs : NUL ∉ s) :
    scan mem (s ++ NUL :: t).length start = start + s.length := by
  rw [List.length_append, List.length_cons, scan_passes h.left hs, scan, if_pos h.right.head]

/-- What `tftp` finds, by the datagram and the byte behind it. -/
theorem tftpAt_eq {d : Bytes} (h : Holds mem 0 d) : tftpAt mem d.length =
    match split (d.drop 2) with
    | none => none
    | some (filename, rest) =>
      match split rest with
      | some (mode, _) => findFormat filename mode
      | none => if mem d.length = NUL then findFormat filename rest else none := by
  have hstuff : Holds mem 2 (d.drop 2) := by
    intro i hi
    rw [List.length_drop] at hi
    rw [List.getElem_drop, ← h (2 + i) (by omega), Nat.zero_add]
  have hsize : d.length - 2 = (d.drop 2).length := List.length_drop.symm
  unfold tftpAt
  rw [hsize]
  cases hsplit : split (d.drop 2) with
  | none =>
    have hno := split_eq_none.mp hsplit
    have hend : scan mem (d.drop 2).length 2 = 2 + (d.drop 2).length := scan_passes hstuff hno 0
    have hnone (filename : Bytes) : findFormat filename [] = none := rfl
    dsimp only
    rw [hend]
    split
    · rfl
    · have hleft : d.length - (2 + (d.drop 2).length + 1) = 0 := by
        rw [List.length_drop]
        omega
      rw [hleft, scan]
      split
      · rfl
      · have hempty (k : ℕ) : bytesAt mem k k = [] := by
          rw [bytesAt, Nat.sub_self]
          rfl
        rw [hempty]
        exact hnone _
  | some p =>
    obtain ⟨filename, rest⟩ := p
    obtain ⟨hd, hfilename⟩ := split_eq_some.mp hsplit
    rw [hd] at hstuff
    have hlength : d.length = 2 + (filename.length + (rest.length + 1)) := by
      have := congrArg List.length hd
      rw [List.length_append, List.length_cons, List.length_drop] at this
      omega
    have hmode : Holds mem (2 + filename.length + 1) rest := hstuff.right.tail
    have hleft : d.length - (2 + filename.length + 1) = rest.length := by omega
    dsimp only
    rw [hd, scan_stops hstuff hfilename, if_neg (not_not.mpr hstuff.right.head), hleft,
      hstuff.left.bytesAt]
    cases hrest : split rest with
    | none =>
      have hend : scan mem rest.length (2 + filename.length + 1) =
          2 + filename.length + 1 + rest.length := scan_passes hmode (split_eq_none.mp hrest) 0
      have hsize : 2 + filename.length + 1 + rest.length = d.length := by omega
      dsimp only
      rw [hend, hmode.bytesAt, hsize, ite_not]
    | some q =>
      obtain ⟨mode, behind⟩ := q
      obtain ⟨rfl, hno⟩ := split_eq_some.mp hrest
      dsimp only
      rw [scan_stops hmode hno, if_neg (not_not.mpr hmode.right.head), hmode.left.bytesAt]

/-! ## Only the datagram -/

def IsMode (mode : Bytes) : Prop :=
  mode.map tolower = Mode.netascii.name ∨ mode.map tolower = Mode.octet.name

instance (mode : Bytes) : Decidable (IsMode mode) := inferInstanceAs (Decidable (_ ∨ _))

/-- What is served stands in the datagram, with its NULs: the name of a file and a mode. Neither
whether something is served nor the name depends on what is behind the datagram. -/
structure ReadsOnly (d : Bytes) : Prop where
  served : ∀ mem, Holds mem 0 d → ∀ filename convert,
    tftpAt mem d.length = some (filename, convert) → ∃ mode rest,
      d.drop 2 = filename ++ NUL :: (mode ++ NUL :: rest) ∧ NUL ∉ filename ∧ NUL ∉ mode ∧
        IsMode mode
  same : ∀ mem mem', Holds mem 0 d → Holds mem' 0 d → tftpAt mem d.length = tftpAt mem' d.length

def endsInMode (d : Bytes) : Bool :=
  (split (d.drop 2)).any (fun p => (split p.2).isNone && decide (IsMode p.2))

theorem findFormat_isSome (filename mode : Bytes) :
    (∃ convert, findFormat filename mode = some (filename, convert)) ↔ IsMode mode := by
  unfold findFormat formats IsMode
  by_cases hnetascii : mode.map tolower = Mode.netascii.name
  · rw [hnetascii]
    exact iff_of_true ⟨true, rfl⟩ (Or.inl rfl)
  · by_cases hoctet : mode.map tolower = Mode.octet.name
    · rw [hoctet]
      exact iff_of_true ⟨false, rfl⟩ (Or.inr rfl)
    · refine iff_of_false ?_ (not_or.mpr ⟨hnetascii, hoctet⟩)
      rintro ⟨convert, h⟩
      obtain ⟨pf, hpf, -⟩ := Option.map_eq_some_iff.mp h
      have hname := List.find?_some hpf
      have hmem := List.mem_of_find?_eq_some hpf
      rw [beq_iff_eq] at hname
      rcases List.mem_cons.mp hmem with rfl | hmem
      · exact hnetascii hname.symm
      · rw [List.mem_singleton.mp hmem] at hname
        exact hoctet hname.symm

theorem findFormat_name {filename mode name : Bytes} {convert : Bool}
    (h : findFormat filename mode = some (name, convert)) : name = filename ∧ IsMode mode := by
  obtain ⟨pf, hpf, heq⟩ := Option.map_eq_some_iff.mp h
  obtain ⟨rfl, rfl⟩ := Prod.mk.inj heq
  exact ⟨rfl, (findFormat_isSome filename mode).mp ⟨pf.2, h⟩⟩

/-- The memory in which the datagram is followed by one byte again and again. -/
def followed (d : Bytes) (c : UInt8) : ℕ → UInt8 := fun i => d.getD i c

theorem followed_holds (d : Bytes) (c : UInt8) : Holds (followed d c) 0 d := by
  intro i hi
  rw [followed, Nat.zero_add, List.getD_eq_getElem _ _ hi]

theorem followed_behind (d : Bytes) (c : UInt8) : followed d c d.length = c := by
  rw [followed, List.getD_eq_default _ _ (Nat.le_refl _)]

/-- **tftpd serves only what stands in the datagram**, exactly if the datagram does not end in a
mode without its NUL. -/
theorem readsOnly_iff (d : Bytes) : ReadsOnly d ↔ endsInMode d = false := by
  unfold endsInMode
  cases hsplit : split (d.drop 2) with
  | none =>
    have hnone (mem : ℕ → UInt8) (h : Holds mem 0 d) : tftpAt mem d.length = none := by
      rw [tftpAt_eq h, hsplit]
    refine iff_of_true ⟨fun mem h filename convert hserved => ?_, fun mem mem' h h' => ?_⟩ rfl
    · rw [hnone mem h] at hserved
      cases hserved
    · rw [hnone mem h, hnone mem' h']
  | some p =>
    obtain ⟨filename, rest⟩ := p
    obtain ⟨hd, hfilename⟩ := split_eq_some.mp hsplit
    rw [Option.any_some]
    cases hrest : split rest with
    | some q =>
      obtain ⟨mode, behind⟩ := q
      obtain ⟨rfl, hmode⟩ := split_eq_some.mp hrest
      have hfound (mem : ℕ → UInt8) (h : Holds mem 0 d) :
          tftpAt mem d.length = findFormat filename mode := by
        rw [tftpAt_eq h, hsplit]
        dsimp only
        rw [hrest]
      refine iff_of_true ⟨fun mem h name convert hserved => ?_, fun mem mem' h h' => ?_⟩ rfl
      · rw [hfound mem h] at hserved
        obtain ⟨rfl, hknown⟩ := findFormat_name hserved
        exact ⟨mode, behind, hd, hfilename, hmode, hknown⟩
      · rw [hfound mem h, hfound mem' h']
    | none =>
      have hno := split_eq_none.mp hrest
      have hfound (mem : ℕ → UInt8) (h : Holds mem 0 d) : tftpAt mem d.length =
          if mem d.length = NUL then findFormat filename rest else none := by
        rw [tftpAt_eq h, hsplit]
        dsimp only
        rw [hrest]
      rw [Option.isNone_none, Bool.true_and, decide_eq_false_iff_not]
      constructor
      · rintro ⟨-, hsame⟩ hknown
        obtain ⟨convert, hformat⟩ := (findFormat_isSome filename rest).mpr hknown
        have hagree := hsame _ _ (followed_holds d NUL) (followed_holds d LF)
        rw [hfound _ (followed_holds d NUL), hfound _ (followed_holds d LF), followed_behind,
          followed_behind, if_pos rfl, if_neg (by decide), hformat] at hagree
        cases hagree
      · intro hunknown
        have hnone (mem : ℕ → UInt8) (h : Holds mem 0 d) : tftpAt mem d.length = none := by
          rw [hfound mem h]
          split
          · cases hformat : findFormat filename rest with
            | none => rfl
            | some r =>
              obtain ⟨name, convert⟩ := r
              exact absurd (findFormat_name hformat).2 hunknown
          · rfl
        refine ⟨fun mem h name convert hserved => ?_, fun mem mem' h h' => ?_⟩
        · rw [hnone mem h] at hserved
          cases hserved
        · rw [hnone mem h, hnone mem' h']

/-- `x` and `octet`, without the last NUL: served if a NUL is left in the buffer from before, and
refused otherwise. -/
theorem not_readsOnly_octet :
    ¬ ReadsOnly [0, 1, 120, 0, 111, 99, 116, 101, 116] := by
  rintro ⟨-, hsame⟩
  have hagree := hsame _ _ (followed_holds _ NUL) (followed_holds _ LF)
  exact absurd hagree (by decide)

end Netkit.Tftp

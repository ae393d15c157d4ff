import Netkit.Ftp.Getreply

/-!
# One reply a call

Each call of `getreply` consumes one reply and returns its first digit, as long as no line in
the middle of a reply begins with the code and something other than a hyphen.

* `inStep_iff`: the replies for which that is so.
-/

namespace Netkit.Ftp

open Netkit.Foundations

variable {m : Mode} {s t : Scan} {c : UInt8} {w : Bytes}

/-! ## A character -/

/-- `pasv` has its size, and there is room for the NUL. -/
def Room (s : Scan) : Prop := s.pasv.length = 64 ∧ s.px ≤ 63

/-- The value of `code` when a character has been looked at. -/
def accumulated (s : Scan) (c : UInt8) : Nat :=
  if s.dig < 3 ∧ isdigit c then s.code * 10 + (c.toNat - 48) else s.code

/-- The value of `pflag` when the address is looked at. -/
def flagged (pflag code dig : Nat) (c : UInt8) : Nat :=
  let pflag := if pflag = 0 ∧ code = 227 then 1 else pflag
  if 4 < dig ∧ pflag = 1 ∧ isdigit c then 2 else pflag

/-- `pflag`, `px` and `pasv` behind a character. -/
def captured (pflag px : Nat) (pasv : Bytes) (c : UInt8) : Nat × Nat × Bytes :=
  if pflag = 2 then
    if c ≠ 13 ∧ c ≠ 41 then
      if px < 63 then (2, px + 1, pasv.set px c) else (2, px, pasv)
    else (3, px, pasv.set px 0)
  else (pflag, px, pasv)

/-- The code, the counters, the first character and the address behind one more character. -/
structure CharRead (s : Scan) (c : UInt8) (t : Scan) : Prop where
  dig : t.dig = s.dig + 1
  code : t.code =
    if s.dig = 3 ∧ c = 45 ∧ s.continuation ≠ 0 then 0 else accumulated s c
  continuation : t.continuation = s.continuation + if s.dig = 3 ∧ c = 45 then 1 else 0
  n : t.n = if s.n = 0 then c else s.n
  originalcode : t.originalcode = s.originalcode
  connected : t.connected = s.connected
  address : (t.pflag, t.px, t.pasv) =
    captured (flagged s.pflag (accumulated s c) (s.dig + 1) c) s.px s.pasv c

theorem increment_of_lt {x : Nat} (h : x < 2147483647) : increment x = .ok (x + 1) := if_pos h

theorem increment_of_le {x : Nat} (h : 2147483647 ≤ x) : increment x = .error .overflow :=
  if_neg (Nat.not_lt.mpr h)

theorem putchar_eq (m : Mode) (c : UInt8) (s : Scan) :
    ∃ out, s.putchar m c = { s with stdout := out } := by
  unfold Scan.putchar
  split
  · exact ⟨_, rfl⟩
  · exact ⟨s.stdout, rfl⟩

theorem accumulate_eq (c : UInt8) (s : Scan) :
    ({ s with dig := s.dig + 1 } : Scan).accumulate c =
      { s with dig := s.dig + 1, code := accumulated s c } := by
  have hdig : s.dig + 1 < 4 ↔ s.dig < 3 := by omega
  unfold Scan.accumulate accumulated
  simp only [hdig]
  split <;> rfl

theorem flag_eq (c : UInt8) (s : Scan) :
    s.flag c = { s with pflag := flagged s.pflag s.code s.dig c } := by
  unfold Scan.flag flagged
  dsimp only
  split
  · split <;> rfl
  · split <;> rfl

theorem store_ok {pasv : Bytes} {px : Nat} (h : px < pasv.length) (c : UInt8) :
    store pasv px c = .ok (pasv.set px c) := if_pos h

theorem capture_eq (c : UInt8) (hroom : Room s) : s.capture c = .ok { s with
    pflag := (captured s.pflag s.px s.pasv c).1
    px := (captured s.pflag s.px s.pasv c).2.1
    pasv := (captured s.pflag s.px s.pasv c).2.2 } := by
  obtain ⟨hlength, hpx⟩ := hroom
  unfold Scan.capture captured
  rw [store_ok (by omega) c, store_ok (by omega) 0]
  split
  · next hflag =>
    split
    · split
      · rw [← hflag]
        rfl
      · rw [← hflag]
    · rfl
  · rfl

theorem captured_room {pflag px : Nat} {pasv : Bytes} (c : UInt8) (hlength : pasv.length = 64)
    (hpx : px ≤ 63) :
    (captured pflag px pasv c).2.2.length = 64 ∧ (captured pflag px pasv c).2.1 ≤ 63 := by
  unfold captured
  split
  · split
    · split
      · exact ⟨(List.length_set ..).trans hlength, by dsimp only; omega⟩
      · exact ⟨hlength, hpx⟩
    · exact ⟨(List.length_set ..).trans hlength, hpx⟩
  · exact ⟨hlength, hpx⟩

theorem CharRead.room (h : CharRead s c t) (hroom : Room s) : Room t := by
  have hcaptured := @captured_room (flagged s.pflag (accumulated s c) (s.dig + 1) c) _ _
    c hroom.1 hroom.2
  rw [← h.address] at hcaptured
  exact hcaptured

theorem hyphen_eq (c : UInt8) (s : Scan) : s.hyphen c =
    if s.dig = 4 ∧ c = 45 then
      if s.continuation < 2147483647 then .ok { s with
        code := if s.continuation ≠ 0 then 0 else s.code
        continuation := s.continuation + 1 }
      else .error .overflow
    else .ok s := by
  unfold Scan.hyphen
  by_cases hlt : s.continuation < 2147483647
  · rw [increment_of_lt hlt, if_pos hlt]
    rfl
  · rw [increment_of_le (Nat.not_lt.mp hlt), if_neg hlt]
    rfl

theorem counted_eq (m : Mode) (c : UInt8) (s : Scan) : ∃ out,
    ((({ s with dig := s.dig + 1 } : Scan).putchar m c).accumulate c).flag c = { s with
      dig := s.dig + 1
      code := accumulated s c
      stdout := out
      pflag := flagged s.pflag (accumulated s c) (s.dig + 1) c } := by
  obtain ⟨out, hout⟩ := putchar_eq m c { s with dig := s.dig + 1 }
  refine ⟨out, ?_⟩
  rw [hout, flag_eq]
  have haccumulate := accumulate_eq c { s with stdout := out }
  dsimp only at haccumulate ⊢
  rw [haccumulate]
  rfl

theorem char_eq (m : Mode) (c : UInt8) (hroom : Room s) : ∃ out,
    s.char m c = (if s.dig < 2147483647 then
      (({ s with
        dig := s.dig + 1
        code := accumulated s c
        stdout := out
        pflag := (captured (flagged s.pflag (accumulated s c) (s.dig + 1) c) s.px s.pasv c).1
        px := (captured (flagged s.pflag (accumulated s c) (s.dig + 1) c) s.px s.pasv c).2.1
        pasv := (captured (flagged s.pflag (accumulated s c) (s.dig + 1) c) s.px s.pasv c).2.2 }
          : Scan).hyphen c).map (fun u => u.keep c)
      else .error .overflow) := by
  obtain ⟨out, hcounted⟩ := counted_eq m c s
  refine ⟨out, ?_⟩
  unfold Scan.char
  split
  · next hlt =>
    rw [increment_of_lt hlt]
    simp only [bind, Except.bind, pure, Except.pure]
    rw [hcounted, capture_eq]
    · dsimp only
      cases Scan.hyphen c _ with
      | error e => rfl
      | ok u => rfl
    · exact hroom
  · next hle =>
    rw [increment_of_le (Nat.not_lt.mp hle)]
    rfl

theorem char_ok (hdig : s.dig < 2147483647)
    (hhyphen : s.dig = 3 → c = 45 → s.continuation < 2147483647) (hroom : Room s) :
    ∃ t, s.char m c = .ok t ∧ CharRead s c t := by
  obtain ⟨out, hchar⟩ := char_eq m c hroom
  rw [if_pos hdig, hyphen_eq] at hchar
  by_cases hcont : s.dig = 3 ∧ c = 45
  · rw [if_pos ⟨by dsimp only; omega, hcont.2⟩, if_pos (hhyphen hcont.1 hcont.2)] at hchar
    refine ⟨_, hchar, rfl, ?_, ?_, rfl, rfl, rfl, rfl⟩
    · simp [Scan.keep, hcont]
    · simp [Scan.keep, hcont]
  · rw [if_neg (fun h => hcont ⟨Nat.succ.inj h.1, h.2⟩)] at hchar
    refine ⟨_, hchar, rfl, ?_, ?_, rfl, rfl, rfl, rfl⟩
    · have hnot : ¬ (s.dig = 3 ∧ c = 45 ∧ s.continuation ≠ 0) := fun h => hcont ⟨h.1, h.2.1⟩
      rw [if_neg hnot]
      rfl
    · rw [if_neg hcont]
      rfl

theorem char_error (hroom : Room s)
    (h : 2147483647 ≤ s.dig ∨ s.dig = 3 ∧ c = 45 ∧ 2147483647 ≤ s.continuation) :
    s.char m c = .error .overflow := by
  obtain ⟨out, hchar⟩ := char_eq m c hroom
  rw [hchar]
  split
  · next hlt =>
    rcases h with h | ⟨hdig, rfl, hcont⟩
    · omega
    · rw [hyphen_eq, if_pos ⟨by dsimp only; omega, rfl⟩, if_neg (by dsimp only; omega)]
      rfl
  · rfl

/-! ## A line -/

def codeNumber (w : Bytes) : Nat :=
  ((w.take 3).filter isdigit).foldl (fun code c => code * 10 + (c.toNat - 48)) 0

def Hyphened (w : Bytes) : Prop := w[3]? = some 45

instance (w : Bytes) : Decidable (Hyphened w) := inferInstanceAs (Decidable (_ = _))

theorem codeNumber_snoc (w : Bytes) (c : UInt8) : codeNumber (w ++ [c]) =
    if w.length < 3 ∧ isdigit c then codeNumber w * 10 + (c.toNat - 48) else codeNumber w := by
  unfold codeNumber
  by_cases hlt : w.length < 3
  · rw [List.take_of_length_le (by rw [List.length_append]; simp; omega),
      List.take_of_length_le (by omega), List.filter_append, List.foldl_append]
    cases hdigit : isdigit c with
    | true => simp [hlt, hdigit]
    | false => simp [hdigit]
  · rw [List.take_append_of_le_length (by omega), if_neg (fun h => hlt h.1)]

theorem hyphened_snoc (w : Bytes) (c : UInt8) :
    Hyphened (w ++ [c]) ↔ Hyphened w ∨ w.length = 3 ∧ c = 45 := by
  unfold Hyphened
  rcases Nat.lt_trichotomy w.length 3 with hlt | heq | hlt
  · rw [List.getElem?_eq_none (by rw [List.length_append]; simp; omega),
      List.getElem?_eq_none (by omega)]
    simp
    omega
  · have hnone : w[3]? = none := List.getElem?_eq_none (by omega)
    rw [List.getElem?_append_right (by omega), hnone, heq]
    simp
  · rw [List.getElem?_append_left hlt]
    constructor
    · exact Or.inl
    · exact fun h => h.elim id (fun h => absurd h.1 (by omega))

theorem hyphened_length (h : Hyphened w) : 3 < w.length := by
  by_contra hle
  rw [Hyphened, List.getElem?_eq_none (by omega)] at h
  cases h

/-- The address behind the characters `w`, when `v` has been read before; `k` is the number of
lines that went on. -/
def addressAfter (k : Nat) : Bytes → Bytes → Nat × Nat × Bytes → Nat × Nat × Bytes
  | _, [], a => a
  | v, c :: w, a =>
    addressAfter k (v ++ [c]) w (captured
      (flagged a.1 (if Hyphened v ∧ k ≠ 0 then 0 else codeNumber (v ++ [c])) (v.length + 1) c)
      a.2.1 a.2.2 c)

theorem addressAfter_append (k : Nat) (v w w' : Bytes) (a : Nat × Nat × Bytes) :
    addressAfter k v (w ++ w') a = addressAfter k (v ++ w) w' (addressAfter k v w a) := by
  induction w generalizing v a with
  | nil => rw [List.nil_append, List.append_nil]; rfl
  | cons c w ih =>
    rw [List.cons_append, addressAfter, ih, List.append_assoc]
    rfl

/-- What the inner loop knows when it has read `w` on a line that began with `s`. -/
structure InLine (s : Scan) (w : Bytes) (t : Scan) : Prop where
  dig : t.dig = w.length
  code : t.code = if Hyphened w ∧ s.continuation ≠ 0 then 0 else codeNumber w
  continuation : t.continuation = s.continuation + if Hyphened w then 1 else 0
  empty : w = [] → t.n = 0
  n : ∀ d, w.head? = some d → d ≠ 0 → t.n = d
  originalcode : t.originalcode = s.originalcode
  connected : t.connected = s.connected
  room : Room t
  address : (t.pflag, t.px, t.pasv) =
    addressAfter s.continuation [] w (s.pflag, s.px, s.pasv)

/-- The line begins with `s`. -/
structure AtLine (s : Scan) : Prop where
  dig : s.dig = 0
  n : s.n = 0
  code : s.code = 0
  room : Room s

theorem AtLine.inLine (h : AtLine s) : InLine s [] s where
  dig := h.dig
  code := by rw [h.code]; rfl
  continuation := rfl
  empty := fun _ => h.n
  n := fun d hd => by cases hd
  originalcode := rfl
  connected := rfl
  room := h.room
  address := rfl

theorem InLine.accumulated (h : InLine s w t) (c : UInt8) :
    accumulated t c = if Hyphened w ∧ s.continuation ≠ 0 then 0 else codeNumber (w ++ [c]) := by
  unfold Ftp.accumulated
  rw [h.dig, h.code, codeNumber_snoc]
  by_cases hhyphen : Hyphened w ∧ s.continuation ≠ 0
  · have hlong := hyphened_length hhyphen.1
    rw [if_pos hhyphen, if_pos hhyphen, if_neg (by omega)]
  · rw [if_neg hhyphen, if_neg hhyphen]

theorem InLine.char {u : Scan} (h : InLine s w t) (hread : CharRead t c u) :
    InLine s (w ++ [c]) u where
  dig := by rw [hread.dig, h.dig, List.length_append]; rfl
  code := by
    rw [hread.code, h.accumulated, h.continuation, h.dig]
    simp only [hyphened_snoc]
    by_cases hthird : w.length = 3 ∧ c = 45
    · have hnot : ¬ Hyphened w := fun hw => absurd (hyphened_length hw) (by omega)
      simp [hthird, hnot]
    · have hnot : ¬ (w.length = 3 ∧ c = 45 ∧
          s.continuation + (if Hyphened w then 1 else 0) ≠ 0) := fun hw => hthird ⟨hw.1, hw.2.1⟩
      rw [if_neg hnot]
      simp [hthird]
  continuation := by
    rw [hread.continuation, h.continuation, h.dig]
    simp only [hyphened_snoc]
    by_cases hthird : w.length = 3 ∧ c = 45
    · have hnot : ¬ Hyphened w := fun hw => absurd (hyphened_length hw) (by omega)
      simp [hthird, hnot]
    · simp [hthird]
  empty := fun hw => absurd hw (by simp)
  n := fun d hd hzero => by
    rw [hread.n]
    cases hw : w with
    | nil =>
      rw [hw] at hd
      rw [h.empty hw, if_pos rfl]
      exact Option.some.inj hd
    | cons e w' =>
      rw [hw] at hd
      obtain rfl := Option.some.inj hd
      rw [h.n e (by rw [hw]; rfl) hzero, if_neg hzero]
  originalcode := hread.originalcode.trans h.originalcode
  connected := hread.connected.trans h.connected
  room := hread.room h.room
  address := by
    rw [hread.address, h.accumulated, h.dig, addressAfter_append, ← h.address]
    rfl

/-! ## The characters of a line -/

/-- No counter overflows on a line that `k` lines that go on came before. -/
def Fits (k : Nat) (w : Bytes) : Prop :=
  w.length ≤ 2147483647 ∧ (Hyphened w → k < 2147483647)

theorem fits_of_append {k : Nat} {w v : Bytes} (h : Fits k (w ++ v)) : Fits k w := by
  refine ⟨?_, fun hhyphen => h.2 ?_⟩
  · have hlength := h.1
    rw [List.length_append] at hlength
    omega
  · unfold Hyphened at hhyphen ⊢
    rw [List.getElem?_append_left (hyphened_length hhyphen)]
    exact hhyphen

theorem fits_snoc {k : Nat} (h : Fits k w) : Fits k (w ++ [c]) ↔
    w.length < 2147483647 ∧ (w.length = 3 → c = 45 → k < 2147483647) := by
  unfold Fits
  rw [hyphened_snoc, List.length_append]
  constructor
  · rintro ⟨hlength, hhyphen⟩
    exact ⟨hlength, fun hthird hc => hhyphen (Or.inr ⟨hthird, hc⟩)⟩
  · rintro ⟨hlength, hhyphen⟩
    exact ⟨hlength, fun hcase => hcase.elim h.2 (fun hthird => hhyphen hthird.1 hthird.2)⟩

theorem scan_char {rest : Bytes} (h : c ≠ 10 ∧ c ≠ Telnet.IAC) :
    scan m (c :: rest) s = (s.char m c).bind (fun t => scan m rest t) := by
  rw [scan.eq_def]
  dsimp only
  rw [if_neg h.1, if_neg h.2]
  cases s.char m c with
  | error e => rfl
  | ok t => rfl

theorem scan_command {rest : Bytes} (h : isVerb c = false) :
    scan m (Telnet.IAC :: c :: rest) s = scan m rest s := by
  rw [scan.eq_def]
  dsimp only
  rw [if_neg (by decide), if_pos rfl]
  simp only [h, Bool.false_eq_true, if_false]

theorem scan_negotiate {verb : UInt8} {rest : Bytes} (h : isVerb verb = true) :
    scan m (Telnet.IAC :: verb :: c :: rest) s = scan m rest (s.refuse verb c) := by
  rw [scan.eq_def]
  dsimp only
  rw [if_neg (by decide), if_pos rfl]
  simp only [h, if_true]

theorem InLine.refuse (h : InLine s w t) (verb option : UInt8) :
    InLine s w (t.refuse verb option) :=
  ⟨h.dig, h.code, h.continuation, h.empty, h.n, h.originalcode, h.connected, h.room, h.address⟩

theorem scan_items (l : Line) (h : InLine s w t) (hfits : Fits s.continuation w) :
    (Fits s.continuation (w ++ l.text) → ∃ u, InLine s (w ++ l.text) u ∧
      ∀ rest, scan m (l.flatMap Item.bytes ++ rest) t = scan m rest u) ∧
    (¬ Fits s.continuation (w ++ l.text) →
      ∀ rest, scan m (l.flatMap Item.bytes ++ rest) t = .error .overflow) := by
  induction l generalizing w t with
  | nil =>
    have htext : w ++ Line.text [] = w := List.append_nil w
    rw [htext]
    exact ⟨fun _ => ⟨t, h, fun _ => rfl⟩, fun hnot => absurd hfits hnot⟩
  | cons item l ih =>
    cases item with
    | command c hc =>
      refine ⟨fun hwhole => ?_, fun hwhole rest => ?_⟩
      · obtain ⟨u, hu, hscan⟩ := (ih h hfits).1 hwhole
        exact ⟨u, hu, fun rest => (scan_command hc).trans (hscan rest)⟩
      · exact (scan_command hc).trans ((ih h hfits).2 hwhole rest)
    | negotiate verb option hverb =>
      have ih' := ih (h.refuse verb option) hfits
      refine ⟨fun hwhole => ?_, fun hwhole rest => ?_⟩
      · obtain ⟨u, hu, hscan⟩ := ih'.1 hwhole
        exact ⟨u, hu, fun rest => (scan_negotiate hverb).trans (hscan rest)⟩
      · exact (scan_negotiate hverb).trans (ih'.2 hwhole rest)
    | text c hc =>
      have htext : w ++ Line.text (.text c hc :: l) = w ++ [c] ++ Line.text l := by
        rw [List.append_assoc]
        rfl
      have hbytes : ∀ rest, (Item.text c hc :: l).flatMap Item.bytes ++ rest =
          c :: (l.flatMap Item.bytes ++ rest) := fun _ => rfl
      rw [htext]
      by_cases hnext : Fits s.continuation (w ++ [c])
      · obtain ⟨hlength, hhyphen⟩ := (fits_snoc hfits).mp hnext
        obtain ⟨u, hchar, hread⟩ := char_ok (m := m) (s := t) (c := c) (by rw [h.dig]; exact hlength)
          (fun hthird hhyphen' => by
            have hnot : ¬ Hyphened w := fun hw =>
              absurd (hyphened_length hw) (by rw [← h.dig]; omega)
            rw [h.continuation, if_neg hnot]
            exact hhyphen (h.dig ▸ hthird) hhyphen') h.room
        have ih' := ih (h.char hread) hnext
        refine ⟨fun hwhole => ?_, fun hwhole rest => ?_⟩
        · obtain ⟨v, hv, hscan⟩ := ih'.1 hwhole
          refine ⟨v, hv, fun rest => ?_⟩
          rw [hbytes, scan_char hc, hchar]
          exact hscan rest
        · rw [hbytes, scan_char hc, hchar]
          exact ih'.2 hwhole rest
      · refine ⟨fun hwhole => absurd (fits_of_append hwhole) hnext, fun _ rest => ?_⟩
        have hover : 2147483647 ≤ t.dig ∨ t.dig = 3 ∧ c = 45 ∧ 2147483647 ≤ t.continuation := by
          rw [fits_snoc hfits] at hnext
          rw [h.dig, h.continuation]
          by_cases hlength : w.length < 2147483647
          · right
            simp only [hlength, true_and, Classical.not_imp, Nat.not_lt] at hnext
            exact ⟨hnext.1, hnext.2.1, Nat.le_add_right_of_le hnext.2.2⟩
          · exact Or.inl (Nat.not_lt.mp hlength)
        rw [hbytes, scan_char hc, char_error h.room hover]
        rfl

/-! ## The end of a line -/

theorem Code.value_ge (d : Code) : 100 ≤ d.value := by
  have hfirst := d.first
  unfold Code.value
  omega

/-- The lines that end a reply with the code `d`: the code and no hyphen behind it. -/
def Ends (d : Code) (w : Bytes) : Prop := d.digits <+: w ∧ ¬ Hyphened w

theorem digit_toNat {x : Nat} (h : x ≤ 9) : (UInt8.ofNat (48 + x)).toNat = 48 + x := by
  rw [UInt8.toNat_ofNat']
  omega

theorem isdigit_ofNat {x : Nat} (h : x ≤ 9) : isdigit (UInt8.ofNat (48 + x)) = true := by
  unfold isdigit
  rw [digit_toNat h]
  simp
  omega

theorem eq_ofNat_of_isdigit (h : isdigit c = true) :
    ∃ x, x ≤ 9 ∧ c = UInt8.ofNat (48 + x) := by
  unfold isdigit at h
  rw [Bool.and_eq_true, decide_eq_true_eq, decide_eq_true_eq] at h
  refine ⟨c.toNat - 48, by omega, UInt8.toNat_inj.mp ?_⟩
  rw [digit_toNat (by omega)]
  omega

theorem codeNumber_cons {a b e : UInt8} (ha : isdigit a = true) (hb : isdigit b = true)
    (he : isdigit e = true) (w : Bytes) : codeNumber (a :: b :: e :: w) =
      (a.toNat - 48) * 100 + (b.toNat - 48) * 10 + (e.toNat - 48) := by
  unfold codeNumber
  simp only [List.take_succ_cons, List.take_zero, List.filter_cons_of_pos, ha, hb, he,
    List.filter_nil, List.foldl_cons, List.foldl_nil]
  omega

theorem codeNumber_digits {x y z : Nat} (hx : x ≤ 9) (hy : y ≤ 9) (hz : z ≤ 9) (w : Bytes) :
    codeNumber ([UInt8.ofNat (48 + x), UInt8.ofNat (48 + y), UInt8.ofNat (48 + z)] ++ w) =
      x * 100 + y * 10 + z := by
  rw [List.cons_append, List.cons_append, List.cons_append, List.nil_append,
    codeNumber_cons (isdigit_ofNat hx) (isdigit_ofNat hy) (isdigit_ofNat hz),
    digit_toNat hx, digit_toNat hy, digit_toNat hz]
  omega

theorem foldl_digits_lt (v : Bytes) (hdigits : ∀ c ∈ v, isdigit c = true)
    (hlength : v.length ≤ 2) :
    v.foldl (fun code c => code * 10 + (c.toNat - 48)) 0 < 100 := by
  have hle : ∀ c ∈ v, c.toNat - 48 ≤ 9 := fun c hc => by
    obtain ⟨x, hx, rfl⟩ := eq_ofNat_of_isdigit (hdigits c hc)
    rw [digit_toNat hx]
    omega
  rcases v with _ | ⟨a, _ | ⟨b, _ | ⟨e, v⟩⟩⟩
  · exact Nat.zero_lt_of_lt (by decide : 0 < 100)
  · have ha := hle a (by simp)
    simp only [List.foldl_cons, List.foldl_nil]
    omega
  · have ha := hle a (by simp)
    have hb := hle b (by simp)
    simp only [List.foldl_cons, List.foldl_nil]
    omega
  · simp at hlength

theorem codeNumber_eq_value (d : Code) : codeNumber w = d.value ↔ d.digits <+: w := by
  have hfirst := d.first
  have hothers := d.others
  constructor
  · intro h
    have hge := d.value_ge
    have hall : ((w.take 3).filter isdigit).length = 3 := by
      have hle := List.length_filter_le isdigit (w.take 3)
      have htake := List.length_take_le 3 w
      by_contra hne
      have hlt := foldl_digits_lt ((w.take 3).filter isdigit)
        (fun c hc => (List.mem_filter.mp hc).2) (by omega)
      unfold codeNumber at h
      omega
    have hlength : (w.take 3).length = 3 := by
      have hle := List.length_filter_le isdigit (w.take 3)
      have htake := List.length_take_le 3 w
      omega
    have hdigits : ∀ c ∈ w.take 3, isdigit c = true :=
      List.length_filter_eq_length_iff.mp (by rw [hall, hlength])
    rcases w with _ | ⟨a, _ | ⟨b, _ | ⟨e, w⟩⟩⟩
    · simp at hlength
    · simp at hlength
    · simp at hlength
    · obtain ⟨x, hx, rfl⟩ := eq_ofNat_of_isdigit (hdigits a (by simp))
      obtain ⟨y, hy, rfl⟩ := eq_ofNat_of_isdigit (hdigits b (by simp))
      obtain ⟨z, hz, rfl⟩ := eq_ofNat_of_isdigit (hdigits e (by simp))
      have hvalue := (codeNumber_digits hx hy hz w).symm.trans h
      unfold Code.value at hvalue
      obtain ⟨rfl, rfl, rfl⟩ : x = d.x ∧ y = d.y ∧ z = d.z := by omega
      exact ⟨w, rfl⟩
  · rintro ⟨rest, rfl⟩
    exact codeNumber_digits hfirst.2 hothers.1 hothers.2 rest

def lineCode (s : Scan) (w : Bytes) : Nat :=
  if Hyphened w ∧ s.continuation ≠ 0 then 0 else codeNumber w

/-- The reply goes on behind a line that began with `s`. -/
def GoesOn (s : Scan) (w : Bytes) : Prop :=
  (Hyphened w ∨ s.continuation ≠ 0) ∧ lineCode s w ≠ s.originalcode

theorem endLine_eq (m : Mode) (t : Scan) : ∃ out, t.endLine m = { t with stdout := out } := by
  unfold Scan.endLine
  split
  · exact ⟨_, rfl⟩
  · exact ⟨t.stdout, rfl⟩

theorem InLine.endLine (h : InLine s w t) : InLine s w (t.endLine m) := by
  obtain ⟨out, hout⟩ := endLine_eq m t
  rw [hout]
  exact ⟨h.dig, h.code, h.continuation, h.empty, h.n, h.originalcode, h.connected, h.room,
    h.address⟩

theorem InLine.goesOn (h : InLine s w t) : t.goesOn = true ↔ GoesOn s w := by
  unfold Scan.goesOn GoesOn lineCode
  rw [Bool.and_eq_true, decide_eq_true_eq, decide_eq_true_eq, h.code, h.originalcode,
    h.continuation]
  by_cases hhyphen : Hyphened w <;> simp [hhyphen]

theorem line_bytes (l : Line) (rest : Bytes) :
    l.bytes ++ rest = l.flatMap Item.bytes ++ (10 :: rest) := by
  unfold Line.bytes
  rw [List.append_assoc]
  rfl

theorem scan_newline {rest : Bytes} : scan m (10 :: rest) t =
    if (t.endLine m).goesOn then scan m rest (t.endLine m).next
    else .ok ((t.endLine m).finish rest) := by
  rw [scan.eq_def]
  rfl

theorem fits_nil (k : Nat) : Fits k [] := ⟨Nat.zero_le _, fun h => by cases h⟩

theorem scan_overflow {l : Line} (h : AtLine s) (hfits : ¬ Fits s.continuation l.text)
    (rest : Bytes) : scan m (l.bytes ++ rest) s = .error .overflow := by
  rw [line_bytes]
  exact (scan_items l h.inLine (fits_nil _)).2 hfits _

theorem scan_goesOn {l : Line} (h : AtLine s) (hfits : Fits s.continuation l.text)
    (hon : GoesOn s l.text) : ∃ u, AtLine u ∧
      u.continuation = s.continuation + (if Hyphened l.text then 1 else 0) ∧
      u.originalcode = (if s.originalcode = 0 then lineCode s l.text else s.originalcode) ∧
      u.connected = s.connected ∧
      ∀ rest, scan m (l.bytes ++ rest) s = scan m rest u := by
  obtain ⟨t, ht, hscan⟩ := (scan_items (m := m) l h.inLine (fits_nil _)).1 hfits
  have hend : InLine s l.text (t.endLine m) := ht.endLine
  refine ⟨(t.endLine m).next, ⟨rfl, rfl, rfl, hend.room⟩, hend.continuation, ?_,
    hend.connected, fun rest => ?_⟩
  · unfold Scan.next Scan.fresh lineCode
    dsimp only
    rw [hend.originalcode, hend.code]
  · rw [line_bytes, hscan, scan_newline, if_pos (hend.goesOn.mpr hon)]

theorem scan_end {l : Line} (h : AtLine s) (hfits : Fits s.continuation l.text)
    (hon : ¬ GoesOn s l.text) : ∃ t, InLine s l.text t ∧
      ∀ rest, scan m (l.bytes ++ rest) s = .ok (t.finish rest) := by
  obtain ⟨t, ht, hscan⟩ := (scan_items (m := m) l h.inLine (fits_nil _)).1 hfits
  have hend : InLine s l.text (t.endLine m) := ht.endLine
  refine ⟨t.endLine m, hend, fun rest => ?_⟩
  rw [line_bytes, hscan, scan_newline, if_neg (fun hgoes => hon (hend.goesOn.mp hgoes))]

/-! ## The lines of a reply -/

theorem hyphened_of_digits {d : Code} (h : d.digits ++ [45] <+: w) :
    Hyphened w ∧ codeNumber w = d.value := by
  obtain ⟨rest, rfl⟩ := h
  exact ⟨rfl, (codeNumber_eq_value d).mpr ⟨45 :: rest, by rw [List.append_assoc]; rfl⟩⟩

theorem ends_of_space {d : Code} (h : d.digits ++ [32] <+: w) : Ends d w := by
  obtain ⟨rest, rfl⟩ := h
  refine ⟨⟨32 :: rest, by rw [List.append_assoc]; rfl⟩, fun hhyphen => ?_⟩
  have h32 : (32 : UInt8) = 45 := Option.some.inj hhyphen
  exact absurd h32 (by decide)

/-- Behind the first line of a reply with the code `d`, a line that ends it is one that
`Ends`. -/
theorem goesOn_iff_not_ends {d : Code} (hcode : s.originalcode = d.value)
    (hcont : s.continuation ≠ 0) : GoesOn s w ↔ ¬ Ends d w := by
  have hge := d.value_ge
  unfold GoesOn Ends lineCode
  rw [hcode, ← codeNumber_eq_value d]
  by_cases hhyphen : Hyphened w
  · simp [hhyphen, hcont]
    omega
  · simp [hhyphen, hcont]

def hyphens (ls : List Line) : Nat := ls.countP (fun l => decide (Hyphened l.text))

/-- The lines in the middle of a reply with the code `d`, `k` hyphens behind its beginning,
are read: the counters do not overflow, and no line ends the reply. -/
def Passed (d : Code) (k : Nat) (ls : List Line) : Prop :=
  (∀ l ∈ ls, l.text.length ≤ 2147483647 ∧ ¬ Ends d l.text) ∧ k + hyphens ls ≤ 2147483647

theorem hyphens_cons (l : Line) (ls : List Line) :
    hyphens (l :: ls) = (if Hyphened l.text then 1 else 0) + hyphens ls := by
  unfold hyphens
  rw [List.countP_cons, Nat.add_comm]
  simp

theorem passed_cons {d : Code} {k : Nat} {l : Line} {ls : List Line} (hk : k ≤ 2147483647) :
    Passed d k (l :: ls) ↔ Fits k l.text ∧ ¬ Ends d l.text ∧
      Passed d (k + if Hyphened l.text then 1 else 0) ls := by
  unfold Passed Fits
  rw [hyphens_cons, List.forall_mem_cons]
  constructor
  · rintro ⟨⟨⟨hlength, hends⟩, hls⟩, hcount⟩
    refine ⟨⟨hlength, fun hhyphen => ?_⟩, hends, hls, by omega⟩
    rw [if_pos hhyphen] at hcount
    omega
  · rintro ⟨⟨hlength, -⟩, hends, hls, hcount⟩
    exact ⟨⟨⟨hlength, hends⟩, hls⟩, by omega⟩

theorem scan_middle {d : Code} (ls : List Line) (h : AtLine s) (hcode : s.originalcode = d.value)
    (hcont : s.continuation ≠ 0) (hle : s.continuation ≤ 2147483647) :
    (Passed d s.continuation ls → ∃ u, AtLine u ∧ u.originalcode = d.value ∧
      u.continuation = s.continuation + hyphens ls ∧ u.connected = s.connected ∧
      ∀ rest, scan m (ls.flatMap Line.bytes ++ rest) s = scan m rest u) ∧
    (¬ Passed d s.continuation ls → ∀ rest r,
      scan m (ls.flatMap Line.bytes ++ rest) s = .ok r → rest.length ≤ r.cin.length) := by
  induction ls generalizing s with
  | nil =>
    refine ⟨fun _ => ⟨s, h, hcode, rfl, rfl, fun _ => rfl⟩, fun hnot => absurd ?_ hnot⟩
    exact ⟨fun l hl => absurd hl List.not_mem_nil, hle⟩
  | cons l ls ih =>
    have hbytes : ∀ rest, (l :: ls).flatMap Line.bytes ++ rest =
        l.bytes ++ (ls.flatMap Line.bytes ++ rest) := fun rest => by
      rw [List.flatMap_cons, List.append_assoc]
    rw [passed_cons hle]
    by_cases hfits : Fits s.continuation l.text
    · by_cases hends : Ends d l.text
      · refine ⟨fun hpassed => absurd hends hpassed.2.1, fun _ rest r hr => ?_⟩
        obtain ⟨t, -, hscan⟩ := scan_end (m := m) h hfits
          (fun hon => (goesOn_iff_not_ends hcode hcont).mp hon hends)
        rw [hbytes, hscan] at hr
        obtain rfl := Except.ok.inj hr
        exact List.length_append.symm ▸ Nat.le_add_left ..
      · obtain ⟨u, hu, hucont, hucode, huconn, hscan⟩ := scan_goesOn (m := m) h hfits
          ((goesOn_iff_not_ends hcode hcont).mpr hends)
        have hge := d.value_ge
        rw [hcode, if_neg (by omega)] at hucode
        have hule : u.continuation ≤ 2147483647 := by
          rw [hucont]
          split
          · next hhyphen => exact hfits.2 hhyphen
          · exact hle
        have ih' := ih hu hucode (by rw [hucont]; omega) hule
        rw [hucont] at ih'
        refine ⟨fun hpassed => ?_, fun hpassed rest r hr => ?_⟩
        · obtain ⟨v, hv, hvcode, hvcont, hvconn, hvscan⟩ := ih'.1 hpassed.2.2
          refine ⟨v, hv, hvcode, ?_, hvconn.trans huconn, fun rest => ?_⟩
          · rw [hvcont, hyphens_cons, Nat.add_assoc]
          · rw [hbytes, hscan, hvscan]
        · rw [hbytes, hscan] at hr
          exact ih'.2 (fun hls => hpassed ⟨hfits, hends, hls⟩) rest r hr
    · refine ⟨fun hpassed => absurd hpassed.1 hfits, fun _ rest r hr => ?_⟩
      rw [hbytes, scan_overflow h hfits] at hr
      cases hr

/-! ## The passive address -/

def decimal (b : UInt8) : Bytes := (Nat.toDigits 10 b.toNat).map (fun d => UInt8.ofNat d.toNat)

/-- The address and the port of the server, `%d,%d,%d,%d,%d,%d`. -/
def passiveAddress (h1 h2 h3 h4 p1 p2 : UInt8) : Bytes :=
  decimal h1 ++ 44 :: (decimal h2 ++ 44 :: (decimal h3 ++ 44 :: (decimal h4 ++
    44 :: (decimal p1 ++ 44 :: decimal p2))))

/-- The reply of ftpd to `PASV`. -/
def passiveReply (h1 h2 h3 h4 p1 p2 : UInt8) : Bytes :=
  ascii "227 Entering Passive Mode (" ++ (passiveAddress h1 h2 h3 h4 p1 p2 ++ [41, 13])

theorem addressAfter_waiting {v : Bytes} {px : Nat} {pasv : Bytes} (w : Bytes)
    (hw : w.all (fun c => !isdigit c) = true) :
    addressAfter 0 v w (1, px, pasv) = (1, px, pasv) := by
  induction w generalizing v with
  | nil => rfl
  | cons c w ih =>
    rw [List.all_cons, Bool.and_eq_true, Bool.not_eq_true'] at hw
    have hcaptured : ∀ code dig, captured (flagged 1 code dig c) px pasv c = (1, px, pasv) :=
      fun code dig => by simp [captured, flagged, hw.1]
    rw [addressAfter, hcaptured]
    exact ih hw.2

theorem addressAfter_kept {v : Bytes} {px : Nat} (ds done tail : Bytes)
    (hstop : ∀ c ∈ ds, c ≠ 13 ∧ c ≠ 41) (hlength : ds.length ≤ tail.length)
    (hdone : done.length = px) (hpx : px + ds.length ≤ 63) :
    addressAfter 0 v ds (2, px, done ++ tail) =
      (2, px + ds.length, done ++ ds ++ tail.drop ds.length) := by
  induction ds generalizing v px done tail with
  | nil => simp [addressAfter]
  | cons c ds ih =>
    obtain ⟨hc, hds⟩ := List.forall_mem_cons.mp hstop
    cases tail with
    | nil => simp at hlength
    | cons e tail =>
      rw [List.length_cons] at hpx
      have hset : (done ++ e :: tail).set px c = (done ++ [c]) ++ tail := by
        simp [← hdone]
      have hcaptured : captured (flagged 2 (codeNumber (v ++ [c])) (v.length + 1) c) px
          (done ++ e :: tail) c = (2, px + 1, (done ++ [c]) ++ tail) := by
        unfold captured flagged
        rw [hset]
        simp [hc, show px < 63 by omega]
      unfold addressAfter
      dsimp only
      rw [if_neg (fun h => h.2 rfl), hcaptured,
        ih (done ++ [c]) tail hds (by simpa using hlength) (by simp [hdone]) (by omega)]
      simp only [List.length_cons, List.drop_succ_cons, List.append_assoc, List.cons_append,
        List.nil_append]
      rw [Nat.add_right_comm, Nat.add_assoc]

/-- The address of a reply in the form of ftpd is what `pasv` holds behind it. -/
theorem addressAfter_passive {d : UInt8} {ds pasv : Bytes} (hdigit : isdigit d = true)
    (hstop : ∀ c ∈ d :: ds, c ≠ 13 ∧ c ≠ 41) (hlength : ds.length ≤ 62)
    (hpasv : pasv.length = 64) :
    ∃ rest, (addressAfter 0 [] (ascii "227 Entering Passive Mode (" ++ (d :: ds ++ [41, 13]))
      (0, 0, pasv)).2.2 = d :: ds ++ 0 :: rest := by
  have hbefore : addressAfter 0 [] (ascii "227 Entering Passive Mode (") (0, 0, pasv) =
      (1, 0, pasv) := by
    have hcode : addressAfter 0 [] (ascii "227") (0, 0, pasv) = (1, 0, pasv) := rfl
    have hsplit : ascii "227 Entering Passive Mode (" =
        ascii "227" ++ ascii " Entering Passive Mode (" := by decide
    rw [hsplit, addressAfter_append, hcode]
    exact addressAfter_waiting _ (by decide)
  obtain ⟨hd, hds⟩ := List.forall_mem_cons.mp hstop
  rw [addressAfter_append, hbefore, List.nil_append]
  cases pasv with
  | nil => simp at hpasv
  | cons e tail =>
    rw [List.length_cons] at hpasv
    have hcaptured : captured (flagged 1
        (codeNumber (ascii "227 Entering Passive Mode (" ++ [d]))
        ((ascii "227 Entering Passive Mode (").length + 1) d) 0 (e :: tail) d =
        (2, 1, [d] ++ tail) := by
      unfold captured flagged
      simp [hdigit, hd, show (ascii "227 Entering Passive Mode (").length = 27 from rfl]
    rw [List.cons_append, addressAfter]
    have hkept := @addressAfter_kept (ascii "227 Entering Passive Mode (" ++ [d]) 1
      ds [d] tail hds (by omega) rfl (by omega)
    rw [if_neg (fun h => h.2 rfl), hcaptured, addressAfter_append, hkept]
    obtain ⟨e', tail', htail⟩ : ∃ e' tail', tail.drop ds.length = e' :: tail' := by
      cases hdrop : tail.drop ds.length with
      | nil =>
        have hshort := congrArg List.length hdrop
        rw [List.length_drop, List.length_nil] at hshort
        omega
      | cons e' tail' => exact ⟨e', tail', rfl⟩
    refine ⟨tail', ?_⟩
    have hset : ([d] ++ ds ++ e' :: tail').set (1 + ds.length) 0 = d :: ds ++ 0 :: tail' := by
      rw [List.set_append_right _ _ (by rw [List.length_append, List.length_singleton])]
      simp [Nat.add_comm]
    rw [htail]
    simpa [addressAfter, captured, flagged] using hset

/-! ## Replies -/

/-- Behind the reply to `PASV`, `pasv` holds the address and its NUL. -/
def PasvHeld (r : Reply) (f : Control) : Prop :=
  ∀ h1 h2 h3 h4 p1 p2, r.lines.map Line.text = [passiveReply h1 h2 h3 h4 p1 p2] →
    ∃ rest, f.pasv = passiveAddress h1 h2 h3 h4 p1 p2 ++ 0 :: rest

/-- Each call consumes one reply and returns its first digit, with the three digits in `code`,
until the connection is lost. -/
def InStep : Control → List (Mode × Reply) → Bytes → Prop
  | _, [], _ => True
  | f, (m, r) :: rs, after =>
    ∃ f', getreply m f (r.bytes ++ (stream rs ++ after)) = .ok ⟨r.code.x, f', stream rs ++ after⟩ ∧
      f'.code = r.code.value ∧ f'.pasv.length = 64 ∧ PasvHeld r f' ∧
      (f'.connected = true → InStep f' rs after)

def Reply.Framed (r : Reply) : Prop :=
  (∀ l ∈ r.lines, l.text.length ≤ 2147483647) ∧ hyphens r.lines ≤ 2147483647 ∧
    ∀ l ∈ r.middle, ¬ Ends r.code l.text

def Framed : List (Mode × Reply) → Prop
  | [] => True
  | (_, r) :: rs => r.Framed ∧ (r.code.value ≠ 421 → Framed rs)

theorem framed_single {d : Code} {l : Line} (h : d.digits ++ [32] <+: l.text) :
    (Reply.single d l h).Framed ↔ Fits 0 l.text := by
  have hnot := (ends_of_space h).2
  unfold Reply.Framed Reply.lines Reply.middle Fits
  rw [List.forall_mem_singleton, hyphens_cons, if_neg hnot]
  exact ⟨fun hframed => ⟨hframed.1, fun hhyphen => absurd hhyphen hnot⟩,
    fun hfits => ⟨hfits.1, by simp [hyphens], fun _ hmem => absurd hmem List.not_mem_nil⟩⟩

theorem framed_multi {d : Code} {first last : Line} {middle : List Line}
    (hfirst : d.digits ++ [45] <+: first.text)
    (hmiddle : ∀ l ∈ middle, ¬ d.digits ++ [32] <+: l.text)
    (hlast : d.digits ++ [32] <+: last.text) :
    (Reply.multi d first middle last hfirst hmiddle hlast).Framed ↔
      first.text.length ≤ 2147483647 ∧ Passed d 1 middle ∧ last.text.length ≤ 2147483647 := by
  have hcount : hyphens (first :: middle ++ [last]) = 1 + hyphens middle := by
    rw [List.cons_append, hyphens_cons, if_pos (hyphened_of_digits hfirst).1]
    unfold hyphens
    rw [List.countP_append, List.countP_singleton]
    simp [(ends_of_space hlast).2]
  unfold Reply.Framed Reply.lines Reply.middle Reply.code Passed
  dsimp only
  rw [hcount, List.cons_append, List.forall_mem_cons, List.forall_mem_append,
    List.forall_mem_singleton]
  constructor
  · rintro ⟨⟨hf, hm, hl⟩, hle, hends⟩
    exact ⟨hf, ⟨fun l hmem => ⟨hm l hmem, hends l hmem⟩, hle⟩, hl⟩
  · rintro ⟨hf, ⟨hm, hle⟩, hl⟩
    exact ⟨⟨hf, fun l hmem => (hm l hmem).1, hl⟩, hle, fun l hmem => (hm l hmem).2⟩

theorem atLine_start {f : Control} (hpasv : f.pasv.length = 64) :
    AtLine (Scan.fresh ⟨f, 0, 0, 0, 0, 0, 0⟩) :=
  ⟨rfl, rfl, rfl, hpasv, Nat.zero_le _⟩

theorem finish_of_ends {d : Code} {rest : Bytes} (h : InLine s w t) (hends : Ends d w)
    (horiginal : s.originalcode = 0 ∨ s.originalcode = d.value) :
    ∃ f', t.finish rest = ⟨d.x, f', rest⟩ ∧ f'.code = d.value ∧ f'.pasv = t.pasv ∧
      (f'.connected = true ↔ d.value ≠ 421 ∧ s.connected = true) := by
  have hcode : t.code = d.value := by
    rw [h.code, if_neg (fun hhyphen => hends.2 hhyphen.1)]
    exact (codeNumber_eq_value d).mpr hends.1
  have hn : t.n.toNat = 48 + d.x := by
    have hfirst := d.first
    obtain ⟨v, rfl⟩ := hends.1
    have hzero : UInt8.ofNat (48 + d.x) ≠ 0 := fun h0 => by
      have h0' := congrArg UInt8.toNat h0
      rw [digit_toNat hfirst.2] at h0'
      exact absurd h0' (Nat.ne_of_gt (by show 0 < 48 + d.x; omega))
    rw [h.n (UInt8.ofNat (48 + d.x)) rfl hzero, digit_toNat hfirst.2]
  refine ⟨(t.finish rest).control, ?_, hcode, rfl, ?_⟩
  · unfold Scan.finish
    rw [hn]
    simp
  · unfold Scan.finish
    dsimp only
    rw [hcode, h.originalcode, h.connected]
    have hge := d.value_ge
    by_cases h421 : d.value = 421
    · simp [h421]
    · have hnot : ¬ s.originalcode = 421 := by
        rcases horiginal with h0 | h0 <;> omega
      simp [h421, hnot]

theorem decimal_spec (b : UInt8) : (decimal b).length ≤ 3 ∧
    (∃ d ds, decimal b = d :: ds ∧ isdigit d = true) ∧ ∀ c ∈ decimal b, isdigit c = true := by
  have hall : ∀ n : Fin 256, ((decimal (UInt8.ofNat n.val)).length ≤ 3 ∧
      (decimal (UInt8.ofNat n.val)).all isdigit = true) ∧
      (decimal (UInt8.ofNat n.val)).head?.any isdigit = true := by decide +kernel
  obtain ⟨⟨hlength, hdigits⟩, hhead⟩ := hall ⟨b.toNat, b.toNat_lt⟩
  rw [UInt8.ofNat_toNat] at hlength hdigits hhead
  refine ⟨hlength, ?_, List.all_eq_true.mp hdigits⟩
  cases hb : decimal b with
  | nil => rw [hb] at hhead; cases hhead
  | cons d ds => rw [hb] at hhead; exact ⟨d, ds, rfl, hhead⟩

theorem passiveAddress_spec (h1 h2 h3 h4 p1 p2 : UInt8) :
    (passiveAddress h1 h2 h3 h4 p1 p2).length ≤ 63 ∧
    (∃ d ds, passiveAddress h1 h2 h3 h4 p1 p2 = d :: ds ∧ isdigit d = true) ∧
    ∀ c ∈ passiveAddress h1 h2 h3 h4 p1 p2, c ≠ 13 ∧ c ≠ 41 := by
  obtain ⟨l1, ⟨d, ds, hd, hdigit⟩, s1⟩ := decimal_spec h1
  obtain ⟨l2, -, s2⟩ := decimal_spec h2
  obtain ⟨l3, -, s3⟩ := decimal_spec h3
  obtain ⟨l4, -, s4⟩ := decimal_spec h4
  obtain ⟨l5, -, s5⟩ := decimal_spec p1
  obtain ⟨l6, -, s6⟩ := decimal_spec p2
  have hstop : ∀ b, isdigit b = true → b ≠ 13 ∧ b ≠ 41 := by
    rintro b hb
    constructor
    · rintro rfl
      exact absurd hb (by decide)
    · rintro rfl
      exact absurd hb (by decide)
  unfold passiveAddress
  refine ⟨?_, ⟨d, ds ++ 44 :: (decimal h2 ++ 44 :: (decimal h3 ++ 44 :: (decimal h4 ++
    44 :: (decimal p1 ++ 44 :: decimal p2)))), by rw [hd]; rfl, hdigit⟩, ?_⟩
  · simp only [List.length_append, List.length_cons]
    omega
  · simp only [List.forall_mem_append, List.forall_mem_cons]
    have hcomma : (44 : UInt8) ≠ 13 ∧ (44 : UInt8) ≠ 41 := by decide
    exact ⟨fun c hc => hstop c (s1 c hc), hcomma, fun c hc => hstop c (s2 c hc), hcomma,
      fun c hc => hstop c (s3 c hc), hcomma, fun c hc => hstop c (s4 c hc), hcomma,
      fun c hc => hstop c (s5 c hc), hcomma, fun c hc => hstop c (s6 c hc)⟩

theorem pasvHeld_single {f f' : Control} {d : Code} {l : Line} (hpasv : f.pasv.length = 64)
    (h : d.digits ++ [32] <+: l.text)
    (ht : InLine (Scan.fresh ⟨f, 0, 0, 0, 0, 0, 0⟩) l.text t) (hf' : f'.pasv = t.pasv) :
    PasvHeld (.single d l h) f' := by
  intro h1 h2 h3 h4 p1 p2 htext
  have htext' : l.text = passiveReply h1 h2 h3 h4 p1 p2 := (List.cons.inj htext).1
  obtain ⟨hlength, ⟨a, as, has, hdigit⟩, hstop⟩ := passiveAddress_spec h1 h2 h3 h4 p1 p2
  rw [has] at hlength hstop
  obtain ⟨rest, hrest⟩ := @addressAfter_passive _ _ f.pasv hdigit hstop
    (by rw [List.length_cons] at hlength; omega) hpasv
  refine ⟨rest, ?_⟩
  have haddress := ht.address
  rw [htext', passiveReply, has] at haddress
  rw [hf', has, ← hrest]
  exact congrArg (fun a => a.2.2) haddress

theorem pasvHeld_multi {f' : Control} {d : Code} {first last : Line} {middle : List Line}
    (hfirst : d.digits ++ [45] <+: first.text)
    (hmiddle : ∀ l ∈ middle, ¬ d.digits ++ [32] <+: l.text)
    (hlast : d.digits ++ [32] <+: last.text) :
    PasvHeld (.multi d first middle last hfirst hmiddle hlast) f' := by
  intro h1 h2 h3 h4 p1 p2 htext
  have hlength := congrArg List.length htext
  simp [Reply.lines] at hlength

theorem getreply_first {f : Control} (hpasv : f.pasv.length = 64) {d : Code} {first : Line}
    (hfirst : d.digits ++ [45] <+: first.text) (hfit : Fits 0 first.text) : ∃ s, AtLine s ∧
      s.continuation = 1 ∧ s.originalcode = d.value ∧ s.connected = f.connected ∧
      ∀ rest, getreply m f (first.bytes ++ rest) = scan m rest s := by
  obtain ⟨hhyphen, hnumber⟩ := hyphened_of_digits hfirst
  have hge := d.value_ge
  have hcode : lineCode (Scan.fresh ⟨f, 0, 0, 0, 0, 0, 0⟩) first.text = d.value := by
    unfold lineCode
    rw [if_neg (fun hcont => hcont.2 rfl), hnumber]
  obtain ⟨s, hs, hcont, horig, hconn, hscan⟩ := scan_goesOn (m := m) (atLine_start hpasv) hfit
    ⟨Or.inl hhyphen, by rw [hcode]; show d.value ≠ 0; omega⟩
  refine ⟨s, hs, ?_, ?_, hconn, hscan⟩
  · rw [hcont, if_pos hhyphen]
    rfl
  · rw [horig, hcode]
    exact if_pos rfl

theorem multi_bytes {d : Code} {first last : Line} {middle : List Line}
    (hfirst : d.digits ++ [45] <+: first.text)
    (hmiddle : ∀ l ∈ middle, ¬ d.digits ++ [32] <+: l.text)
    (hlast : d.digits ++ [32] <+: last.text) (rest : Bytes) :
    (Reply.multi d first middle last hfirst hmiddle hlast).bytes ++ rest =
      first.bytes ++ (middle.flatMap Line.bytes ++ (last.bytes ++ rest)) := by
  unfold Reply.bytes Reply.lines
  simp

theorem getreply_framed {f : Control} (hpasv : f.pasv.length = 64) {r : Reply}
    (hr : r.Framed) (rest : Bytes) : ∃ f',
      getreply m f (r.bytes ++ rest) = .ok ⟨r.code.x, f', rest⟩ ∧
        f'.code = r.code.value ∧ f'.pasv.length = 64 ∧ PasvHeld r f' ∧
        (f'.connected = true ↔ r.code.value ≠ 421 ∧ f.connected = true) := by
  have hstart := atLine_start hpasv
  cases r with
  | single d l h =>
    have hends := ends_of_space h
    have hon : ¬ GoesOn (Scan.fresh ⟨f, 0, 0, 0, 0, 0, 0⟩) l.text := fun hgoes =>
      hgoes.1.elim hends.2 (fun hcont => hcont rfl)
    obtain ⟨t, ht, hscan⟩ := scan_end (m := m) hstart ((framed_single h).mp hr) hon
    obtain ⟨f', hfinish, hcode, hf', hconn⟩ := @finish_of_ends _ _ _ _ rest ht hends (Or.inl rfl)
    have hbytes : (Reply.single d l h).bytes = l.bytes := List.append_nil _
    refine ⟨f', ?_, hcode, by rw [hf']; exact ht.room.1, pasvHeld_single hpasv h ht hf', hconn⟩
    rw [hbytes, getreply, hscan, hfinish]
    rfl
  | multi d first middle last hfirst hmiddle hlast =>
    obtain ⟨hfit, hpassed, hfit'⟩ := (framed_multi hfirst hmiddle hlast).mp hr
    obtain ⟨s1, hs1, hcont1, horig1, hconn1, hscan1⟩ := getreply_first (m := m) hpasv hfirst
      ⟨hfit, fun _ => (by decide : (0 : Nat) < 2147483647)⟩
    rw [← hcont1] at hpassed
    obtain ⟨s2, hs2, horig2, hcont2, hconn2, hscan2⟩ :=
      (scan_middle (m := m) middle hs1 horig1 (by omega) (by omega)).1 hpassed
    have hends := ends_of_space hlast
    obtain ⟨t, ht, hscan3⟩ := scan_end (m := m) hs2
      ⟨hfit', fun h => absurd h hends.2⟩
      (fun hon => (goesOn_iff_not_ends horig2 (by omega)).mp hon hends)
    obtain ⟨f', hfinish, hcode, hf', hconn⟩ := @finish_of_ends _ _ _ _ rest ht hends
      (Or.inr horig2)
    refine ⟨f', ?_, hcode, by rw [hf']; exact ht.room.1, pasvHeld_multi hfirst hmiddle hlast, ?_⟩
    · rw [multi_bytes, hscan1, hscan2, hscan3, hfinish]
      rfl
    · rw [hconn, hconn2, hconn1]
      rfl

theorem getreply_unframed {f : Control} (hpasv : f.pasv.length = 64) {r : Reply}
    (hr : ¬ r.Framed) (rest : Bytes) {x : Returned}
    (hx : getreply m f (r.bytes ++ rest) = .ok x) : rest.length < x.cin.length := by
  have hstart := atLine_start hpasv
  cases r with
  | single d l h =>
    have hbytes : (Reply.single d l h).bytes = l.bytes := List.append_nil _
    rw [hbytes, getreply, scan_overflow hstart (fun hfits => hr ((framed_single h).mpr hfits))]
      at hx
    cases hx
  | multi d first middle last hfirst hmiddle hlast =>
    rw [framed_multi hfirst hmiddle hlast] at hr
    rw [multi_bytes] at hx
    by_cases hfit : Fits 0 first.text
    · obtain ⟨s1, hs1, hcont1, horig1, -, hscan1⟩ := getreply_first (m := m) hpasv hfirst hfit
      have hmid := scan_middle (m := m) middle hs1 horig1 (by omega) (by omega)
      rw [hscan1] at hx
      by_cases hpassed : Passed d s1.continuation middle
      · obtain ⟨s2, hs2, -, -, -, hscan2⟩ := hmid.1 hpassed
        rw [hcont1] at hpassed
        have hlong : ¬ Fits s2.continuation last.text := fun hfits =>
          hr ⟨hfit.1, hpassed, hfits.1⟩
        rw [hscan2, scan_overflow hs2 hlong] at hx
        cases hx
      · have hle := hmid.2 hpassed _ _ hx
        rw [line_bytes, List.length_append, List.length_cons] at hle
        omega
    · rw [getreply, scan_overflow hstart hfit] at hx
      cases hx

/-- The replies are consumed one a call exactly when each of them, up to the one that closes
the connection, is framed. -/
theorem inStep_iff {f : Control} (hconn : f.connected = true) (hpasv : f.pasv.length = 64)
    (rs : List (Mode × Reply)) (after : Bytes) : InStep f rs after ↔ Framed rs := by
  induction rs generalizing f with
  | nil => exact Iff.rfl
  | cons mr rs ih =>
    obtain ⟨m, r⟩ := mr
    unfold InStep Framed
    constructor
    · rintro ⟨f', hf', -, hpasv', -, hrest⟩
      have hframed : r.Framed := by
        by_contra hnot
        exact absurd (getreply_unframed hpasv hnot _ hf') (Nat.lt_irrefl _)
      refine ⟨hframed, fun h421 => ?_⟩
      obtain ⟨f'', hf'', -, -, -, hconn''⟩ :=
        getreply_framed (m := m) hpasv hframed (stream rs ++ after)
      obtain rfl : f' = f'' := congrArg Returned.control (Except.ok.inj (hf'.symm.trans hf''))
      have hconn' := hconn''.mpr ⟨h421, hconn⟩
      exact (ih hconn' hpasv').mp (hrest hconn')
    · rintro ⟨hframed, hrest⟩
      obtain ⟨f', hf', hcode, hpasv', hheld, hconn'⟩ :=
        getreply_framed (m := m) hpasv hframed (stream rs ++ after)
      refine ⟨f', hf', hcode, hpasv', hheld, fun h => ?_⟩
      exact (ih h hpasv').mpr (hrest (hconn'.mp h).1)

/-! ## A passive reply, and a reply that ends early -/

def Line.ofText (w : Bytes) : Line :=
  w.filterMap (fun c => if h : c ≠ 10 ∧ c ≠ Telnet.IAC then some (.text c h) else none)

def idle : Control := ⟨0, false, List.replicate 64 0, [], true, [], []⟩

def quiet : Mode := ⟨false, 0, false, []⟩

/-- The reply of ftpd to `PASV`, with a telnet command in front. -/
def passiveLine : Line :=
  .negotiate Telnet.DO 1 rfl :: Line.ofText (passiveReply 127 0 0 1 4 210)

def passive : Reply :=
  .single ⟨2, 2, 7, by decide, by decide⟩ passiveLine (by decide +kernel)

theorem inStep_passive : InStep idle [(quiet, passive), (quiet, passive)] [] := by
  have hframed : passive.Framed := (framed_single _).mpr ⟨by decide +kernel, fun _ => by decide⟩
  exact (inStep_iff rfl rfl [(quiet, passive), (quiet, passive)] []).mpr
    ⟨hframed, fun _ => ⟨hframed, fun _ => trivial⟩⟩

def greeting : Reply :=
  .multi ⟨2, 3, 0, by decide, by decide⟩ (Line.ofText (ascii "230-Hello\r"))
    [Line.ofText (ascii "230\r")] (Line.ofText (ascii "230 Welcome\r"))
    (by decide +kernel) (by decide +kernel) (by decide +kernel)

/-- The call ends on the second line, and the third one is left for the next call. -/
theorem not_inStep_greeting : ¬ InStep idle [(quiet, greeting)] [] := by
  rintro ⟨f', hf', -⟩
  have hnot : ¬ greeting.Framed := fun h =>
    h.2.2 _ (List.mem_singleton.mpr rfl) ⟨by decide +kernel, by decide +kernel⟩
  exact absurd (getreply_unframed rfl hnot _ hf') (Nat.lt_irrefl _)

end Netkit.Ftp

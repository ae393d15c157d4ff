import Netkit.Telnet.Protocol

/-!
# Items of a telnet stream

A telnet stream is a sequence of items: a data byte, `IAC` and a command byte (`IAC IAC` is
one of these), `IAC`, a verb and an option, or a suboption from `IAC SB` to `IAC SE`. The body
of a suboption is read the way telnetd reads it: an `IAC` takes the byte after it along, and
only `IAC SE` ends the body.
-/

namespace Netkit.Telnet

/-! ## Items -/

/-- A piece of the body of a suboption. -/
inductive SbPiece where
  | plain (b : UInt8) (h : b ≠ IAC)
  | pair (c : UInt8) (h : c ≠ SE)

def SbPiece.bytes : SbPiece → List UInt8
  | .plain b _ => [b]
  | .pair c _ => [IAC, c]

/-- The body of a suboption and the `IAC SE` behind it. -/
def sbBytes (body : List SbPiece) : List UInt8 := body.flatMap SbPiece.bytes ++ [IAC, SE]

/-- The byte after `IAC` makes a command of two bytes. -/
def IsShort (c : UInt8) : Prop := c ≠ DO ∧ c ≠ DONT ∧ c ≠ WILL ∧ c ≠ WONT ∧ c ≠ SB

inductive Item where
  | data (b : UInt8) (h : b ≠ IAC)
  | command (c : UInt8) (h : IsShort c)
  | option (verb : Verb) (option : UInt8)
  | suboption (body : List SbPiece)

namespace Item

def bytes : Item → List UInt8
  | .data b _ => [b]
  | .command c _ => [IAC, c]
  | .option verb c => [IAC, verb.byte, c]
  | .suboption body => IAC :: SB :: sbBytes body

/-- Every item but data and the two editing commands `IAC EC` and `IAC EL`. -/
def wanted : Item → Bool
  | .data _ _ => false
  | .command c _ => c ≠ EC && c ≠ EL
  | .option _ _ => true
  | .suboption _ => true

theorem bytes_ne_nil (i : Item) : i.bytes ≠ [] := by
  cases i <;> simp [bytes]

theorem bytes_pos (i : Item) : 0 < i.bytes.length := List.length_pos_iff.mpr i.bytes_ne_nil

/-- Every item but data begins with `IAC`. -/
theorem bytes_of_wanted {i : Item} (h : i.wanted = true) :
    ∃ c rest, i.bytes = IAC :: c :: rest ∧ c ≠ EC ∧ c ≠ EL := by
  cases i with
  | data b hb => cases h
  | command c hc =>
    have hne : c ≠ EC ∧ c ≠ EL := by simpa [wanted] using h
    exact ⟨c, [], rfl, hne⟩
  | option verb c => exact ⟨verb.byte, [c], rfl, by cases verb <;> decide, by cases verb <;> decide⟩
  | suboption body => exact ⟨SB, sbBytes body, rfl, by decide, by decide⟩

end Item

def encode (its : List Item) : List UInt8 := its.flatMap Item.bytes

@[simp] theorem encode_nil : encode [] = [] := rfl

@[simp] theorem encode_cons (i : Item) (its : List Item) :
    encode (i :: its) = i.bytes ++ encode its := by simp [encode]

@[simp] theorem encode_append (its more : List Item) :
    encode (its ++ more) = encode its ++ encode more := by simp [encode]

theorem encode_eq_nil {its : List Item} : encode its = [] ↔ its = [] := by
  cases its with
  | nil => simp
  | cons i its => simp [i.bytes_ne_nil]

theorem encode_pos {its : List Item} (h : its ≠ []) : 0 < (encode its).length :=
  List.length_pos_iff.mpr (fun he => h (encode_eq_nil.mp he))

theorem length_le_encode (its : List Item) : its.length ≤ (encode its).length := by
  induction its with
  | nil => simp
  | cons i its ih =>
    have hpos := i.bytes_pos
    rw [encode_cons, List.length_append, List.length_cons]
    omega

/-! ## Finding the end of an item -/

/-- "Loop forever looking for the SE": how far the `IAC SE` behind the body reaches. -/
def sbLength : List UInt8 → Option Nat
  | [] => none
  | b :: rest =>
    if b = IAC then
      match rest with
      | [] => none
      | c :: rest => if c = SE then some 2 else (sbLength rest).map (· + 2)
    else (sbLength rest).map (· + 1)

/-- The number of bytes of the first item; `none` if a byte behind the last one is needed to
tell. -/
def itemLength : List UInt8 → Option Nat
  | [] => none
  | b :: rest =>
    if b ≠ IAC then some 1
    else
      match rest with
      | [] => none
      | c :: rest =>
        if c = DO ∨ c = DONT ∨ c = WILL ∨ c = WONT then some 3
        else if c = SB then (sbLength rest).map (· + 2)
        else some 2

theorem sbLength_plain {b : UInt8} (h : b ≠ IAC) (rest : List UInt8) :
    sbLength (b :: rest) = (sbLength rest).map (· + 1) := by
  cases rest <;> simp [sbLength, h]

theorem sbLength_pair {c : UInt8} (h : c ≠ SE) (rest : List UInt8) :
    sbLength (IAC :: c :: rest) = (sbLength rest).map (· + 2) := by
  simp [sbLength, h]

theorem sbLength_append {z : List UInt8} {n : Nat} (h : sbLength z = some n) (t : List UInt8) :
    sbLength (z ++ t) = some n := by
  induction z using sbLength.induct generalizing n with
  | case1 => cases h
  | case2 => cases h
  | case3 rest => exact h
  | case4 c rest hc ih =>
    rw [sbLength_pair hc] at h
    obtain ⟨m, hm, rfl⟩ := Option.map_eq_some_iff.mp h
    rw [List.cons_append, List.cons_append, sbLength_pair hc, ih hm, Option.map_some]
  | case5 b rest hb ih =>
    rw [sbLength_plain hb] at h
    obtain ⟨m, hm, rfl⟩ := Option.map_eq_some_iff.mp h
    rw [List.cons_append, sbLength_plain hb, ih hm, Option.map_some]

theorem sbBytes_plain (b : UInt8) (h : b ≠ IAC) (body : List SbPiece) :
    sbBytes (.plain b h :: body) = b :: sbBytes body := rfl

theorem sbBytes_pair (c : UInt8) (h : c ≠ SE) (body : List SbPiece) :
    sbBytes (.pair c h :: body) = IAC :: c :: sbBytes body := rfl

theorem sbLength_sbBytes (body : List SbPiece) :
    sbLength (sbBytes body) = some (sbBytes body).length := by
  induction body with
  | nil => rfl
  | cons p body ih =>
    cases p with
    | plain b h => simp [sbBytes_plain, sbLength_plain h, ih]
    | pair c h => simp [sbBytes_pair, sbLength_pair h, ih]

theorem itemLength_bytes (i : Item) (rest : List UInt8) :
    itemLength (i.bytes ++ rest) = some i.bytes.length := by
  cases i with
  | data b h => simp [Item.bytes, itemLength, h]
  | command c h =>
    obtain ⟨h1, h2, h3, h4, h5⟩ := h
    simp [Item.bytes, itemLength, h1, h2, h3, h4, h5]
  | option verb c => cases verb <;> rfl
  | suboption body =>
    have hsb : itemLength (IAC :: SB :: (sbBytes body ++ rest)) =
        (sbLength (sbBytes body ++ rest)).map (· + 2) := rfl
    rw [Item.bytes, List.cons_append, List.cons_append, hsb,
      sbLength_append (sbLength_sbBytes body)]
    simp

/-! ## Where an item cannot begin -/

/-- A stray `IAC` before the commands of a stream does not give that stream with some of its
data and editing commands: the first command would have to be `IAC IAC`, and so on. -/
theorem encode_ne_iac_cons (its : List Item) :
    encode its ≠ IAC :: encode (its.filter Item.wanted) := by
  induction its with
  | nil => simp
  | cons i its ih =>
    intro h
    cases hw : i.wanted with
    | true =>
      obtain ⟨c, rest, hb, hec, hel⟩ := Item.bytes_of_wanted hw
      rw [List.filter_cons_of_pos hw, encode_cons, encode_cons, hb] at h
      simp only [List.cons_append, List.cons.injEq, true_and] at h
      obtain ⟨rfl, h⟩ := h
      have hrest : rest = [] := by
        cases i with
        | data b hb' => cases hw
        | command c hc =>
          simp only [Item.bytes, List.cons.injEq, true_and] at hb
          exact hb.2.symm
        | option verb c =>
          simp only [Item.bytes, List.cons.injEq, true_and] at hb
          exact absurd hb.1 (by cases verb <;> decide)
        | suboption body =>
          simp only [Item.bytes, List.cons.injEq, true_and] at hb
          exact absurd hb.1 (by decide)
      rw [hrest] at h
      exact ih (by simpa using h)
    | false =>
      rw [List.filter_cons_of_neg (by simp [hw]), encode_cons] at h
      have hhead : ∀ c rest, encode (its.filter Item.wanted) = c :: rest → c = IAC := by
        intro c rest he
        cases hf : its.filter Item.wanted with
        | nil => rw [hf] at he; cases he
        | cons j js =>
          have hj : j.wanted = true :=
            (List.mem_filter.mp (hf ▸ List.mem_cons_self : j ∈ its.filter Item.wanted)).2
          obtain ⟨d, tail, hd, -, -⟩ := Item.bytes_of_wanted hj
          rw [hf, encode_cons, hd] at he
          cases he
          rfl
      cases i with
      | data b hb => exact hb (List.cons.inj h).1
      | command c hc =>
        have hc' : c = EC ∨ c = EL := by
          by_contra hne
          rw [not_or] at hne
          simp [Item.wanted, hne] at hw
        have hiac := hhead c (encode its) (List.cons.inj h).2.symm
        rcases hc' with rfl | rfl <;> exact absurd hiac (by decide)
      | option verb c => cases hw
      | suboption body => cases hw

/-- Where `IAC SB` stands inside a body, the scan from behind it reaches the same end. -/
theorem sbLength_of_suffix {body : List SbPiece} {front z : List UInt8}
    (h : sbBytes body = front ++ IAC :: SB :: z) : sbLength z = some z.length := by
  induction body generalizing front with
  | nil =>
    have hlen := congrArg List.length h
    match front with
    | [] => simp [sbBytes, SE, SB] at h
    | [_] => simp [sbBytes] at hlen
    | _ :: _ :: _ => simp [sbBytes] at hlen
  | cons p body ih =>
    cases p with
    | plain b hb =>
      rw [sbBytes_plain] at h
      cases front with
      | nil => exact absurd (List.cons.inj h).1 hb
      | cons x front => exact ih (List.cons.inj h).2
    | pair c hc =>
      rw [sbBytes_pair] at h
      match front with
      | [] =>
        have hz : sbBytes body = z := (List.cons.inj (List.cons.inj h).2).2
        rw [← hz]
        exact sbLength_sbBytes body
      | [x] =>
        -- the `IAC` is the second byte of a pair, so the `SB` is a plain byte
        have hz : sbBytes body = SB :: z := (List.cons.inj (List.cons.inj h).2).2
        cases body with
        | nil => exact absurd (List.cons.inj hz).1 (by decide)
        | cons q body =>
          cases q with
          | plain d hd =>
            rw [sbBytes_plain] at hz
            rw [← (List.cons.inj hz).2]
            exact sbLength_sbBytes body
          | pair d hd => exact absurd (List.cons.inj hz).1 (by decide)
      | x :: y :: front => exact ih (List.cons.inj (List.cons.inj h).2).2

theorem border_suboption {body : List SbPiece} {front back y : List UInt8}
    (hend : (Item.suboption body).bytes = front ++ y)
    (hbegin : (Item.suboption body).bytes = y ++ back) (hy : 2 ≤ y.length) : front = [] := by
  match y, hy with
  | a :: b :: z, _ =>
    have hz : a = IAC ∧ b = SB ∧ sbBytes body = z ++ back := by
      simp only [Item.bytes, List.cons_append, List.cons.injEq] at hbegin
      exact ⟨hbegin.1.symm, hbegin.2.1.symm, hbegin.2.2⟩
    obtain ⟨rfl, rfl, hbody⟩ := hz
    have hscan : sbLength z = some z.length → back = [] := by
      intro hz
      have h1 := sbLength_append hz back
      rw [← hbody, sbLength_sbBytes, hbody, List.length_append] at h1
      have h2 := Option.some.inj h1
      exact List.length_eq_zero_iff.mp (by omega)
    have hlen : back = [] → front = [] := by
      intro hb
      have hl := congrArg List.length hend
      rw [hbegin, hb, List.append_nil, List.length_append] at hl
      exact List.length_eq_zero_iff.mp (by omega)
    simp only [Item.bytes] at hend
    match front with
    | [] => rfl
    | [x] => exact absurd (List.cons.inj (List.cons.inj hend).2).1 (by decide)
    | x :: w :: front =>
      have hsuf := (List.cons.inj (List.cons.inj hend).2).2
      exact hlen (hscan (sbLength_of_suffix hsuf))

end Netkit.Telnet

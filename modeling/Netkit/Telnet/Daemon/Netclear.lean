import Netkit.Telnet.Daemon.NetBuf
import Netkit.Telnet.Items
import Mathlib.Data.List.TakeWhile

/-!
# Clearing the path to the network

`netclear` of `utility.c`, called before a telnet synch: it throws away the data in `netobuf`
that has not been sent, and keeps the commands. A part of the first unsent item may have been
sent already; the function looks for the items from the beginning of the buffer to find out.

* `netclear_valid_iff`: so the wire stays a telnet stream exactly when `nbackp` lies between two
  items, with an item behind it.
-/

namespace Netkit.Telnet.Daemon

open Netkit.Foundations

namespace NetBuf

/-! ## The functions -/

/-- `none` if it reads a byte at or beyond `nfrontp`. -/
def nextitem (b : NetBuf) (current : Nat) : Option Nat :=
  (itemLength (slice b.netobuf current b.nfrontp)).map (current + ·)

/-- The macro `wewant`; `none` if it reads a byte at or beyond `nfrontp`. -/
def wewant (b : NetBuf) (p : Nat) : Option Bool :=
  match slice b.netobuf p b.nfrontp with
  | [] => some false
  | c :: rest =>
    if c = IAC then
      match rest with
      | [] => none
      | d :: _ => some (d ≠ EC && d ≠ EL)
    else some false

/-- The first loop: to the item that is "first before/at boundary". Every pass moves on by at
least one byte. -/
def skipSent (b : NetBuf) : Nat → Nat → Option Nat
  | 0, _ => none
  | fuel + 1, thisitem =>
    match b.nextitem thisitem with
    | none => none
    | some next => if next ≤ b.nbackp then skipSent b fuel next else some thisitem

def wantedRun (b : NetBuf) : Nat → Nat → Option Nat
  | 0, _ => none
  | fuel + 1, next =>
    match b.nextitem next with
    | none => none
    | some next =>
      match b.wewant next with
      | none => none
      | some want => if want && next < b.nfrontp then wantedRun b fuel next else some next

/-- The second loop: the wanted items are copied down to `good`. -/
def keepWanted : Nat → NetBuf → Nat → Nat → Option NetBuf
  | 0, _, _, _ => none
  | fuel + 1, b, thisitem, good =>
    if thisitem < b.nfrontp then
      match b.wewant thisitem with
      | none => none
      | some true =>
        match b.wantedRun (b.nfrontp + 1) thisitem with
        | none => none
        | some next =>
          let kept := slice b.netobuf thisitem next
          keepWanted fuel { b with netobuf := store b.netobuf good kept } next
            (good + kept.length)
      | some false =>
        match b.nextitem thisitem with
        | none => none
        | some next => keepWanted fuel b next good
    else some { b with nbackp := 0, nfrontp := good, neturg := none }

def netclear (b : NetBuf) : Option NetBuf :=
  match b.skipSent (b.nfrontp + 1) 0 with
  | none => none
  | some thisitem => keepWanted (b.nfrontp + 1) b thisitem 0

end NetBuf

/-! ## The items around `nbackp` -/

/-- The items that end within the first `n` bytes. -/
def sentItems : Nat → List Item → List Item
  | _, [] => []
  | n, i :: its => if i.bytes.length ≤ n then i :: sentItems (n - i.bytes.length) its else []

/-- The other items: the first of them may have begun within the first `n` bytes. -/
def unsentItems : Nat → List Item → List Item
  | _, [] => []
  | n, i :: its => if i.bytes.length ≤ n then unsentItems (n - i.bytes.length) its else i :: its

theorem sent_append_unsent (n : Nat) (its : List Item) :
    sentItems n its ++ unsentItems n its = its := by
  induction its generalizing n with
  | nil => rfl
  | cons i its ih =>
    unfold sentItems unsentItems
    split
    · rw [List.cons_append, ih]
    · rfl

theorem encode_sent_le (n : Nat) (its : List Item) : (encode (sentItems n its)).length ≤ n := by
  induction its generalizing n with
  | nil => exact Nat.zero_le n
  | cons i its ih =>
    unfold sentItems
    split
    · rename_i hi
      have := ih (n - i.bytes.length)
      rw [encode_cons, List.length_append]
      omega
    · exact Nat.zero_le n

theorem unsent_cons {n : Nat} {its rest : List Item} {i : Item}
    (h : unsentItems n its = i :: rest) :
    n < (encode (sentItems n its)).length + i.bytes.length := by
  induction its generalizing n with
  | nil => cases h
  | cons j its ih =>
    unfold unsentItems at h
    unfold sentItems
    split at h
    · rename_i hj
      have := ih h
      rw [if_pos hj, encode_cons, List.length_append]
      omega
    · rename_i hj
      cases h
      rw [if_neg hj, encode_nil, List.length_nil]
      omega

namespace NetBuf

/-- The bytes up to `nfrontp` are the items, and `nbackp` is among them. -/
structure Holds (its : List Item) (b : NetBuf) : Prop where
  order : b.nbackp ≤ b.nfrontp
  bound : b.nfrontp ≤ b.netobuf.length
  items : b.netobuf.take b.nfrontp = encode its

/-! ## What the loops do -/

variable {b : NetBuf} {its rest : List Item} {i : Item} {off good fuel : Nat}

/-- The bytes from `off` up to `nfrontp` are the items. -/
structure At (b : NetBuf) (off : Nat) (its : List Item) : Prop where
  order : off ≤ b.nfrontp
  bound : b.nfrontp ≤ b.netobuf.length
  items : slice b.netobuf off b.nfrontp = encode its

theorem Holds.at_zero (h : b.Holds its) : b.At 0 its :=
  ⟨Nat.zero_le _, h.bound, by rw [slice, List.drop_zero]; exact h.items⟩

theorem At.length (h : b.At off its) : b.nfrontp = off + (encode its).length := by
  have hlen := slice_length (i := off) h.bound
  have hord := h.order
  rw [h.items] at hlen
  omega

theorem At.tail (h : b.At off (i :: its)) : b.At (off + i.bytes.length) its := by
  have hitems := h.items
  rw [encode_cons] at hitems
  obtain ⟨hle, -, htail⟩ := slice_of_append h.bound h.order hitems
  exact ⟨hle, h.bound, htail⟩

theorem At.nextitem (h : b.At off (i :: its)) :
    b.nextitem off = some (off + i.bytes.length) := by
  rw [NetBuf.nextitem, h.items, encode_cons, itemLength_bytes, Option.map_some]

theorem At.nextitem_nil (h : b.At off []) : b.nextitem off = none := by
  rw [NetBuf.nextitem, h.items]
  rfl

theorem At.wewant (h : b.At off (i :: its)) : b.wewant off = some i.wanted := by
  rw [NetBuf.wewant, h.items, encode_cons]
  cases i with
  | data c hc => simp [Item.bytes, Item.wanted, hc]
  | command c hc => simp [Item.bytes, Item.wanted]
  | option verb c => cases verb <;> rfl
  | suboption body => rfl

theorem At.wewant_nil (h : b.At off []) : b.wewant off = some false := by
  rw [NetBuf.wewant, h.items]
  rfl

theorem skipSent_spec (h : b.At off its) (hoff : off ≤ b.nbackp) (hfuel : its.length < fuel) :
    b.skipSent fuel off =
      if unsentItems (b.nbackp - off) its = [] then none
      else some (off + (encode (sentItems (b.nbackp - off) its)).length) := by
  induction its generalizing off fuel with
  | nil =>
    cases fuel with
    | zero => rfl
    | succ fuel => simp [skipSent, h.nextitem_nil, unsentItems]
  | cons i its ih =>
    cases fuel with
    | zero => cases hfuel
    | succ fuel =>
      rw [skipSent, h.nextitem]
      dsimp only
      unfold unsentItems sentItems
      by_cases hi : off + i.bytes.length ≤ b.nbackp
      · have hi' : i.bytes.length ≤ b.nbackp - off := by omega
        rw [if_pos hi, if_pos hi', if_pos hi', ih h.tail hi (by simpa using hfuel),
          Nat.sub_add_eq, encode_cons, List.length_append, Nat.add_assoc]
      · have hi' : ¬ i.bytes.length ≤ b.nbackp - off := by omega
        rw [if_neg hi, if_neg hi', if_neg hi', if_neg (List.cons_ne_nil i its), encode_nil,
          List.length_nil, Nat.add_zero]

theorem wantedRun_spec (h : b.At off (i :: rest)) (hfuel : rest.length < fuel) :
    b.wantedRun fuel off =
      some (off + (encode (i :: rest.takeWhile Item.wanted)).length) := by
  induction rest generalizing off fuel i with
  | nil =>
    cases fuel with
    | zero => cases hfuel
    | succ fuel => simp [wantedRun, h.nextitem, h.tail.wewant_nil]
  | cons j rest ih =>
    cases fuel with
    | zero => cases hfuel
    | succ fuel =>
      have htail := h.tail
      have hlen := htail.length
      have hpos := encode_pos (List.cons_ne_nil j rest)
      have hlt : off + i.bytes.length < b.nfrontp := by omega
      rw [wantedRun, h.nextitem]
      dsimp only
      rw [htail.wewant]
      dsimp only
      cases hj : j.wanted with
      | true =>
        rw [if_pos (by simpa using hlt), ih htail (by simpa using hfuel),
          List.takeWhile_cons_of_pos hj]
        simp only [encode_cons, List.length_append, Nat.add_assoc]
      | false =>
        rw [if_neg (by simp), List.takeWhile_cons_of_neg (by simp [hj])]
        simp

theorem filter_wanted_split (its : List Item) :
    its.filter Item.wanted =
      its.takeWhile Item.wanted ++ (its.dropWhile Item.wanted).filter Item.wanted := by
  conv_lhs => rw [← List.takeWhile_append_dropWhile (p := Item.wanted) (l := its)]
  rw [List.filter_append, List.filter_eq_self.mpr]
  intro i hi
  exact List.mem_takeWhile_imp hi

/-- From `off` on, the wanted items are appended to what has been copied to `good`. -/
theorem keepWanted_spec (h : b.At off its) (hgood : good ≤ off) (hfuel : its.length < fuel) :
    ∃ b', keepWanted fuel b off good = some b' ∧
      b'.netobuf.take b'.nfrontp =
        slice b.netobuf 0 good ++ encode (its.filter Item.wanted) := by
  induction fuel generalizing b off good its with
  | zero => cases hfuel
  | succ fuel ih =>
    have hlen := h.length
    have hbound := h.bound
    cases its with
    | nil =>
      have hend : ¬ off < b.nfrontp := by
        rw [encode_nil, List.length_nil] at hlen
        omega
      refine ⟨_, by rw [keepWanted, if_neg hend], ?_⟩
      simp [slice]
    | cons i rest =>
      have hpos := encode_pos (List.cons_ne_nil i rest)
      have hlt : off < b.nfrontp := by omega
      rw [keepWanted, if_pos hlt, h.wewant]
      rw [List.length_cons] at hfuel
      cases hi : i.wanted with
      | true =>
        have hfit : rest.length < b.nfrontp + 1 := by
          have := length_le_encode (i :: rest)
          rw [List.length_cons] at this
          omega
        dsimp only
        rw [wantedRun_spec h hfit]
        dsimp only
        have hsplit : i :: rest =
            (i :: rest.takeWhile Item.wanted) ++ rest.dropWhile Item.wanted := by
          rw [List.cons_append, List.takeWhile_append_dropWhile]
        have hitems := h.items
        rw [hsplit, encode_append] at hitems
        obtain ⟨hle, hrun, hrest⟩ := slice_of_append h.bound h.order hitems
        rw [hrun]
        have hroom : good + (encode (i :: rest.takeWhile Item.wanted)).length ≤
            b.netobuf.length := by omega
        have hdrop : (rest.dropWhile Item.wanted).length ≤ rest.length :=
          List.length_dropWhile_le _ _
        have hat : At
            { b with netobuf := store b.netobuf good (encode (i :: rest.takeWhile Item.wanted)) }
            (off + (encode (i :: rest.takeWhile Item.wanted)).length)
            (rest.dropWhile Item.wanted) := by
          refine ⟨hle, ?_, ?_⟩
          · rw [store_length _ (by omega)]
            exact h.bound
          · rw [slice_store_above (by omega) hroom]
            exact hrest
        have hgood' : good + (encode (i :: rest.takeWhile Item.wanted)).length ≤
            off + (encode (i :: rest.takeWhile Item.wanted)).length := by omega
        obtain ⟨b', hb', hkept⟩ := ih hat hgood' (by omega)
        refine ⟨b', hb', ?_⟩
        rw [hkept, slice_store_append (Nat.zero_le good) hroom, List.append_assoc,
          ← encode_append, List.filter_cons_of_pos hi, filter_wanted_split rest,
          List.cons_append]
      | false =>
        dsimp only
        rw [h.nextitem]
        dsimp only
        obtain ⟨b', hb', hkept⟩ := ih h.tail (Nat.le_add_right_of_le hgood) (by omega)
        refine ⟨b', hb', ?_⟩
        rw [hkept, List.filter_cons_of_neg (by simp [hi])]

/-- `netclear` keeps the wanted ones of the unsent items. With nothing unsent it reads the
byte at `nfrontp`. -/
theorem netclear_spec (h : b.Holds its) :
    (unsentItems b.nbackp its = [] → b.netclear = none) ∧
      (unsentItems b.nbackp its ≠ [] → ∃ b', b.netclear = some b' ∧
        b'.netobuf.take b'.nfrontp =
          encode ((unsentItems b.nbackp its).filter Item.wanted)) := by
  have hat := h.at_zero
  have hlen := hat.length
  have hfuel : its.length < b.nfrontp + 1 := by
    have := length_le_encode its
    omega
  have hskip := skipSent_spec hat (Nat.zero_le _) hfuel
  rw [Nat.sub_zero, Nat.zero_add] at hskip
  constructor
  · intro hnil
    rw [netclear, hskip, if_pos hnil]
  · intro hne
    rw [netclear, hskip, if_neg hne]
    dsimp only
    have hitems := hat.items
    rw [← sent_append_unsent b.nbackp its, encode_append] at hitems
    obtain ⟨hle, -, hrest⟩ := slice_of_append hat.bound hat.order hitems
    rw [Nat.zero_add] at hle hrest
    have hshort : (unsentItems b.nbackp its).length ≤ its.length := by
      conv_rhs => rw [← sent_append_unsent b.nbackp its]
      rw [List.length_append]
      omega
    have hat' : At b (encode (sentItems b.nbackp its)).length (unsentItems b.nbackp its) :=
      ⟨hle, hat.bound, hrest⟩
    have hfuel' : (unsentItems b.nbackp its).length < b.nfrontp + 1 := by omega
    obtain ⟨b', hb', hkept⟩ := keepWanted_spec hat' (Nat.zero_le _) hfuel'
    refine ⟨b', hb', ?_⟩
    rw [hkept, slice_self, List.nil_append]

/-! ## What is left on the wire -/

/-- The bytes sent and the bytes kept are a stream of items again: the items sent, followed by
the unsent ones without some of their data and editing commands. -/
def Cleared (its : List Item) (b b' : NetBuf) : Prop :=
  ∃ kept : List Item, kept.Sublist (unsentItems b.nbackp its) ∧
    kept.filter Item.wanted = (unsentItems b.nbackp its).filter Item.wanted ∧
    b.netobuf.take b.nbackp ++ b'.netobuf.take b'.nfrontp =
      encode (sentItems b.nbackp its ++ kept)

theorem kept_of_wanted {kept : List Item} (hi : i.wanted = true)
    (hsub : kept.Sublist (i :: rest))
    (hfilter : kept.filter Item.wanted = (i :: rest).filter Item.wanted) :
    ∃ kept', kept = i :: kept' ∧ kept'.filter Item.wanted = rest.filter Item.wanted := by
  rw [List.filter_cons_of_pos hi] at hfilter
  cases hsub with
  | cons _ hsub =>
    have hle := (hsub.filter Item.wanted).length_le
    rw [hfilter, List.length_cons] at hle
    omega
  | cons_cons _ hsub =>
    rw [List.filter_cons_of_pos hi] at hfilter
    exact ⟨_, rfl, (List.cons.inj hfilter).2⟩

/-- After a part of a suboption, sending it once more from its beginning does not give the
same bytes as going on with it. -/
theorem suboption_not_resent {body : List SbPiece} {j : Nat} {xs ys : List UInt8} (hj : 0 < j)
    (hlt : j < (Item.suboption body).bytes.length) :
    (Item.suboption body).bytes ++ xs ≠ (Item.suboption body).bytes.drop j ++ ys := by
  intro h
  have hsplit := (List.take_append_drop j (Item.suboption body).bytes).symm
  have hpre : (Item.suboption body).bytes.drop j <+: (Item.suboption body).bytes :=
    List.prefix_of_prefix_length_le ⟨ys, h.symm⟩ (List.prefix_append _ xs)
      (by rw [List.length_drop]; omega)
  obtain ⟨back, hback⟩ := hpre
  by_cases htwo : 2 ≤ ((Item.suboption body).bytes.drop j).length
  · have hfront := border_suboption hsplit hback.symm htwo
    have hlen := congrArg List.length hfront
    rw [List.length_take, List.length_nil] at hlen
    omega
  · -- the last byte is `SE`, the first one `IAC`
    have hone : j = (Item.suboption body).bytes.length - 1 := by
      rw [List.length_drop] at htwo
      omega
    have hlast : (Item.suboption body).bytes.drop j = [SE] := by
      have hb : (Item.suboption body).bytes =
          (IAC :: SB :: (body.flatMap SbPiece.bytes ++ [IAC])) ++ [SE] := by
        simp [Item.bytes, sbBytes]
      rw [hone, hb, List.length_append, List.length_singleton, Nat.add_sub_cancel,
        List.drop_left]
    rw [hlast] at hback
    simp only [Item.bytes, List.cons_append] at hback
    exact absurd (List.cons.inj hback).1 (by decide)

/-- With `nbackp` inside an item, what is sent next does not continue the stream: the rest of
the item never comes. -/
theorem inside_not_continued {kept : List Item} {j : Nat} (hj : 0 < j)
    (hlt : j < i.bytes.length) (hsub : kept.Sublist (i :: rest))
    (hfilter : kept.filter Item.wanted = (i :: rest).filter Item.wanted) :
    i.bytes.take j ++ encode ((i :: rest).filter Item.wanted) ≠ encode kept := by
  intro h
  cases hi : i.wanted with
  | false =>
    cases i with
    | data c hc =>
      rw [Item.bytes, List.length_singleton] at hlt
      omega
    | command c hc =>
      have hone : j = 1 := by
        simp only [Item.bytes, List.length_cons, List.length_nil] at hlt
        omega
      rw [← hfilter, hone] at h
      exact encode_ne_iac_cons kept h.symm
    | option verb c => cases hi
    | suboption body => cases hi
  | true =>
    obtain ⟨kept', rfl, hfilter'⟩ := kept_of_wanted hi hsub hfilter
    rw [List.filter_cons_of_pos hi, encode_cons, encode_cons, ← hfilter'] at h
    conv_rhs at h => rw [← List.take_append_drop j i.bytes]
    rw [List.append_assoc] at h
    have hrest := List.append_cancel_left h
    cases i with
    | data c hc => cases hi
    | command c hc =>
      have hone : j = 1 := by
        simp only [Item.bytes, List.length_cons, List.length_nil] at hlt
        omega
      subst hone
      simp only [Item.bytes, List.cons_append, List.nil_append, List.drop_succ_cons,
        List.drop_zero, List.cons.injEq] at hrest
      obtain ⟨rfl, htail⟩ := hrest
      exact encode_ne_iac_cons kept' htail.symm
    | option verb c =>
      have htwo : j = 1 ∨ j = 2 := by
        simp only [Item.bytes, List.length_cons, List.length_nil] at hlt
        omega
      rcases htwo with rfl | rfl
      · simp only [Item.bytes, List.cons_append, List.nil_append, List.drop_succ_cons,
          List.drop_zero, List.cons.injEq] at hrest
        exact absurd hrest.1 (by cases verb <;> decide)
      · simp only [Item.bytes, List.cons_append, List.nil_append, List.drop_succ_cons,
          List.drop_zero, List.cons.injEq] at hrest
        obtain ⟨rfl, htail⟩ := hrest
        have hverb : verb.byte ≠ IAC := by cases verb <;> decide
        cases kept' with
        | nil => cases htail
        | cons k kept' =>
          cases k with
          | data d hd =>
            rw [encode_cons, Item.bytes, List.singleton_append] at htail
            exact encode_ne_iac_cons kept' (List.cons.inj htail).2.symm
          | command d hd => exact hverb (List.cons.inj htail).1
          | option w d => exact hverb (List.cons.inj htail).1
          | suboption body => exact hverb (List.cons.inj htail).1
    | suboption body => exact suboption_not_resent hj hlt hrest

theorem take_nbackp (h : b.Holds its) :
    b.netobuf.take b.nbackp = encode (sentItems b.nbackp its) ++
      (encode (unsentItems b.nbackp its)).take
        (b.nbackp - (encode (sentItems b.nbackp its)).length) := by
  have hitems := h.items
  have htake : b.netobuf.take b.nbackp = (encode its).take b.nbackp := by
    rw [← hitems, List.take_take, Nat.min_eq_left h.order]
  rw [htake]
  conv_lhs => rw [← sent_append_unsent b.nbackp its]
  rw [encode_append, List.take_append, List.take_of_length_le (encode_sent_le _ _)]

theorem unsent_nil_iff (h : b.Holds its) :
    unsentItems b.nbackp its = [] ↔ b.nbackp = b.nfrontp := by
  have hlen := h.at_zero.length
  have hsum := congrArg (fun its => (encode its).length) (sent_append_unsent b.nbackp its)
  simp only [encode_append, List.length_append] at hsum
  have hle := encode_sent_le b.nbackp its
  have hord := h.order
  constructor
  · intro hnil
    rw [hnil, encode_nil, List.length_nil] at hsum
    omega
  · intro heq
    cases hu : unsentItems b.nbackp its with
    | nil => rfl
    | cons i rest =>
      have hlt := unsent_cons hu
      rw [hu, encode_cons, List.length_append] at hsum
      omega

/-- `netclear` reads nothing behind the buffer and leaves a stream of items, with no command
lost or sent twice, exactly when `nbackp` lies between two items and there is something
unsent. -/
theorem netclear_valid_iff (h : b.Holds its) :
    (∃ b', b.netclear = some b' ∧ Cleared its b b') ↔
      b.nbackp < b.nfrontp ∧ (encode (sentItems b.nbackp its)).length = b.nbackp := by
  obtain ⟨hnone, hsome⟩ := netclear_spec h
  have hnil := unsent_nil_iff h
  have hord := h.order
  constructor
  · rintro ⟨b', hb', kept, hsub, hfilter, hwire⟩
    have hne : unsentItems b.nbackp its ≠ [] := by
      intro he
      rw [hnone he] at hb'
      cases hb'
    obtain ⟨b'', hb'', hkept⟩ := hsome hne
    rw [hb'] at hb''
    cases hb''
    rw [ne_eq, hnil] at hne
    refine ⟨by omega, ?_⟩
    rw [take_nbackp h, hkept, encode_append, List.append_assoc] at hwire
    have hrest := List.append_cancel_left hwire
    have hle := encode_sent_le b.nbackp its
    by_contra hinside
    cases hu : unsentItems b.nbackp its with
    | nil => exact hne (hnil.mp hu)
    | cons i rest =>
      have hlt := unsent_cons hu
      rw [hu] at hsub hfilter hrest
      rw [encode_cons, List.take_append_of_le_length (by omega)] at hrest
      exact inside_not_continued (by omega) (by omega) hsub hfilter hrest
  · rintro ⟨hlt, hbound⟩
    have hne : unsentItems b.nbackp its ≠ [] := by
      rw [ne_eq, hnil]
      omega
    obtain ⟨b', hb', hkept⟩ := hsome hne
    refine ⟨b', hb', (unsentItems b.nbackp its).filter Item.wanted, List.filter_sublist, ?_, ?_⟩
    · rw [List.filter_filter]
      simp
    · rw [take_nbackp h, hbound, Nat.sub_self, List.take_zero, List.append_nil, hkept,
        encode_append]

/-- The buffer of telnetd with the given bytes in it, of which the first `nbackp` are sent. -/
def ofBytes (bytes : List UInt8) (nbackp : Nat) : NetBuf where
  netobuf := bytes ++ List.replicate (netobufSize - bytes.length) 0
  nbackp := nbackp
  nfrontp := bytes.length
  neturg := none
  not42 := true
  sent := bytes.take nbackp

theorem ofBytes_holds {its : List Item} {n : Nat} (hn : n ≤ (encode its).length) :
    (ofBytes (encode its) n).Holds its := by
  refine ⟨hn, ?_, ?_⟩
  · simp [ofBytes]
  · simp [ofBytes]

/-- One byte of `IAC DO ECHO` has been sent. The whole command is sent after it, and the wire
carries `IAC IAC`, which is a data byte 255, and two more data bytes. -/
theorem netclear_resends_command :
    ∃ b', (ofBytes [IAC, DO, TELOPT_ECHO] 1).netclear = some b' ∧
      (ofBytes [IAC, DO, TELOPT_ECHO] 1).netobuf.take 1 ++ b'.netobuf.take b'.nfrontp =
        [IAC, IAC, DO, TELOPT_ECHO] ∧
      ¬ Cleared [.option .doo TELOPT_ECHO] (ofBytes [IAC, DO, TELOPT_ECHO] 1) b' := by
  have hholds : (ofBytes (encode [.option .doo TELOPT_ECHO]) 1).Holds [.option .doo TELOPT_ECHO] :=
    ofBytes_holds (by decide)
  obtain ⟨b', hb', hkept⟩ := (netclear_spec hholds).2 (List.cons_ne_nil _ _)
  have hsent : (ofBytes [IAC, DO, TELOPT_ECHO] 1).netobuf.take 1 = [IAC] := rfl
  have hwhole : b'.netobuf.take b'.nfrontp = [IAC, DO, TELOPT_ECHO] := hkept
  refine ⟨b', hb', by rw [hsent, hwhole]; rfl, ?_⟩
  rintro ⟨kept, hsub, hfilter, hwire⟩
  have hone : (ofBytes [IAC, DO, TELOPT_ECHO] 1).nbackp = 1 := rfl
  rw [hone, hsent, hwhole] at hwire
  have hlt : 1 < (Item.option .doo TELOPT_ECHO).bytes.length := by decide
  exact inside_not_continued Nat.one_pos hlt hsub hfilter hwire

/-- A data byte has been sent, a command and another data byte have not. -/
theorem netclear_valid_between :
    ∃ b', (ofBytes [104, IAC, NOP, 105] 1).netclear = some b' ∧
      Cleared [.data 104 (by decide), .command NOP (by unfold IsShort; decide),
        .data 105 (by decide)] (ofBytes [104, IAC, NOP, 105] 1) b' := by
  have hholds : (ofBytes (encode [.data 104 (by decide), .command NOP (by unfold IsShort; decide),
      .data 105 (by decide)]) 1).Holds [.data 104 (by decide),
        .command NOP (by unfold IsShort; decide), .data 105 (by decide)] :=
    ofBytes_holds (by decide)
  exact (netclear_valid_iff hholds).mpr ⟨by decide, rfl⟩

end NetBuf

end Netkit.Telnet.Daemon

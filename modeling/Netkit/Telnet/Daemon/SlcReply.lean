import Netkit.Foundations.Memory
import Netkit.Telnet.Client.SlcReply

/-!
# The reply of telnetd to special characters

`process_slc` of `slc.c` goes through the triplets of a suboption and adds its answers to `slcbuf`,
which has a fixed size; a byte that does not fit is dropped. `end_slc` adds the end of the
suboption with `snprintf`, and counts it whether or not there was room for it.

While the state of the pty has not been processed, the first suboption is kept, to be processed
later.

* `endSlc_wellFormed_iff`: the replies that are complete and inside of `slcbuf`.
-/

namespace Netkit.Telnet.Slc

open Netkit.Foundations

/-- `sizeof slcbuf`. -/
def slcbufSize : Nat := NSLC * 6

abbrev Slctab := Fin (NSLC + 1) → Slcfun

structure SlcState where
  /-- `slcbuf`, of which `slcoff` bytes are in use. -/
  slcbuf : Bounded UInt8
  slctab : Slctab
  defSlcbuf : Option (List UInt8)

/-! ## The functions -/

def addSlcbufRawChar (ch : UInt8) (s : SlcState) : SlcState :=
  { s with slcbuf := s.slcbuf.push ch }

def addSlcbufChar (ch : UInt8) (s : SlcState) : SlcState :=
  let s := addSlcbufRawChar ch s
  if ch = 0xff then addSlcbufRawChar 0xff s else s

def addSlc (func : UInt8) (t : Triplet) (s : SlcState) : SlcState :=
  addSlcbufChar t.value (addSlcbufChar (.ofBitVec t.flags) (addSlcbufChar func s))

def functions : List (Fin (NSLC + 1)) := (List.finRange (NSLC + 1)).tail

def sendSlc (s : SlcState) : SlcState :=
  functions.foldl (fun s i =>
    match (s.slctab i).sendSlc with
    | some t => addSlc (UInt8.ofNat i) t s
    | none => s) s

def defaultTab (tab : Slctab) : Slctab := fun i =>
  if i.val = 0 then tab i else (tab i).defaultSlc

def defaultSlc (s : SlcState) : SlcState := { s with slctab := defaultTab s.slctab }

/-- `snprintf` of the text into the `size` bytes from `off` on; the last of them is for the NUL. -/
def snprintf (mem : List UInt8) (off size : Nat) (text : List UInt8) : List UInt8 :=
  if size = 0 then mem else
    let written := text.take (size - 1) ++ [0]
    mem.take off ++ written ++ mem.drop (off + written.length)

def startSlc (s : SlcState) : SlcState :=
  { s with slcbuf := ⟨snprintf s.slcbuf.mem 0 slcbufSize slcStartReply, 4⟩ }

def processSlc (func : UInt8) (flag : BitVec 8) (val : UInt8) (s : SlcState) : SlcState :=
  if h : func.toNat < NSLC + 1 then
    if func = 0 then
      let flag := flag &&& SLC_LEVELBITS
      if flag = SLC_DEFAULT then sendSlc (defaultSlc s)
      else if flag = SLC_VARIABLE then sendSlc s
      else s
    else
      let i : Fin (NSLC + 1) := ⟨func.toNat, h⟩
      let r := (s.slctab i).processSlc flag val
      let s := { s with slctab := Function.update s.slctab i r.1 }
      match r.2 with
      | some t => addSlc func t s
      | none => s
  else addSlc func ⟨SLC_NOSUPPORT, 0⟩ s

/-- The loop of `do_opt_slc`. -/
def processAllSlc : List UInt8 → SlcState → SlcState
  | func :: flag :: val :: ptr, s => processAllSlc ptr (processSlc func flag.toBitVec val s)
  | _, s => s

/-- `malloc` says whether there is memory for a copy. -/
def doOptSlc (terminit malloc : Bool) (ptr : List UInt8) (s : SlcState) : SlcState :=
  if terminit then processAllSlc ptr s
  else if s.defSlcbuf = none ∧ malloc = true then { s with defSlcbuf := some ptr }
  else s

/-- What `end_slc` gives to `writenet`: nothing, the bytes of a message, or bytes behind `slcbuf`
with them. -/
inductive Reply where
  | nothing
  | message (bytes : List UInt8)
  | beyond
deriving DecidableEq

/-- `end_slc(0)`. -/
def endSlc (terminit : Bool) (s : SlcState) : Reply :=
  if s.defSlcbuf.isSome ∧ terminit = false then .nothing
  else if 4 < s.slcbuf.used then
    let off := s.slcbuf.used
    let slcbuf := snprintf s.slcbuf.mem off (slcbufSize - off) [IAC, SE]
    if off + 2 ≤ slcbufSize then .message (slcbuf.take (off + 2)) else .beyond
  else .nothing

/-- The suboption `LM_SLC` has come. -/
def lmSlc (terminit malloc : Bool) (ptr : List UInt8) (s : SlcState) : Reply × SlcState :=
  let s := doOptSlc terminit malloc ptr (startSlc s)
  (endSlc terminit s, s)

/-- `deferslc`, which is called when the state of the pty has been processed. -/
def deferslc (s : SlcState) : Reply × SlcState :=
  match s.defSlcbuf with
  | some ptr =>
    let s := processAllSlc ptr (startSlc s)
    (endSlc true s, { s with defSlcbuf := none })
  | none => (.nothing, s)

/-! ## Answers -/

def tripletBytes (r : UInt8 × Triplet) : List UInt8 :=
  slcReplyByte r.1 ++ slcReplyByte (.ofBitVec r.2.flags) ++ slcReplyByte r.2.value

def supported (tab : Slctab) : List (UInt8 × Triplet) :=
  functions.filterMap fun i => (tab i).sendSlc.map fun t => (UInt8.ofNat i, t)

def answer (func : UInt8) (flag : BitVec 8) (val : UInt8) (tab : Slctab) :
    Slctab × List (UInt8 × Triplet) :=
  if h : func.toNat < NSLC + 1 then
    if func = 0 then
      if level flag = SLC_DEFAULT then (defaultTab tab, supported (defaultTab tab))
      else if level flag = SLC_VARIABLE then (tab, supported tab)
      else (tab, [])
    else
      let r := (tab ⟨func.toNat, h⟩).processSlc flag val
      (Function.update tab ⟨func.toNat, h⟩ r.1, r.2.toList.map fun t => (func, t))
  else (tab, [(func, ⟨SLC_NOSUPPORT, 0⟩)])

def answers : List UInt8 → Slctab → List (UInt8 × Triplet)
  | func :: flag :: val :: ptr, tab =>
    let r := answer func flag.toBitVec val tab
    r.2 ++ answers ptr r.1
  | _, _ => []

def answersLength (ptr : List UInt8) (tab : Slctab) : Nat :=
  ((answers ptr tab).flatMap tripletBytes).length

/-- A suboption with whole triplets, in which `IAC` is doubled, and nothing behind it. -/
inductive Reply.WellFormed : Reply → Prop where
  | nothing : WellFormed .nothing
  | message (ts : List (UInt8 × Triplet)) :
      WellFormed (.message (slcStartReply ++ ts.flatMap tripletBytes ++ [IAC, SE]))

/-! ## What is added -/

variable {s : SlcState} {text : List UInt8}

/-- The buffer has its size, and holds what fits of the text. -/
structure SlcState.Holds (s : SlcState) (text : List UInt8) : Prop where
  size : s.slcbuf.mem.length = slcbufSize
  holds : s.slcbuf.Holds text

theorem addSlcbufRawChar_holds (h : s.Holds text) (ch : UInt8) :
    (addSlcbufRawChar ch s).Holds (text ++ [ch]) :=
  ⟨(Bounded.length_push _ _).trans h.size, Bounded.push_holds h.holds ch⟩

theorem addSlcbufChar_holds (h : s.Holds text) (ch : UInt8) :
    (addSlcbufChar ch s).Holds (text ++ slcReplyByte ch) := by
  have hfirst := addSlcbufRawChar_holds h ch
  unfold addSlcbufChar slcReplyByte
  dsimp only
  split
  · next hiac =>
    rw [if_pos (show ch = IAC from hiac)]
    have hsecond := addSlcbufRawChar_holds hfirst 0xff
    rw [List.append_assoc] at hsecond
    exact hsecond
  · next hiac =>
    rw [if_neg (show ¬ ch = IAC from hiac)]
    exact hfirst

theorem addSlc_holds (h : s.Holds text) (func : UInt8) (t : Triplet) :
    (addSlc func t s).Holds (text ++ tripletBytes (func, t)) := by
  have hall := addSlcbufChar_holds (addSlcbufChar_holds (addSlcbufChar_holds h func)
    (.ofBitVec t.flags)) t.value
  rw [List.append_assoc, List.append_assoc, ← List.append_assoc (slcReplyByte func)] at hall
  exact hall

theorem addSlcbufChar_rest (ch : UInt8) (s : SlcState) :
    (addSlcbufChar ch s).slctab = s.slctab ∧ (addSlcbufChar ch s).defSlcbuf = s.defSlcbuf := by
  unfold addSlcbufChar
  dsimp only
  split
  · exact ⟨rfl, rfl⟩
  · exact ⟨rfl, rfl⟩

theorem addSlc_rest (func : UInt8) (t : Triplet) (s : SlcState) :
    (addSlc func t s).slctab = s.slctab ∧ (addSlc func t s).defSlcbuf = s.defSlcbuf := by
  obtain ⟨h1, h1'⟩ := addSlcbufChar_rest func s
  obtain ⟨h2, h2'⟩ := addSlcbufChar_rest (.ofBitVec t.flags) (addSlcbufChar func s)
  obtain ⟨h3, h3'⟩ := addSlcbufChar_rest t.value
    (addSlcbufChar (.ofBitVec t.flags) (addSlcbufChar func s))
  exact ⟨h3.trans (h2.trans h1), h3'.trans (h2'.trans h1')⟩

/-- The answers have been added, and the table is the one that belongs to them. -/
structure Adds (s t : SlcState) (tab : Slctab) (text : List UInt8) (ts : List (UInt8 × Triplet)) :
    Prop where
  holds : t.Holds (text ++ ts.flatMap tripletBytes)
  slctab : t.slctab = tab
  defSlcbuf : t.defSlcbuf = s.defSlcbuf

theorem addSlc_adds (h : s.Holds text) (func : UInt8) (t : Triplet) :
    Adds s (addSlc func t s) s.slctab text [(func, t)] where
  holds := by
    rw [List.flatMap_cons, List.flatMap_nil, List.append_nil]
    exact addSlc_holds h func t
  slctab := (addSlc_rest func t s).1
  defSlcbuf := (addSlc_rest func t s).2

theorem adds_none (h : s.Holds text) : Adds s s s.slctab text [] where
  holds := by
    rw [List.flatMap_nil, List.append_nil]
    exact h
  slctab := rfl
  defSlcbuf := rfl

/-- The induction is on the functions that are still to be gone through. -/
theorem sendSlc_adds (h : s.Holds text) :
    Adds s (sendSlc s) s.slctab text (supported s.slctab) := by
  unfold sendSlc supported
  generalize functions = is
  induction is generalizing s text with
  | nil => exact adds_none h
  | cons i is ih =>
    rw [List.foldl_cons, List.filterMap_cons]
    cases hsend : (s.slctab i).sendSlc with
    | none => exact ih h
    | some t =>
      have hadd := addSlc_adds h (UInt8.ofNat i) t
      have hrest := ih hadd.holds
      rw [hadd.slctab] at hrest
      refine ⟨?_, hrest.slctab, hrest.defSlcbuf.trans hadd.defSlcbuf⟩
      have hholds := hrest.holds
      rw [List.append_assoc, ← List.flatMap_append] at hholds
      exact hholds

theorem processSlc_adds (h : s.Holds text) (func : UInt8) (flag : BitVec 8) (val : UInt8) :
    Adds s (processSlc func flag val s) (answer func flag val s.slctab).1 text
      (answer func flag val s.slctab).2 := by
  unfold processSlc answer
  split
  · next hfunc =>
    split
    · have hlevel : level flag = flag &&& SLC_LEVELBITS := rfl
      dsimp only
      rw [hlevel]
      split
      · have hsend := @sendSlc_adds (defaultSlc s) text ⟨h.size, h.holds⟩
        exact ⟨hsend.holds, hsend.slctab, hsend.defSlcbuf⟩
      · split
        · exact sendSlc_adds h
        · exact adds_none h
    · dsimp only
      cases hr : ((s.slctab ⟨func.toNat, hfunc⟩).processSlc flag val).2 with
      | none =>
        refine ⟨?_, rfl, rfl⟩
        rw [Option.toList_none, List.map_nil, List.flatMap_nil, List.append_nil]
        exact ⟨h.size, h.holds⟩
      | some t =>
        let next := Function.update s.slctab ⟨func.toNat, hfunc⟩
          ((s.slctab ⟨func.toNat, hfunc⟩).processSlc flag val).1
        have hadd := @addSlc_adds { s with slctab := next } text ⟨h.size, h.holds⟩ func t
        exact ⟨hadd.holds, hadd.slctab, hadd.defSlcbuf⟩
  · exact addSlc_adds h func _

/-- The induction is on the triplets. -/
theorem processAllSlc_adds (h : s.Holds text) (ptr : List UInt8) :
    ∃ tab, Adds s (processAllSlc ptr s) tab text (answers ptr s.slctab) := by
  induction ptr, s using processAllSlc.induct generalizing text with
  | case1 func flag val ptr s ih =>
    have hfirst := processSlc_adds h func flag.toBitVec val
    obtain ⟨tab, hrest⟩ := ih hfirst.holds
    rw [hfirst.slctab] at hrest
    refine ⟨tab, ?_, hrest.slctab, hrest.defSlcbuf.trans hfirst.defSlcbuf⟩
    have hholds := hrest.holds
    rw [List.append_assoc, ← List.flatMap_append] at hholds
    exact hholds
  | case2 ptr s hshort =>
    rw [processAllSlc, answers]
    · exact ⟨s.slctab, adds_none h⟩
    · exact hshort
    · exact hshort

/-! ## The message -/

theorem length_snprintf {mem text : List UInt8} {off size : Nat}
    (h : off + ((text.take (size - 1)).length + 1) ≤ mem.length) :
    (snprintf mem off size text).length = mem.length := by
  unfold snprintf
  split
  · rfl
  · dsimp only
    simp only [List.length_append, List.length_drop, List.length_cons, List.length_nil]
    rw [List.length_take_of_le (by omega)]
    omega

theorem take_snprintf {mem text : List UInt8} {off size k : Nat} (hoff : off ≤ mem.length)
    (hsize : 0 < size) (hk : k ≤ (text.take (size - 1) ++ [0]).length) :
    (snprintf mem off size text).take (off + k) =
      mem.take off ++ (text.take (size - 1) ++ [0]).take k := by
  have hfront : (mem.take off).length = off := List.length_take_of_le hoff
  rw [snprintf, if_neg (by omega)]
  dsimp only
  generalize text.take (size - 1) ++ [0] = written at hk ⊢
  generalize mem.drop (off + written.length) = rest
  calc (mem.take off ++ written ++ rest).take (off + k)
      = (mem.take off ++ (written ++ rest)).take ((mem.take off).length + k) := by
        rw [hfront, List.append_assoc]
    _ = mem.take off ++ written.take k := by
        rw [List.take_length_add_append, List.take_append_of_le_length hk]

theorem startSlc_holds (h : s.slcbuf.mem.length = slcbufSize) :
    (startSlc s).Holds slcStartReply := by
  have hsize : (startSlc s).slcbuf.mem.length = slcbufSize := by
    have hlength := @length_snprintf s.slcbuf.mem slcStartReply 0 slcbufSize (by rw [h]; decide)
    exact hlength.trans h
  refine ⟨hsize, ?_, ?_⟩
  · rw [hsize]
    rfl
  · have htake := @take_snprintf s.slcbuf.mem slcStartReply 0 slcbufSize 4 (Nat.zero_le _)
      (by decide) (by decide)
    rw [hsize]
    exact htake

theorem wellFormed_ends {bytes : List UInt8} (h : (Reply.message bytes).WellFormed) :
    bytes.getLast? = some SE := by
  cases h
  rw [List.getLast?_append]
  rfl

/-- With the answers in the buffer, the message is whole if the end fits as well, together with the
NUL that `snprintf` writes behind it. -/
theorem endSlc_holds {ts : List (UInt8 × Triplet)}
    (h : s.Holds (slcStartReply ++ ts.flatMap tripletBytes)) :
    (endSlc true s).WellFormed ↔ (ts.flatMap tripletBytes).length ≤ 101 := by
  generalize hn : (ts.flatMap tripletBytes).length = n
  have hlength : (slcStartReply ++ ts.flatMap tripletBytes).length = 4 + n := by
    rw [List.length_append, hn]
    rfl
  have hused := h.holds.used
  have hsize : slcbufSize = 108 := rfl
  rw [h.size, hlength, hsize] at hused
  rw [endSlc, if_neg (by rintro ⟨-, h⟩; cases h)]
  by_cases hnone : n = 0
  · rw [if_neg (by omega)]
    exact ⟨fun _ => by omega, fun _ => .nothing⟩
  rw [if_pos (by omega)]
  dsimp only
  by_cases hroom : n ≤ 101
  · obtain ⟨hoff, hfront⟩ := h.holds.whole (by rw [hlength, h.size]; omega)
    rw [hlength] at hoff
    rw [if_pos (by omega)]
    refine ⟨fun _ => hroom, fun _ => ?_⟩
    have htext : [IAC, SE].take (slcbufSize - s.slcbuf.used - 1) = [IAC, SE] :=
      List.take_of_length_le (show 2 ≤ _ by omega)
    rw [take_snprintf (by rw [h.size]; omega) (by omega) (by rw [htext]; decide), htext, hfront]
    exact .message ts
  · refine iff_of_false (fun hwell => ?_) (by omega)
    split at hwell
    · next hle =>
      -- one byte is left for `SE`, and it gets the NUL
      have hoff : s.slcbuf.used = 106 := by omega
      have hlast := wellFormed_ends hwell
      have htext : [IAC, SE].take (slcbufSize - 106 - 1) = [IAC] := rfl
      rw [hoff, take_snprintf (by rw [h.size]; decide) (by decide) (by rw [htext]; decide), htext,
        List.getLast?_append] at hlast
      exact absurd (Option.some.inj hlast) (show (0 : UInt8) ≠ SE by decide)
    · cases hwell

/-- A suboption is answered with a complete message inside of `slcbuf`, at once or when the state
of the pty has been processed, exactly if its answers take at most 101 bytes. -/
theorem endSlc_wellFormed_iff (s : SlcState) (h : s.slcbuf.mem.length = slcbufSize)
    (malloc : Bool) (ptr : List UInt8) :
    ((lmSlc true malloc ptr s).1.WellFormed ↔ answersLength ptr s.slctab ≤ 101) ∧
      (lmSlc false malloc ptr s).1.WellFormed ∧
      ∀ ptr', s.defSlcbuf = some ptr' →
        ((deferslc s).1.WellFormed ↔ answersLength ptr' s.slctab ≤ 101) := by
  have hstart := startSlc_holds h
  refine ⟨?_, ?_, fun ptr' hptr => ?_⟩
  · obtain ⟨tab, hall⟩ := processAllSlc_adds hstart ptr
    exact endSlc_holds hall.holds
  · show (endSlc false (doOptSlc false malloc ptr (startSlc s))).WellFormed
    have hoff : (doOptSlc false malloc ptr (startSlc s)).slcbuf.used = 4 := by
      unfold doOptSlc
      rw [if_neg Bool.false_ne_true]
      split
      · rfl
      · rfl
    unfold endSlc
    rw [hoff, if_neg (Nat.lt_irrefl 4)]
    split
    · exact .nothing
    · exact .nothing
  · obtain ⟨tab, hall⟩ := processAllSlc_adds hstart ptr'
    rw [deferslc, hptr]
    exact endSlc_holds hall.holds

def slcStateNone : SlcState where
  slcbuf := ⟨List.replicate slcbufSize 0, 0⟩
  slctab := fun _ => ⟨⟨0, 0⟩, ⟨0, 0⟩, none⟩
  defSlcbuf := none

/-- Thirty-four triplets for a function that telnetd does not know: the message ends with `IAC`
and NUL. -/
theorem not_endSlc_wellFormed :
    ¬ ∀ (s : SlcState) (malloc : Bool) (ptr : List UInt8), s.slcbuf.mem.length = slcbufSize →
      ptr.length + 2 ≤ 509 → (lmSlc true malloc ptr s).1.WellFormed := by
  intro h
  have hsize : slcStateNone.slcbuf.mem.length = slcbufSize := List.length_replicate
  have hfits : (List.replicate 34 ([200, 2, 0] : List UInt8)).flatten.length + 2 ≤ 509 := by
    decide +kernel
  have hwell := h slcStateNone true _ hsize hfits
  rw [show (lmSlc true true (List.replicate 34 [200, 2, 0]).flatten slcStateNone).1 =
    .message (slcStartReply ++ (List.replicate 34 [200, 0, 0]).flatten ++ [IAC, 0]) by
      decide +kernel] at hwell
  have hlast := wellFormed_ends hwell
  rw [List.getLast?_append] at hlast
  exact absurd (Option.some.inj hlast) (show (0 : UInt8) ≠ SE by decide)

theorem endSlc_wellFormed_one : (lmSlc true true [200, 2, 0] slcStateNone).1.WellFormed :=
  (endSlc_wellFormed_iff slcStateNone (by decide) true [200, 2, 0]).1.mpr (by decide +kernel)

end Netkit.Telnet.Slc

import Netkit.Telnet.Client.Ring

/-!
# The client sends what is typed

`telsnd` of `telnet.cc`: it takes the typed bytes from `ttyiring`, looks for the escape
character, the rlogin escapes, the character that toggles kludge linemode echo and the special
characters of the terminal, and puts all other bytes into `netoring`, quoted for the network.
-/

namespace Netkit.Telnet.Client

open Netkit.Foundations

/-- `_POSIX_VDISABLE`. -/
def VDISABLE : UInt8 := 0

structure SendState where
  ttyiring : Ringbuf
  netoring : Ringbuf
  rlogin : UInt8
  escapechar : UInt8
  echoc : UInt8
  termEofChar : UInt8
  termSuspChar : UInt8
  crlf : Bool
  kludgelinemode : Bool
  /-- `globalmode & MODE_EDIT`. -/
  modeEdit : Bool
  /-- `globalmode & MODE_TRAPSIG`. -/
  modeTrapsig : Bool
  /-- `my_want_state_is_will(TELOPT_BINARY)`. -/
  wantBinary : Bool
  bol : Bool
  local_ : Bool
  flushline : Bool
  dontlecho : Bool

/-- The state set up by `init_telnet`, with the usual special characters of a terminal. -/
def SendState.initial (tty net : List UInt8) : SendState where
  ttyiring := .init tty
  netoring := .init net
  rlogin := VDISABLE
  escapechar := 29
  echoc := 5
  termEofChar := 4
  termSuspChar := 26
  crlf := false
  kludgelinemode := true
  modeEdit := false
  modeTrapsig := false
  wantBinary := false
  bol := true
  local_ := false
  flushline := true
  dontlecho := false

/-- The functions that `telsnd` calls for a byte that is not sent. -/
structure SendHooks where
  /-- `command(0, tbuf, cnt)`: the command interpreter. -/
  command : List UInt8 → SendState → SendState
  /-- `TerminalSpecialChars(c)`: its return value and its effect. -/
  terminalSpecialChars : UInt8 → SendState → Int × SendState
  /-- `setconnmode(0)`. -/
  setconnmode : SendState → SendState

/-- `MODE_LOCAL_CHARS(globalmode)`. -/
def SendState.modeLocalChars (s : SendState) : Bool := s.modeEdit || s.modeTrapsig

def strip (c : UInt8) : UInt8 := c &&& 0x7f

/-- `NETADD` for the bytes in turn. -/
def SendState.netadd (bytes : List UInt8) (s : SendState) : SendState :=
  { s with netoring := bytes.foldl (fun r c => r.putch c) s.netoring }

/-! ## One pass of the loop -/

/-- Where a part of the pass ends: it goes on with `c` and `sc`, or the loop does, or it
ends. -/
inductive Pass where
  | next (c sc : UInt8) (s : SendState)
  | again (s : SendState)
  | stop (s : SendState)

def commandLine (hooks : SendHooks) (s : SendState) : Pass :=
  let line := s.ttyiring.gets 127
  let s := hooks.command line.1 { s with ttyiring := line.2 }
  .stop { s with bol := true, flushline := true }

/-- The part of the pass for the rlogin escapes, at the beginning of a line. -/
def rloginPart (hooks : SendHooks) (c sc : UInt8) (s : SendState) : Pass :=
  let afterLine (c sc : UInt8) (s : SendState) : Pass :=
    .next c sc (if sc = 10 ∨ sc = 13 then { s with bol := true } else s)
  if s.bol then
    let s := { s with bol := false }
    if sc = s.rlogin then .again { s with local_ := true } else afterLine c sc s
  else if s.local_ then
    let s := { s with local_ := false }
    if sc = 46 ∨ c = s.termEofChar then
      .again (hooks.command [99, 108, 111, 115, 101, 10] { s with bol := true })
    else if sc = s.termSuspChar then .again (hooks.command [122, 10] { s with bol := true })
    else if sc = s.escapechar ∧ s.escapechar ≠ VDISABLE then commandLine hooks s
    else if sc ≠ s.rlogin then
      afterLine s.rlogin s.rlogin { s with ttyiring := s.ttyiring.ungetch c }
    else afterLine c sc s
  else afterLine c sc s

/-- The part of the pass for the escape character: doubled, it stands for itself. -/
def escapePart (hooks : SendHooks) (c sc : UInt8) (s : SendState) : Pass :=
  if s.rlogin ≠ VDISABLE then rloginPart hooks c sc s
  else if sc = s.escapechar ∧ s.escapechar ≠ VDISABLE then
    match s.ttyiring.getch with
    | none => commandLine hooks s
    | some (_, c, r) =>
      let s := { s with ttyiring := r }
      if strip c ≠ s.escapechar then
        commandLine hooks { s with ttyiring := s.ttyiring.ungetch c }
      else .next c sc { s with bol := false }
  else .next c sc { s with bol := false }

/-- The part of the pass for kludge linemode: doubled, the echo character stands for itself. -/
def kludgePart (hooks : SendHooks) (c sc : UInt8) (s : SendState) : Pass :=
  let toggle (s : SendState) : Pass :=
    .stop { hooks.setconnmode { s with dontlecho := !s.dontlecho } with flushline := true }
  if s.kludgelinemode ∧ s.modeEdit ∧ sc = s.echoc then
    match s.ttyiring.getch with
    | none => toggle s
    | some (_, c, r) =>
      let s := { s with ttyiring := r }
      if strip c ≠ s.echoc then toggle { s with ttyiring := s.ttyiring.ungetch c }
      else .next c sc s
  else .next c sc s

def specialPart (hooks : SendHooks) (c sc : UInt8) (s : SendState) : Pass :=
  if s.modeLocalChars then
    let result := hooks.terminalSpecialChars sc s
    if result.1 = 0 then .stop { result.2 with bol := true } else .next c sc result.2
  else .next c sc s

/-- The part of the pass that puts the byte into `netoring`. -/
def addPart (c : UInt8) (s : SendState) : SendState :=
  if s.wantBinary = false then
    if c = 10 then
      let s := if s.modeLocalChars then s.netadd [13] else s
      { s.netadd [10] with bol := true, flushline := true }
    else if c = 13 then
      let s := if s.crlf = false then s.netadd [13, 0] else s.netadd [13, 10]
      { s with bol := true, flushline := true }
    else if c = IAC then s.netadd [IAC, IAC]
    else s.netadd [c]
  else if c = IAC then s.netadd [IAC, IAC]
  else s.netadd [c]

/-- The body of the loop, after `getch` has returned `c`. -/
def sendByte (hooks : SendHooks) (c : UInt8) (s : SendState) : Pass :=
  match escapePart hooks c (strip c) s with
  | .again s => .again s
  | .stop s => .stop s
  | .next c sc s =>
    match kludgePart hooks c sc s with
    | .again s => .again s
    | .stop s => .stop s
    | .next c sc s =>
      match specialPart hooks c sc s with
      | .again s => .again s
      | .stop s => .stop s
      | .next c _ s => .again (addPart c s)

/-- The loop. A pass takes a byte out of `ttyiring` or, after an rlogin escape, returns it and
clears `local`, so twice as many passes as there are bytes are enough. -/
def telsndLoop (hooks : SendHooks) : Nat → SendState → SendState
  | 0, s => s
  | fuel + 1, s =>
    if s.netoring.emptyCount > 2 then
      match s.ttyiring.getch with
      | none => s
      | some (_, c, r) =>
        match sendByte hooks c { s with ttyiring := r } with
        | .again s => telsndLoop hooks fuel s
        | .stop s => s
        | .next _ _ s => s
    else s

def telsnd (hooks : SendHooks) (s : SendState) : SendState :=
  telsndLoop hooks (2 * s.ttyiring.count.toNat + 1) s

/-! ## Ordinary bytes -/

/-- The settings that decide what is special. -/
structure SendSettings where
  rlogin : UInt8
  escapechar : UInt8
  crlf : Bool
  wantBinary : Bool

def SendState.settings (s : SendState) : SendSettings :=
  ⟨s.rlogin, s.escapechar, s.crlf, s.wantBinary⟩

/-- No escape: in rlogin mode not the rlogin character, otherwise not the escape character. -/
def Ordinary (m : SendSettings) (c : UInt8) : Prop :=
  if m.rlogin ≠ VDISABLE then strip c ≠ m.rlogin
  else m.escapechar ≠ VDISABLE → strip c ≠ m.escapechar

instance (m : SendSettings) (c : UInt8) : Decidable (Ordinary m c) := by
  unfold Ordinary
  infer_instance

def AllOrdinary (m : SendSettings) (bytes : List UInt8) : Prop := ∀ c ∈ bytes, Ordinary m c

instance (m : SendSettings) (bytes : List UInt8) : Decidable (AllOrdinary m bytes) :=
  List.decidableBAll (Ordinary m) bytes

/-- The client has these settings, `MODE_LOCAL_CHARS` is off, and it is not behind an rlogin
escape. -/
structure SendState.Plain (m : SendSettings) (s : SendState) : Prop where
  rlogin : s.rlogin = m.rlogin
  escapechar : s.escapechar = m.escapechar
  crlf : s.crlf = m.crlf
  wantBinary : s.wantBinary = m.wantBinary
  edit : s.modeEdit = false
  trapsig : s.modeTrapsig = false
  local_ : s.local_ = false

def wireBytes (m : SendSettings) (c : UInt8) : List UInt8 :=
  if m.wantBinary = false ∧ c = 13 then [13, if m.crlf then 10 else 0]
  else if c = IAC then [IAC, IAC]
  else [c]

variable {m : SendSettings} {s : SendState} {c : UInt8}

theorem escapePart_ordinary (hooks : SendHooks) (hs : s.Plain m) (hc : Ordinary m c) :
    ∃ bol, escapePart hooks c (strip c) s = .next c (strip c) { s with bol := bol } := by
  have hlocal : ¬ s.local_ = true := by simp [hs.local_]
  unfold Ordinary at hc
  rw [← hs.rlogin, ← hs.escapechar] at hc
  unfold escapePart
  by_cases hr : s.rlogin ≠ VDISABLE
  · rw [if_pos hr] at hc ⊢
    unfold rloginPart
    dsimp only
    by_cases hb : s.bol = true
    · rw [if_pos hb, if_neg hc]
      split
      · exact ⟨true, rfl⟩
      · exact ⟨false, rfl⟩
    · rw [if_neg hb, if_neg hlocal]
      split
      · exact ⟨true, rfl⟩
      · exact ⟨s.bol, rfl⟩
  · rw [if_neg hr] at hc ⊢
    rw [if_neg fun h => hc h.2 h.1]
    exact ⟨false, rfl⟩

theorem wireBytes_cr (hbin : m.wantBinary = false) :
    wireBytes m 13 = [13, if m.crlf then 10 else 0] := by
  rw [wireBytes, if_pos ⟨hbin, rfl⟩]

theorem wireBytes_iac (m : SendSettings) : wireBytes m IAC = [IAC, IAC] := by
  rw [wireBytes, if_neg (fun h => absurd h.2 (by decide)), if_pos rfl]

theorem wireBytes_self (hcr : m.wantBinary = false → c ≠ 13) (hi : c ≠ IAC) :
    wireBytes m c = [c] := by
  rw [wireBytes, if_neg (fun h => hcr h.1 h.2), if_neg hi]

theorem addPart_plain (hs : s.Plain m) :
    ∃ bol flushline, addPart c s =
      { s.netadd (wireBytes m c) with bol := bol, flushline := flushline } := by
  have hlocal : ¬ s.modeLocalChars = true := by
    simp [SendState.modeLocalChars, hs.edit, hs.trapsig]
  have hwant := hs.wantBinary
  unfold addPart
  by_cases hbin : s.wantBinary = false
  · rw [if_pos hbin]
    by_cases h10 : c = 10
    · refine ⟨true, true, ?_⟩
      rw [if_pos h10, wireBytes_self (fun _ => by rw [h10]; decide) (by rw [h10]; decide), h10]
      dsimp only
      rw [if_neg hlocal]
    · rw [if_neg h10]
      by_cases h13 : c = 13
      · refine ⟨true, true, ?_⟩
        rw [if_pos h13, h13, wireBytes_cr (hwant ▸ hbin), ← hs.crlf]
        dsimp only
        cases hcrlf : s.crlf
        · rw [if_pos rfl, if_neg Bool.false_ne_true]
        · rw [if_neg (by decide), if_pos rfl]
      · rw [if_neg h13]
        by_cases hi : c = IAC
        · rw [if_pos hi, hi, wireBytes_iac]
          exact ⟨s.bol, s.flushline, rfl⟩
        · rw [if_neg hi, wireBytes_self (fun _ => h13) hi]
          exact ⟨s.bol, s.flushline, rfl⟩
  · rw [if_neg hbin]
    by_cases hi : c = IAC
    · rw [if_pos hi, hi, wireBytes_iac]
      exact ⟨s.bol, s.flushline, rfl⟩
    · rw [if_neg hi, wireBytes_self (fun h => absurd (hwant.trans h) hbin) hi]
      exact ⟨s.bol, s.flushline, rfl⟩

/-- An ordinary byte is quoted and put into `netoring`. -/
theorem sendByte_ordinary (hooks : SendHooks) (hs : s.Plain m) (hc : Ordinary m c) :
    ∃ bol flushline, sendByte hooks c s =
      .again { s.netadd (wireBytes m c) with bol := bol, flushline := flushline } := by
  obtain ⟨bol, hesc⟩ := escapePart_ordinary hooks hs hc
  have hs' : { s with bol := bol }.Plain m :=
    ⟨hs.rlogin, hs.escapechar, hs.crlf, hs.wantBinary, hs.edit, hs.trapsig, hs.local_⟩
  have hkludge : kludgePart hooks c (strip c) { s with bol := bol } =
      .next c (strip c) { s with bol := bol } := by
    simp [kludgePart, hs.edit]
  have hspecial : specialPart hooks c (strip c) { s with bol := bol } =
      .next c (strip c) { s with bol := bol } := by
    simp [specialPart, SendState.modeLocalChars, hs.edit, hs.trapsig]
  obtain ⟨bol', flushline, hadd⟩ := addPart_plain (c := c) hs'
  refine ⟨bol', flushline, ?_⟩
  rw [sendByte, hesc]
  dsimp only
  rw [hkludge]
  dsimp only
  rw [hspecial]
  dsimp only
  rw [hadd]
  rfl

/-! ## The loop on ordinary bytes -/

theorem wireBytes_length (m : SendSettings) (c : UInt8) : (wireBytes m c).length ≤ 2 := by
  unfold wireBytes
  split
  · simp
  · split <;> simp

theorem foldl_putch {r : Ringbuf} (h : r.Inv) {bs : List UInt8}
    (hroom : (bs.length : Int) ≤ r.emptyCount) :
    (bs.foldl (fun r c => r.putch c) r).Inv ∧
      (bs.foldl (fun r c => r.putch c) r).contents = r.contents ++ bs := by
  induction bs generalizing r with
  | nil => exact ⟨h, (List.append_nil _).symm⟩
  | cons b bs ih =>
    rw [Ringbuf.emptyCount, List.length_cons] at hroom
    obtain ⟨hI, hc, hsize⟩ := Ringbuf.write_spec h [b]
    have htake : [b].take (r.size - r.count).toNat = [b] :=
      List.take_of_length_le (by rw [List.length_singleton]; omega)
    rw [htake] at hc
    have hlen := Ringbuf.contents_length hI
    have hold := Ringbuf.contents_length h
    rw [hc, List.length_append, List.length_singleton] at hlen
    obtain ⟨hI', hc'⟩ := ih hI (by
      rw [Ringbuf.emptyCount, hsize]
      omega)
    refine ⟨hI', ?_⟩
    rw [List.foldl_cons]
    exact hc'.trans (by rw [hc, List.append_assoc, List.singleton_append])

/-- What one call does to the two rings. -/
structure SentTo (m : SendSettings) (s t : SendState) (sent : List UInt8) : Prop where
  tty : t.ttyiring.Inv
  size : t.ttyiring.size = s.ttyiring.size
  net : t.netoring.Inv
  plain : t.Plain m
  taken : s.ttyiring.contents = sent ++ t.ttyiring.contents
  added : t.netoring.contents = s.netoring.contents ++ sent.flatMap (wireBytes m)

theorem telsndLoop_spec (hooks : SendHooks) (htty : s.ttyiring.Inv) (hnet : s.netoring.Inv) (hs : s.Plain m)
    (hord : AllOrdinary m s.ttyiring.contents) {fuel : Nat}
    (hfuel : s.ttyiring.contents.length < fuel) :
    (∃ sent, SentTo m s (telsndLoop hooks fuel s) sent) ∧
      ((telsndLoop hooks fuel s).ttyiring.contents = [] ∨
        (telsndLoop hooks fuel s).netoring.emptyCount ≤ 2) := by
  induction fuel generalizing s with
  | zero => cases hfuel
  | succ fuel ih =>
    rw [telsndLoop]
    split
    · rename_i hroom
      split
      · rename_i hnone
        have hempty := (Ringbuf.getch_none htty).mp hnone
        exact ⟨⟨[], htty, rfl, hnet, hs, rfl, (List.append_nil _).symm⟩, Or.inl hempty⟩
      · rename_i rv c r hg
        obtain ⟨hI, hcont⟩ := Ringbuf.getch_spec htty hg
        obtain ⟨-, -, -, hsize, -⟩ := Ringbuf.getch_eq_some hg
        rw [hcont] at hord hfuel
        have hs' : { s with ttyiring := r }.Plain m :=
          ⟨hs.rlogin, hs.escapechar, hs.crlf, hs.wantBinary, hs.edit, hs.trapsig, hs.local_⟩
        obtain ⟨bol, flushline, hsend⟩ :=
          sendByte_ordinary hooks hs' (hord c List.mem_cons_self)
        rw [hsend]
        dsimp only
        have hlen := wireBytes_length m c
        have hfit : ((wireBytes m c).length : Int) ≤ s.netoring.emptyCount := by omega
        obtain ⟨hnet', hadded⟩ := foldl_putch hnet hfit
        obtain ⟨⟨sent, hsent⟩, hstop⟩ := ih
          (s := { ({ s with ttyiring := r } : SendState).netadd (wireBytes m c) with
            bol := bol, flushline := flushline })
          hI hnet'
          ⟨hs.rlogin, hs.escapechar, hs.crlf, hs.wantBinary, hs.edit, hs.trapsig, hs.local_⟩
          (fun d hd => hord d (List.mem_cons_of_mem c hd))
          (by rw [List.length_cons] at hfuel; exact Nat.lt_of_succ_lt_succ hfuel)
        refine ⟨⟨c :: sent, hsent.tty, hsent.size.trans hsize, hsent.net, hsent.plain, ?_, ?_⟩, hstop⟩
        · rw [hcont, List.cons_append]
          exact congrArg (c :: ·) hsent.taken
        · rw [hsent.added, List.flatMap_cons, ← List.append_assoc]
          exact congrArg (· ++ _) hadded
    · rename_i hroom
      exact ⟨⟨[], htty, rfl, hnet, hs, rfl, (List.append_nil _).symm⟩, Or.inr (by omega)⟩

/-- On ordinary bytes `telsnd` moves bytes from `ttyiring` to `netoring`, quoted, and stops only
when there are none left or no room. -/
theorem telsnd_spec (hooks : SendHooks) (htty : s.ttyiring.Inv) (hnet : s.netoring.Inv) (hs : s.Plain m)
    (hord : AllOrdinary m s.ttyiring.contents) :
    (∃ sent, SentTo m s (telsnd hooks s) sent) ∧
      ((telsnd hooks s).ttyiring.contents = [] ∨
        (telsnd hooks s).netoring.emptyCount ≤ 2) := by
  refine telsndLoop_spec hooks htty hnet hs hord ?_
  rw [Ringbuf.contents, length_window]
  omega

end Netkit.Telnet.Client

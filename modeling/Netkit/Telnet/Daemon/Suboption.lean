import Netkit.Foundations.Memory
import Netkit.Telnet.Protocol

/-!
# telnetd's suboption buffer and the environment option

`telrcv` collects the body of a suboption in `subbuffer` and `suboption` reads it there. The
case `TELOPT_ENVIRON` unescapes names and values in place: it writes them, and the `NUL` behind
each, into the part of the buffer that it has already read.
-/

namespace Netkit.Telnet.Daemon

open Netkit.Foundations

/-! ## The buffer -/

/-- `sizeof(subbuffer)`. -/
def subbufferSize : Nat := 512

structure SubBuffer where
  subbuffer : List UInt8
  subpointer : Nat
  subend : Nat

namespace SubBuffer

/-- `SB_CLEAR`. -/
def clear (b : SubBuffer) : SubBuffer := { b with subpointer := 0 }

/-- `SB_TERM`. -/
def term (b : SubBuffer) : SubBuffer := { b with subend := b.subpointer, subpointer := 0 }

/-- `SB_ACCUM`: what does not fit is dropped. -/
def accum (c : UInt8) (b : SubBuffer) : SubBuffer :=
  if b.subpointer < subbufferSize - 1 then
    { b with subbuffer := b.subbuffer.set b.subpointer c, subpointer := b.subpointer + 1 }
  else b

/-- The two bytes behind the body, accumulated "for DIAGNOSTICS" and taken back. -/
def terminate (c : UInt8) (b : SubBuffer) : SubBuffer :=
  let b := (b.accum IAC).accum c
  { b with subpointer := b.subpointer - 2 }.term

/-- The buffer has its size and the bytes accumulated since `SB_CLEAR` are `body`. -/
structure Holds (body : List UInt8) (b : SubBuffer) : Prop where
  size : b.subbuffer.length = subbufferSize
  pointer : b.subpointer = body.length
  body : slice b.subbuffer 0 body.length = body

theorem clear_holds {b : SubBuffer} (h : b.subbuffer.length = subbufferSize) :
    b.clear.Holds [] := ⟨h, rfl, by simp⟩

theorem accum_holds {b : SubBuffer} {body : List UInt8} (h : b.Holds body)
    (hfit : body.length < subbufferSize - 1) (c : UInt8) : (b.accum c).Holds (body ++ [c]) := by
  have hlt : b.subpointer < subbufferSize - 1 := by
    rw [h.pointer]
    exact hfit
  unfold accum
  rw [if_pos hlt]
  refine ⟨?_, ?_, ?_⟩
  · simpa using h.size
  · simp [h.pointer]
  · have hlen : body.length < b.subbuffer.length := by
      rw [h.size]
      omega
    rw [List.length_append, List.length_singleton, h.pointer,
      slice_set_push c (Nat.zero_le _) hlen, h.body]

/-- A body that leaves room for `IAC SE` is handed over whole. -/
theorem terminate_spec {b : SubBuffer} {body : List UInt8} (h : b.Holds body)
    (hfit : body.length + 2 ≤ subbufferSize - 1) (c : UInt8) :
    (b.terminate c).subbuffer.length = subbufferSize ∧ (b.terminate c).subpointer = 0 ∧
      (b.terminate c).subend = body.length ∧
      slice (b.terminate c).subbuffer 0 body.length = body := by
  have h2 := accum_holds (accum_holds h (by omega) IAC)
    (by rw [List.length_append, List.length_singleton]; omega) c
  have hp := h2.pointer
  simp only [List.length_append, List.length_singleton] at hp
  have hb := h2.body
  rw [List.append_assoc] at hb
  simp only [List.length_append, List.length_singleton] at hb
  refine ⟨h2.size, rfl, ?_, ?_⟩
  · show ((b.accum IAC).accum c).subpointer - 2 = _
    omega
  · show slice ((b.accum IAC).accum c).subbuffer 0 body.length = body
    have hsize : body.length + (1 + 1) ≤ ((b.accum IAC).accum c).subbuffer.length := by
      rw [h2.size]
      omega
    have hparts := slice_of_append hsize (Nat.zero_le _) hb
    rw [Nat.zero_add] at hparts
    exact hparts.2.1

end SubBuffer

/-! ## Environment variables -/

/-- A call that changes the environment of the login process. -/
inductive EnvCall where
  | setenv (name value : List UInt8)
  | unsetenv (name : List UInt8)
  deriving DecidableEq

/-- The bytes of the string that begins at `i`, without its `NUL`. -/
def cstring (mem : List UInt8) (i : Nat) : List UInt8 := (mem.drop i).takeWhile (· ≠ 0)

/-- `TERM`, `DISPLAY`, `USER`, `LOGNAME` and `POSIXLY_CORRECT`. -/
def allowedNames : List (List UInt8) :=
  [[84, 69, 82, 77], [68, 73, 83, 80, 76, 65, 89], [85, 83, 69, 82],
    [76, 79, 71, 78, 65, 77, 69],
    [80, 79, 83, 73, 88, 76, 89, 95, 67, 79, 82, 82, 69, 67, 84]]

def envvarok (varp : List UInt8) : Bool := allowedNames.contains varp

/-- The locals of the case `TELOPT_ENVIRON`: `cp` is where the next byte goes, `varp` and `valp`
are the beginnings of the current name and value. -/
structure EnvScan where
  mem : List UInt8
  subpointer : Nat
  cp : Nat
  varp : Nat
  valp : Option Nat
  calls : List EnvCall

namespace EnvScan

def put (c : UInt8) (s : EnvScan) : EnvScan :=
  if s.cp < subbufferSize - 1 then { s with mem := s.mem.set s.cp c, cp := s.cp + 1 } else s

/-- `*cp = '\0'` and the calls for the variable that ends here. -/
def finish (s : EnvScan) : EnvScan :=
  let mem := s.mem.set s.cp 0
  let varp := cstring mem s.varp
  let calls :=
    if envvarok varp then
      match s.valp with
      | some valp => [.setenv varp (cstring mem valp)]
      | none => [.unsetenv varp]
    else []
  { s with mem := mem, calls := s.calls ++ calls }

end EnvScan

/-- The loop `while (!SB_EOF())`. Every pass reads at least one byte. -/
def scanEnviron (subend : Nat) : Nat → EnvScan → EnvScan
  | 0, s => s
  | fuel + 1, s =>
    if s.subpointer ≥ subend then s
    else
      let c := s.mem.getD s.subpointer 0
      let s := { s with subpointer := s.subpointer + 1 }
      if c = ENV_VALUE then
        scanEnviron subend fuel
          { s with mem := s.mem.set s.cp 0, cp := s.subpointer, valp := some s.subpointer }
      else if c = ENV_VAR then
        let s := s.finish
        scanEnviron subend fuel
          { s with cp := s.subpointer, varp := s.subpointer, valp := none }
      else if c = ENV_ESC then
        if s.subpointer ≥ subend then scanEnviron subend fuel s
        else
          let c := s.mem.getD s.subpointer 0
          scanEnviron subend fuel ({ s with subpointer := s.subpointer + 1 }.put c)
      else scanEnviron subend fuel (s.put c)

/-- `while (!SB_EOF() && SB_GET() != ENV_VAR)`: the index where the loop stops. -/
def skipToVar (mem : List UInt8) (subend : Nat) : Nat → Nat → Nat
  | 0, p => p
  | fuel + 1, p =>
    if p ≥ subend then p
    else if mem.getD p 0 ≠ ENV_VAR then skipToVar mem subend fuel (p + 1) else p + 1

/-- The case `TELOPT_ENVIRON`, with the pointer behind the option byte. -/
def environ (b : SubBuffer) : SubBuffer × List EnvCall :=
  if b.subpointer ≥ b.subend then (b, [])
  else
    let c := b.subbuffer.getD b.subpointer 0
    let b := { b with subpointer := b.subpointer + 1 }
    if c ≠ TELQUAL_IS ∧ c ≠ TELQUAL_INFO then (b, [])
    else
      let p := skipToVar b.subbuffer b.subend b.subend b.subpointer
      if p ≥ b.subend then ({ b with subpointer := p }, [])
      else
        let s := (scanEnviron b.subend b.subend ⟨b.subbuffer, p, p, p, none, []⟩).finish
        ({ b with subbuffer := s.mem, subpointer := s.subpointer }, s.calls)

/-- The case `TELOPT_XDISPLOC`: `DISPLAY`. -/
def xdisploc (b : SubBuffer) : SubBuffer × List EnvCall :=
  if b.subpointer ≥ b.subend then (b, [])
  else
    let c := b.subbuffer.getD b.subpointer 0
    let b := { b with subpointer := b.subpointer + 1 }
    if c ≠ TELQUAL_IS then (b, [])
    else
      let mem := b.subbuffer.set b.subend 0
      ({ b with subbuffer := mem },
        [.setenv [68, 73, 83, 80, 76, 65, 89] (cstring mem b.subpointer)])

/-- `suboption`, as far as the environment is concerned: the other suboptions set the speed, the
type and the size of the terminal. -/
def suboption (b : SubBuffer) : SubBuffer × List EnvCall :=
  let subchar := b.subbuffer.getD b.subpointer 0
  let b := { b with subpointer := b.subpointer + 1 }
  if subchar = TELOPT_ENVIRON then environ b
  else if subchar = TELOPT_XDISPLOC then xdisploc b
  else (b, [])

/-! ## The encoding that the loop undoes -/

/-- `ENV_ESC` before a byte that would be read as one of the three marks. -/
def escapeByte (c : UInt8) : List UInt8 :=
  if c = ENV_VALUE ∨ c = ENV_VAR ∨ c = ENV_ESC then [ENV_ESC, c] else [c]

def escape (text : List UInt8) : List UInt8 := text.flatMap escapeByte

def valueBytes : Option (List UInt8) → List UInt8
  | none => []
  | some value => ENV_VALUE :: escape value

def varBytes (v : Var) : List UInt8 := ENV_VAR :: (escape v.1 ++ valueBytes v.2)

/-- What telnetd should do for the variables: one call for each admitted one. -/
def envCalls (vars : List Var) : List EnvCall :=
  (vars.filter (fun v => envvarok v.1)).map fun v =>
    match v.2 with
    | some value => .setenv v.1 value
    | none => .unsetenv v.1

/-- A string of the language: no `NUL` in it. -/
def NulFree (text : List UInt8) : Prop := ∀ c ∈ text, c ≠ 0

instance (text : List UInt8) : Decidable (NulFree text) := List.decidableBAll (· ≠ 0) text

/-! ## Unescaping in place -/

/-- The bytes still to be read are `rest`, and the writing pointer is not ahead of the reading
pointer. The body ends early enough for the `NUL` behind it. -/
structure EnvScan.Reads (subend : Nat) (rest : List UInt8) (s : EnvScan) : Prop where
  size : s.mem.length = subbufferSize
  fits : subend + 2 ≤ subbufferSize - 1
  behind : s.cp ≤ s.subpointer
  order : s.subpointer ≤ subend
  rest : slice s.mem s.subpointer subend = rest

namespace EnvScan.Reads

variable {subend : Nat} {rest : List UInt8} {c : UInt8} {s : EnvScan}

theorem uncons (h : s.Reads subend (c :: rest)) :
    s.subpointer < subend ∧ s.mem.getD s.subpointer 0 = c ∧
      slice s.mem (s.subpointer + 1) subend = rest := by
  have hsize := h.size
  have hfits := h.fits
  have hle : subend ≤ s.mem.length := by
    rw [h.size]
    omega
  exact slice_eq_cons hle h.rest 0

theorem tail (h : s.Reads subend (c :: rest)) :
    { s with subpointer := s.subpointer + 1 }.Reads subend rest := by
  obtain ⟨hlt, -, hrest⟩ := h.uncons
  exact ⟨h.size, h.fits, Nat.le_succ_of_le h.behind, hlt, hrest⟩

theorem nil_subpointer (h : s.Reads subend []) : s.subpointer = subend := by
  have hfits := h.fits
  have hlen : (slice s.mem s.subpointer subend).length = subend - s.subpointer :=
    slice_length (by rw [h.size]; omega)
  have hord := h.order
  rw [h.rest, List.length_nil] at hlen
  omega

theorem put_eq (h : s.Reads subend rest) (hlt : s.cp < s.subpointer) :
    s.put c = { s with mem := s.mem.set s.cp c, cp := s.cp + 1 } := by
  have hfits := h.fits
  have hord := h.order
  exact if_pos (by omega)

theorem put (h : s.Reads subend rest) (hlt : s.cp < s.subpointer) :
    (s.put c).Reads subend rest := by
  rw [h.put_eq hlt]
  refine ⟨by simpa using h.size, h.fits, hlt, h.order, ?_⟩
  rw [slice_set_above c hlt]
  exact h.rest

end EnvScan.Reads

theorem scanEnviron_byte {subend fuel : Nat} {c : UInt8} {rest : List UInt8} {s : EnvScan}
    (h : s.Reads subend (escapeByte c ++ rest)) (hfuel : subend - s.subpointer ≤ fuel) :
    ∃ fuel', scanEnviron subend fuel s =
        scanEnviron subend fuel' ({ s with
          subpointer := s.subpointer + (escapeByte c).length }.put c) ∧
      subend - (s.subpointer + (escapeByte c).length) ≤ fuel' := by
  by_cases hc : c = ENV_VALUE ∨ c = ENV_VAR ∨ c = ENV_ESC
  · have hesc : escapeByte c = [ENV_ESC, c] := if_pos hc
    rw [hesc] at h ⊢
    obtain ⟨hlt, hget, -⟩ := h.uncons
    obtain ⟨hlt', hget', -⟩ := h.tail.uncons
    cases fuel with
    | zero => omega
    | succ fuel =>
      refine ⟨fuel, ?_, by simp only [List.length_cons, List.length_nil]; omega⟩
      have h1 : ¬ s.subpointer ≥ subend := by omega
      have h2 : ¬ s.subpointer + 1 ≥ subend := by
        simp only at hlt'
        omega
      simp only at hget'
      rw [scanEnviron, if_neg h1]
      simp only [hget, hget', h2, if_false, ENV_ESC, ENV_VALUE, ENV_VAR, List.length_cons,
        List.length_nil]
      simp
  · have hesc : escapeByte c = [c] := if_neg hc
    rw [hesc] at h ⊢
    obtain ⟨hlt, hget, -⟩ := h.uncons
    simp only [not_or] at hc
    cases fuel with
    | zero => omega
    | succ fuel =>
      refine ⟨fuel, ?_, by simp only [List.length_cons, List.length_nil]; omega⟩
      have h1 : ¬ s.subpointer ≥ subend := by omega
      rw [scanEnviron, if_neg h1]
      simp only [hget, hc.1, hc.2.1, hc.2.2, if_false, List.length_singleton]

theorem Reads_advance {subend : Nat} {xs rest : List UInt8} {s : EnvScan}
    (h : s.Reads subend (xs ++ rest)) :
    { s with subpointer := s.subpointer + xs.length }.Reads subend rest := by
  have hfits := h.fits
  obtain ⟨hle, -, hrest⟩ := slice_of_append (by rw [h.size]; omega) h.order h.rest
  exact ⟨h.size, h.fits, Nat.le_trans h.behind (Nat.le_add_right _ _), hle, hrest⟩

theorem escapeByte_pos (c : UInt8) : 0 < (escapeByte c).length := by
  unfold escapeByte
  split <;> simp

/-- The escaped form of a text is unescaped to the text. Nothing below `cp` changes. -/
theorem scanEnviron_text {subend fuel : Nat} {text rest : List UInt8} {s : EnvScan}
    (h : s.Reads subend (escape text ++ rest)) (hfuel : subend - s.subpointer ≤ fuel) :
    ∃ fuel' mem, scanEnviron subend fuel s =
        scanEnviron subend fuel' { s with
          mem := mem
          subpointer := s.subpointer + (escape text).length
          cp := s.cp + text.length } ∧
      subend - (s.subpointer + (escape text).length) ≤ fuel' ∧
      { s with
        mem := mem
        subpointer := s.subpointer + (escape text).length
        cp := s.cp + text.length }.Reads subend rest ∧
      slice mem s.cp (s.cp + text.length) = text ∧
      ∀ i j, j ≤ s.cp → slice mem i j = slice s.mem i j := by
  induction text generalizing s fuel with
  | nil => exact ⟨fuel, s.mem, rfl, hfuel, h, by simp, fun _ _ _ => rfl⟩
  | cons c text ih =>
    have hpos := escapeByte_pos c
    rw [escape, List.flatMap_cons, List.append_assoc] at h
    obtain ⟨fuel₁, hstep, hfuel₁⟩ := scanEnviron_byte h hfuel
    have hadv := Reads_advance h
    have hlt : s.cp < s.subpointer + (escapeByte c).length := by
      have := h.behind
      omega
    have hput := hadv.put (c := c) hlt
    have hput_eq := hadv.put_eq (c := c) hlt
    rw [hput_eq] at hstep hput
    have hcp : s.cp < s.mem.length := by
      have h1 := hadv.order
      have h2 := h.fits
      rw [h.size]
      simp only at h1
      omega
    obtain ⟨fuel₂, mem, hrun, hfuel₂, hreads, htext, hframe⟩ := ih hput hfuel₁
    have hlen : (escape (c :: text)).length = (escapeByte c).length + (escape text).length := by
      rw [escape, List.flatMap_cons, List.length_append]
      rfl
    have hc : s.cp + (c :: text).length = s.cp + 1 + text.length := by
      rw [List.length_cons]
      omega
    rw [hlen, hc, ← Nat.add_assoc]
    refine ⟨fuel₂, mem, hstep.trans hrun, hfuel₂, hreads, ?_, ?_⟩
    · rw [slice_split (j := s.cp + 1) (by omega) (by omega), htext,
        hframe s.cp (s.cp + 1) (Nat.le_refl _)]
      have hone := slice_set_push c (Nat.le_refl s.cp) hcp
      rw [slice_self, List.nil_append] at hone
      rw [hone, List.singleton_append]
    · intro i j hj
      rw [hframe i j (Nat.le_succ_of_le hj), slice_set_below c hj]

/-! ## The variables -/

theorem cstring_of_slice {mem text : List UInt8} {i : Nat} (hfree : NulFree text)
    (h : slice mem i (i + text.length + 1) = text ++ [0]) : cstring mem i = text := by
  have hdrop : mem.drop i = text ++ 0 :: (mem.drop i).drop (text.length + 1) := by
    rw [Nat.add_assoc, slice_add] at h
    conv_lhs => rw [← List.take_append_drop (text.length + 1) (mem.drop i), h]
    rw [List.append_assoc, List.singleton_append]
  rw [cstring, hdrop, List.takeWhile_append_of_pos]
  · simp
  · intro c hc
    simpa using hfree c hc

/-- Between two variables: the texts of the current one are in place, the last of them still
without its `NUL`. -/
structure EnvScan.Parsed (v : Var) (s : EnvScan) : Prop where
  name : cstring (s.mem.set s.cp 0) s.varp = v.1
  value : s.valp.map (cstring (s.mem.set s.cp 0)) = v.2

theorem finish_calls {s : EnvScan} {v : Var} (h : s.Parsed v) :
    s.finish.calls = s.calls ++ envCalls [v] := by
  have hv := h.value
  unfold EnvScan.finish
  simp only [h.name]
  cases hok : envvarok v.1 with
  | false => simp [envCalls, hok]
  | true =>
    cases hval : s.valp with
    | none =>
      rw [hval] at hv
      simp [envCalls, hok, ← hv]
    | some p =>
      rw [hval] at hv
      simp [envCalls, hok, ← hv]

theorem envCalls_cons (v : Var) (vars : List Var) :
    envCalls (v :: vars) = envCalls [v] ++ envCalls vars := by
  unfold envCalls
  rw [← List.map_append, ← List.filter_append]
  rfl

theorem scanEnviron_var {subend fuel : Nat} {v : Var} {rest : List UInt8} {s : EnvScan}
    (hname : NulFree v.1) (hvalue : ∀ value, v.2 = some value → NulFree value)
    (h : s.Reads subend (escape v.1 ++ valueBytes v.2 ++ rest))
    (hstart : s.cp = s.subpointer ∧ s.varp = s.subpointer ∧ s.valp = none)
    (hfuel : subend - s.subpointer ≤ fuel) :
    ∃ fuel' t, scanEnviron subend fuel s = scanEnviron subend fuel' t ∧
      subend - t.subpointer ≤ fuel' ∧ t.Reads subend rest ∧ t.Parsed v ∧ t.calls = s.calls := by
  obtain ⟨hcp, hvarp, hvalp⟩ := hstart
  rw [List.append_assoc] at h
  obtain ⟨fuel₁, mem, hrun, hfuel₁, hreads, htext, hframe⟩ := scanEnviron_text h hfuel
  have hbound : s.cp + v.1.length < mem.length := by
    have h1 := hreads.behind
    have h2 := hreads.order
    have h3 := hreads.fits
    have h4 := hreads.size
    simp only at h1 h2 h4
    rw [h4]
    omega
  cases hv : v.2 with
  | none =>
    rw [hv] at hreads
    refine ⟨fuel₁, _, hrun, hfuel₁, hreads, ⟨?_, by simp [hvalp, hv]⟩, rfl⟩
    refine cstring_of_slice hname ?_
    simp only [hvarp, ← hcp]
    rw [slice_set_push 0 (Nat.le_add_right _ _) hbound, htext]
  | some value =>
    rw [hv] at hreads
    have hval := hvalue value hv
    obtain ⟨hlt, hget, -⟩ := hreads.uncons
    -- the mark: the name gets its `NUL`, the value begins behind the mark
    have hmark := hreads.tail
    have hvread : ({ s with
        mem := mem.set (s.cp + v.1.length) 0
        subpointer := s.subpointer + (escape v.1).length + 1
        cp := s.subpointer + (escape v.1).length + 1
        valp := some (s.subpointer + (escape v.1).length + 1) } : EnvScan).Reads subend
          (escape value ++ rest) := by
      have hb : s.cp + v.1.length ≤ s.subpointer + (escape v.1).length := hreads.behind
      refine ⟨by simpa using hreads.size, hreads.fits, Nat.le_refl _, hmark.order, ?_⟩
      show slice (mem.set (s.cp + v.1.length) 0) (s.subpointer + (escape v.1).length + 1)
        subend = _
      rw [slice_set_above 0 (Nat.lt_succ_of_le hb)]
      exact hmark.rest
    have hstep : ∀ fuel, scanEnviron subend (fuel + 1)
        { s with
          mem := mem
          subpointer := s.subpointer + (escape v.1).length
          cp := s.cp + v.1.length } =
        scanEnviron subend fuel { s with
          mem := mem.set (s.cp + v.1.length) 0
          subpointer := s.subpointer + (escape v.1).length + 1
          cp := s.subpointer + (escape v.1).length + 1
          valp := some (s.subpointer + (escape v.1).length + 1) } := by
      intro fuel
      have h1 : ¬ s.subpointer + (escape v.1).length ≥ subend := Nat.not_le_of_lt hlt
      simp only at hget
      rw [scanEnviron]
      simp only [h1, if_false, hget, if_true]
    have hlt' : s.subpointer + (escape v.1).length < subend := hlt
    cases fuel₁ with
    | zero => omega
    | succ fuel₁ =>
      have hleft : subend - (s.subpointer + (escape v.1).length + 1) ≤ fuel₁ := by omega
      obtain ⟨fuel₂, mem₂, hrun₂, hfuel₂, hreads₂, htext₂, hframe₂⟩ :=
        scanEnviron_text hvread hleft
      refine ⟨fuel₂, _, (hrun.trans (hstep fuel₁)).trans hrun₂, hfuel₂, hreads₂, ⟨?_, ?_⟩, rfl⟩
      · refine cstring_of_slice hname ?_
        have hb : s.cp + v.1.length ≤ s.subpointer + (escape v.1).length := hreads.behind
        have hle : s.varp + v.1.length + 1 ≤ s.subpointer + (escape v.1).length + 1 := by omega
        show slice (mem₂.set (s.subpointer + (escape v.1).length + 1 + value.length) 0) s.varp
          (s.varp + v.1.length + 1) = _
        rw [slice_set_below 0 (Nat.le_trans hle (Nat.le_add_right _ _)), hframe₂ _ _ hle]
        simp only [hvarp, ← hcp]
        rw [slice_set_push 0 (Nat.le_add_right _ _) hbound, htext]
      · rw [hv, Option.map_some]
        refine congrArg some (cstring_of_slice hval ?_)
        have h1 : s.subpointer + (escape v.1).length + 1 + value.length ≤
          s.subpointer + (escape v.1).length + 1 + (escape value).length := hreads₂.behind
        have h2 : s.subpointer + (escape v.1).length + 1 + (escape value).length ≤ subend :=
          hreads₂.order
        have h3 := hreads₂.fits
        have h4 : mem₂.length = subbufferSize := hreads₂.size
        have hlast : s.subpointer + (escape v.1).length + 1 + value.length < mem₂.length := by
          omega
        rw [slice_set_push 0 (Nat.le_add_right _ _) hlast]
        exact congrArg (· ++ [0]) htext₂

def StringVars (vars : List Var) : Prop :=
  ∀ v ∈ vars, v.1 ≠ [] ∧ NulFree v.1 ∧ ∀ value, v.2 = some value → NulFree value

theorem finish_reads {subend : Nat} {rest : List UInt8} {s : EnvScan} {c : UInt8}
    (h : s.Reads subend (c :: rest)) :
    ({ ({ s with subpointer := s.subpointer + 1 } : EnvScan).finish with
      cp := s.subpointer + 1
      varp := s.subpointer + 1
      valp := none } : EnvScan).Reads subend rest := by
  have hb := h.behind
  refine ⟨by simpa [EnvScan.finish] using h.size, h.fits, Nat.le_refl _, h.tail.order, ?_⟩
  show slice (s.mem.set s.cp 0) (s.subpointer + 1) subend = rest
  rw [slice_set_above 0 (Nat.lt_succ_of_le hb)]
  exact h.uncons.2.2

theorem scanEnviron_vars {subend fuel : Nat} {v : Var} {vars : List Var} {s : EnvScan}
    (hvars : StringVars (v :: vars))
    (h : s.Reads subend (escape v.1 ++ valueBytes v.2 ++ vars.flatMap varBytes))
    (hstart : s.cp = s.subpointer ∧ s.varp = s.subpointer ∧ s.valp = none)
    (hfuel : subend - s.subpointer ≤ fuel) :
    (scanEnviron subend fuel s).finish.calls = s.calls ++ envCalls (v :: vars) := by
  induction vars generalizing v s fuel with
  | nil =>
    obtain ⟨-, hname, hvalue⟩ := hvars v List.mem_cons_self
    obtain ⟨fuel', t, hrun, -, hreads, hparsed, hcalls⟩ :=
      scanEnviron_var hname hvalue h hstart hfuel
    have hend : scanEnviron subend fuel' t = t := by
      have hp := hreads.nil_subpointer
      cases fuel' with
      | zero => rfl
      | succ fuel' => rw [scanEnviron, if_pos (Nat.le_of_eq hp.symm)]
    rw [hrun, hend, finish_calls hparsed, hcalls]
  | cons w vars ih =>
    obtain ⟨-, hname, hvalue⟩ := hvars v List.mem_cons_self
    obtain ⟨fuel', t, hrun, hfuel', hreads, hparsed, hcalls⟩ :=
      scanEnviron_var hname hvalue h hstart hfuel
    rw [List.flatMap_cons, varBytes, List.cons_append] at hreads
    obtain ⟨hlt, hget, -⟩ := hreads.uncons
    have hfin := finish_calls hparsed
    cases fuel' with
    | zero => omega
    | succ fuel' =>
      have h1 : ¬ t.subpointer ≥ subend := Nat.not_le_of_lt hlt
      have hstep : scanEnviron subend (fuel' + 1) t = scanEnviron subend fuel'
          { ({ t with subpointer := t.subpointer + 1 } : EnvScan).finish with
            cp := t.subpointer + 1
            varp := t.subpointer + 1
            valp := none } := by
        have hne : ENV_VAR ≠ ENV_VALUE := by decide
        rw [scanEnviron]
        simp only [h1, if_false, hget, if_true, hne]
        rfl
      have hnext : subend - (t.subpointer + 1) ≤ fuel' := by omega
      have hrest := ih (v := w) (fun u hu => hvars u (List.mem_cons_of_mem v hu))
        (finish_reads hreads) ⟨rfl, rfl, rfl⟩ hnext
      rw [hrun, hstep, hrest, envCalls_cons v, ← List.append_assoc, ← hcalls]
      exact congrArg (· ++ _) hfin

theorem skipToVar_end {mem : List UInt8} {subend p fuel : Nat} (hp : subend ≤ p) :
    skipToVar mem subend fuel p = p := by
  cases fuel with
  | zero => rfl
  | succ fuel => rw [skipToVar, if_pos hp]

theorem skipToVar_first {mem : List UInt8} {subend p fuel : Nat} (hp : p < subend)
    (hfuel : 0 < fuel) (hvar : mem.getD p 0 = ENV_VAR) :
    skipToVar mem subend fuel p = p + 1 := by
  cases fuel with
  | zero => cases hfuel
  | succ fuel =>
    rw [skipToVar, if_neg (Nat.not_le_of_lt hp), hvar]
    simp

/-- The body of an environment reply: the option, the qualifier and the variables. -/
def environBody (vars : List Var) : List UInt8 :=
  TELOPT_ENVIRON :: TELQUAL_IS :: vars.flatMap varBytes

/-- `suboption` on the body of an environment reply. -/
theorem suboption_environ {vars : List Var} (hvars : StringVars vars) {b : SubBuffer}
    (hsize : b.subbuffer.length = subbufferSize) (hpointer : b.subpointer = 0)
    (hend : b.subend = (environBody vars).length)
    (hfits : (environBody vars).length + 2 ≤ subbufferSize - 1)
    (hbody : slice b.subbuffer 0 (environBody vars).length = environBody vars) :
    (suboption b).2 = envCalls vars := by
  have hle : (environBody vars).length ≤ b.subbuffer.length := by omega
  obtain ⟨-, hopt, hbody₁⟩ := slice_eq_cons hle hbody 0
  obtain ⟨-, hqual, hbody₂⟩ := slice_eq_cons hle hbody₁ 0
  have hopt' : b.subbuffer.getD b.subpointer 0 = TELOPT_ENVIRON := by rw [hpointer, hopt]
  have hqual' : b.subbuffer.getD (b.subpointer + 1) 0 = TELQUAL_IS := by rw [hpointer, hqual]
  have hlen : (environBody vars).length = (vars.flatMap varBytes).length + 2 := rfl
  unfold suboption
  simp only [hopt', if_true]
  unfold environ
  have h1 : ¬ b.subpointer + 1 ≥ b.subend := by omega
  simp only [h1, if_false, hqual', ne_eq, not_true_eq_false, false_and]
  cases vars with
  | nil =>
    have h2 : b.subpointer + 1 + 1 ≥ b.subend := by
      rw [hend, hlen, List.flatMap_nil, List.length_nil, hpointer]
    rw [skipToVar_end h2, if_pos h2]
    rfl
  | cons v vars =>
    rw [List.flatMap_cons, varBytes, List.cons_append] at hbody₂
    obtain ⟨hlt, hvar, hrest⟩ := slice_eq_cons hle hbody₂ 0
    have hvar' : b.subbuffer.getD (b.subpointer + 1 + 1) 0 = ENV_VAR := by rw [hpointer, hvar]
    rw [skipToVar_first (by omega) (by omega) hvar']
    have hname : 0 < (escape v.1).length := by
      obtain ⟨hne, -, -⟩ := hvars v List.mem_cons_self
      cases hv : v.1 with
      | nil => exact absurd hv hne
      | cons c text =>
        have := escapeByte_pos c
        rw [escape, List.flatMap_cons, List.length_append]
        omega
    have hmore : ¬ b.subpointer + 1 + 1 + 1 ≥ b.subend := by
      rw [hend, hlen, List.flatMap_cons, varBytes, List.cons_append, List.length_cons,
        List.length_append, List.length_append]
      omega
    rw [if_neg hmore]
    have hreads : EnvScan.Reads b.subend
        (escape v.1 ++ valueBytes v.2 ++ vars.flatMap varBytes)
        ⟨b.subbuffer, b.subpointer + 1 + 1 + 1, b.subpointer + 1 + 1 + 1,
          b.subpointer + 1 + 1 + 1, none, []⟩ := by
      refine ⟨hsize, ?_, Nat.le_refl _, by simp only; omega, ?_⟩
      · rw [hend]
        exact hfits
      · rw [hend, hpointer]
        exact hrest
    exact scanEnviron_vars hvars hreads ⟨rfl, rfl, rfl⟩ (Nat.sub_le _ _)

end Netkit.Telnet.Daemon

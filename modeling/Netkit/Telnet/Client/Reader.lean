import Netkit.Foundations.Lookahead
import Netkit.Telnet.Client.Telrcv

/-!
# The body of telrcv as a reader

`telrcv` reads a carriage return in two ways. If the next byte has arrived, it looks at it and
takes it, or puts it back; if not, it remembers the carriage return in `TS_CR`. What it does
after a suboption or a change of mode may take bytes out of `ttyoring`, but adds none to it and
does not look at the rings.
-/

namespace Netkit.Telnet.Client

open Netkit.Foundations

def blankRing : Ringbuf := .init [0, 0, 0, 0]

/-- `ttyoring` is empty and has room for what one pass adds. -/
structure Ringbuf.Roomy (r : Ringbuf) : Prop where
  inv : r.Inv
  size : 3 ≤ r.size
  contents : r.contents = []

theorem blankRing_roomy : blankRing.Roomy := ⟨Ringbuf.init_inv (by decide), by decide, rfl⟩

namespace NetInput

def blank (s : NetInput) : NetInput := { s with netiring := blankRing, ttyoring := blankRing }

/-- Looks at no ring, leaves `netiring` as it is and adds nothing to `ttyoring`. -/
structure Blind (f : NetInput → NetInput) : Prop where
  net : ∀ s, (f s).netiring = s.netiring
  blank : ∀ s, (f s).blank = (f s.blank).blank
  suffix : ∀ s, s.ttyoring.Inv → (f s).ttyoring.contents <:+ s.ttyoring.contents
  inv : ∀ s, s.ttyoring.Inv →
    (f s).ttyoring.Inv ∧ (f s).ttyoring.size = s.ttyoring.size

end NetInput

structure RecvHooks.Blind (hooks : RecvHooks) : Prop where
  suboption : ∀ body, NetInput.Blind (hooks.suboption body)
  sendnaws : NetInput.Blind hooks.sendnaws
  setcommandmode : NetInput.Blind hooks.setcommandmode
  setconnmode : NetInput.Blind hooks.setconnmode

namespace NetInput

/-- What the body of the loop does with a byte, with nothing or one byte in `netiring`. -/
def telrcvReader (hooks : RecvHooks) : Reader NetInput UInt8 UInt8 where
  alone s c :=
    let t := s.blank.receive hooks c
    (t.blank, t.ttyoring.contents)
  ahead s c d :=
    let t := { s.blank with netiring := blankRing.putch d }.receive hooks c
    (t.blank, t.ttyoring.contents, t.netiring.contents.isEmpty)

/-! ## What does not look at the rings -/

section

variable {f g : NetInput → NetInput}

theorem Blind.comp (hg : Blind g) (hf : Blind f) : Blind (fun s => g (f s)) where
  net s := (hg.net (f s)).trans (hf.net s)
  blank s := by rw [hg.blank, hf.blank, ← hg.blank]
  suffix s hs := (hg.suffix (f s) (hf.inv s hs).1).trans (hf.suffix s hs)
  inv s hs := by
    obtain ⟨hI, hsize⟩ := hf.inv s hs
    obtain ⟨hI', hsize'⟩ := hg.inv (f s) hI
    exact ⟨hI', hsize'.trans hsize⟩

theorem blind_of_rings (hnet : ∀ s, (f s).netiring = s.netiring)
    (htty : ∀ s, (f s).ttyoring = s.ttyoring) (hblank : ∀ s, (f s).blank = (f s.blank).blank) :
    Blind f where
  net := hnet
  blank := hblank
  suffix s _ := by rw [htty]
  inv s hs := by rw [htty]; exact ⟨hs, rfl⟩

theorem blind_state (state : TelrcvState) : Blind (fun s => { s with telrcvState := state }) :=
  blind_of_rings (fun _ => rfl) (fun _ => rfl) (fun _ => rfl)

theorem blind_options (o : OptionState → OptionState) :
    Blind (fun s => { s with options := o s.options }) :=
  blind_of_rings (fun _ => rfl) (fun _ => rfl) (fun _ => rfl)

theorem blind_synching (b : Bool) : Blind (fun s => { s with SYNCHing := b }) :=
  blind_of_rings (fun _ => rfl) (fun _ => rfl) (fun _ => rfl)

theorem blind_clear : Blind (fun s => { s with subbuffer := [] }) :=
  blind_of_rings (fun _ => rfl) (fun _ => rfl) (fun _ => rfl)

theorem blind_accum (c : UInt8) : Blind (accum c) := by
  refine blind_of_rings ?_ ?_ ?_
  · intro s
    rw [accum]
    split <;> rfl
  · intro s
    rw [accum]
    split <;> rfl
  · intro s
    rw [accum, accum]
    show _ = (if s.subbuffer.length < SUBBUFSIZE then _ else _ : NetInput).blank
    split <;> rfl

theorem ttyflushDrop_eq (s : NetInput) :
    ∃ r, s.ttyflushDrop = { s with ttyoring := r } ∧
      (s.ttyoring.Inv → r.Inv ∧ r.size = s.ttyoring.size ∧
        r.contents <:+ s.ttyoring.contents) := by
  rw [ttyflushDrop]
  split
  · exact ⟨s.ttyoring, rfl, fun h => ⟨h, rfl, List.suffix_rfl⟩⟩
  · rename_i rv bytes r hflush
    refine ⟨r, rfl, fun h => ?_⟩
    obtain ⟨hI, hsize, hc⟩ := Ringbuf.flush_spec h hflush
    exact ⟨hI, hsize, bytes, hc.symm⟩

theorem blind_ttyflushDrop : Blind ttyflushDrop where
  net s := by
    obtain ⟨r, hr, -⟩ := s.ttyflushDrop_eq
    rw [hr]
  blank s := by
    obtain ⟨r, hr, -⟩ := s.ttyflushDrop_eq
    obtain ⟨r', hr', -⟩ := s.blank.ttyflushDrop_eq
    rw [hr, hr']
    rfl
  suffix s hs := by
    obtain ⟨r, hr, h⟩ := s.ttyflushDrop_eq
    rw [hr]
    exact (h hs).2.2
  inv s hs := by
    obtain ⟨r, hr, h⟩ := s.ttyflushDrop_eq
    rw [hr]
    exact ⟨(h hs).1, (h hs).2.1⟩

variable {hooks : RecvHooks}

theorem blind_of_blank {β : Type*} {h : β → NetInput → NetInput} (hh : ∀ b, Blind (h b))
    {b : NetInput → β} (hb : ∀ s, b s = b s.blank) : Blind (fun s => h (b s) s) where
  net s := (hh (b s)).net s
  blank s := by rw [(hh (b s)).blank s, hb s]
  suffix s hs := (hh (b s)).suffix s hs
  inv s hs := (hh (b s)).inv s hs

theorem blind_endSuboption (hh : hooks.Blind) (c : UInt8) : Blind (endSuboption hooks c) := by
  have hbody := @blind_of_blank (List UInt8) hooks.suboption hh.suboption
    (fun s => s.subbuffer.dropLast.dropLast) (fun _ => rfl)
  exact hbody.comp ((blind_accum c).comp (blind_accum IAC))

theorem blind_receiveIac {c : UInt8} (hc : c ≠ IAC) : Blind (receiveIac hooks c) := by
  show Blind (fun s => receiveIac hooks c s)
  unfold receiveIac
  split
  · exact blind_state .will
  split
  · exact blind_state .wont
  split
  · exact blind_state .doo
  split
  · exact blind_state .dont
  split
  · exact (blind_state .data).comp ((blind_synching hooks.stilloob).comp
      (blind_ttyflushDrop.comp (blind_synching true)))
  split
  · exact (blind_state .sb).comp blind_clear
  exact blind_state .data

theorem blind_doo (hh : hooks.Blind) (c : UInt8) : Blind (fun s =>
    if c = TELOPT_NAWS then hooks.sendnaws s
    else if c = TELOPT_LFLOW then hooks.setconnmode (hooks.setcommandmode s)
    else s) := by
  split
  · exact hh.sendnaws
  · split
    · exact hh.setconnmode.comp hh.setcommandmode
    · exact blind_of_rings (fun _ => rfl) (fun _ => rfl) (fun _ => rfl)

/-- Outside of data, and but for a doubled `IAC`, the body of the loop adds nothing. -/
theorem blind_receive (hh : hooks.Blind) {state : TelrcvState} (hdata : state ≠ .data)
    (hcr : state ≠ .cr) {c : UInt8} (hc : state = .iac → c ≠ IAC) :
    ∃ f, Blind f ∧ ∀ s : NetInput, s.telrcvState = state → s.receive hooks c = f s := by
  cases state with
  | data => exact absurd rfl hdata
  | cr => exact absurd rfl hcr
  | iac => exact ⟨receiveIac hooks c, blind_receiveIac (hc rfl), fun s hs => by rw [receive, hs]⟩
  | will =>
    exact ⟨_, (blind_state .data).comp (blind_options (willoption c)), fun s hs => by
      rw [receive, hs]⟩
  | wont =>
    exact ⟨_, (blind_state .data).comp (blind_options (wontoption c)), fun s hs => by
      rw [receive, hs]⟩
  | doo =>
    exact ⟨_, (blind_state .data).comp ((blind_doo hh c).comp (blind_options (dooption c))),
      fun s hs => by rw [receive, hs]⟩
  | dont =>
    exact ⟨_, (blind_state .data).comp (hh.setconnmode.comp (blind_options (dontoption c))),
      fun s hs => by rw [receive, hs]⟩
  | sb =>
    rcases eq_or_ne c IAC with rfl | hiac
    · exact ⟨_, blind_state .se, fun s hs => by rw [receive, hs]; rfl⟩
    · exact ⟨_, blind_accum c, fun s hs => by rw [receive, hs]; exact if_neg hiac⟩
  | se =>
    rcases eq_or_ne c SE with rfl | hse
    · exact ⟨_, (blind_state .data).comp (blind_endSuboption hh SE), fun s hs => by
        rw [receive, hs]; rfl⟩
    · rcases eq_or_ne c IAC with rfl | hiac
      · exact ⟨_, (blind_state .sb).comp (blind_accum IAC), fun s hs => by
          rw [receive, hs]; rfl⟩
      · refine ⟨_, (@blind_receiveIac hooks c hiac).comp ((blind_state .iac).comp
          (blind_endSuboption hh c)), fun s hs => ?_⟩
        rw [receive, hs]
        dsimp only
        rw [if_pos hse, if_pos hiac]

end

/-! ## What is added to the terminal ring -/

/-- `SYNCHing || flushout`. -/
def suppressed (s : NetInput) : Bool := s.SYNCHing || s.options.flushout

def shown (s : NetInput) (x : List UInt8) : List UInt8 := if s.suppressed then [] else x

/-- `t` is `s` after the bytes `x` have been given to `TTYADD`. -/
structure Adds (s t : NetInput) (x : List UInt8) : Prop where
  blank : t.blank = s.blank
  net : t.netiring = s.netiring
  inv : s.ttyoring.Inv → t.ttyoring.Inv ∧ t.ttyoring.size = s.ttyoring.size
  contents : s.ttyoring.Inv → s.ttyoring.contents.length + x.length ≤ s.ttyoring.size →
    t.ttyoring.contents = s.ttyoring.contents ++ s.shown x

variable {s t u : NetInput} {c d : UInt8} {x y rest : List UInt8}

theorem Adds.nothing (s : NetInput) : s.Adds s [] where
  blank := rfl
  net := rfl
  inv h := ⟨h, rfl⟩
  contents _ _ := by rw [shown, ite_self, List.append_nil]

theorem shown_of_blank (h : s.blank = t.blank) (x : List UInt8) : s.shown x = t.shown x := by
  have hs : s.blank.shown x = s.shown x := rfl
  have ht : t.blank.shown x = t.shown x := rfl
  rw [← hs, h, ht]

theorem shown_of_not (h : s.suppressed = false) (x : List UInt8) : s.shown x = x := by
  rw [shown, h]
  rfl

theorem shown_append (s : NetInput) (x y : List UInt8) :
    s.shown (x ++ y) = s.shown x ++ s.shown y := by
  rw [shown, shown, shown]
  split <;> rfl

theorem length_shown_le (s : NetInput) (x : List UInt8) : (s.shown x).length ≤ x.length := by
  rw [shown]
  split
  · exact Nat.zero_le _
  · exact Nat.le_refl _

theorem Adds.trans (h : s.Adds t x) (h' : t.Adds u y) : s.Adds u (x ++ y) where
  blank := h'.blank.trans h.blank
  net := h'.net.trans h.net
  inv hs := by
    obtain ⟨hI, hsize⟩ := h.inv hs
    obtain ⟨hI', hsize'⟩ := h'.inv hI
    exact ⟨hI', hsize'.trans hsize⟩
  contents hs hroom := by
    rw [List.length_append] at hroom
    obtain ⟨hI, hsize⟩ := h.inv hs
    have hfirst := h.contents hs (by omega)
    have hle := s.length_shown_le x
    have hsecond := h'.contents hI (by rw [hfirst, List.length_append, hsize]; omega)
    rw [hsecond, hfirst, shown_append, shown_of_blank h.blank, List.append_assoc]

theorem ttyadd_adds (s : NetInput) (c : UInt8) : s.Adds (s.ttyadd c) [c] := by
  rw [ttyadd]
  split
  · rename_i hsuppressed
    refine ⟨rfl, rfl, fun hs => ⟨hs, rfl⟩, fun _ _ => ?_⟩
    rw [shown, suppressed, if_pos hsuppressed, List.append_nil]
  · rename_i hsuppressed
    refine ⟨rfl, rfl, fun hs => ?_, fun hs hroom => ?_⟩
    · obtain ⟨hI, -, hsize⟩ := Ringbuf.write_spec hs [c]
      exact ⟨hI, hsize⟩
    · obtain ⟨-, hcontents, -⟩ := Ringbuf.write_spec hs [c]
      have hlength := Ringbuf.contents_length hs
      rw [List.length_singleton] at hroom
      rw [List.take_of_length_le (by rw [List.length_singleton]; omega)] at hcontents
      rw [shown, suppressed, if_neg hsuppressed]
      exact hcontents

def crBytes (s : NetInput) : List UInt8 := if s.crmod then [13, 10] else [13]

theorem addCr_adds (s : NetInput) : s.Adds s.addCr s.crBytes := by
  rw [addCr, crBytes]
  split
  · exact (ttyadd_adds s 13).trans (ttyadd_adds _ 10)
  · exact ttyadd_adds s 13

/-! ## A carriage return -/

/-- The body of the loop looks at the byte behind `c`. -/
def Peeks (s : NetInput) (c : UInt8) : Prop :=
  (s.telrcvState = .data ∨ s.telrcvState = .cr) ∧ c = 13 ∧ s.wantDo TELOPT_BINARY = false

def takes (s : NetInput) (d : UInt8) : Bool :=
  d = 0 || (!s.wantDo TELOPT_ECHO && d = 10)

def peeked (s : NetInput) (d : UInt8) : List UInt8 :=
  if d = 0 then [13] else if s.wantDo TELOPT_ECHO = false ∧ d = 10 then [10] else s.crBytes

theorem receive_of_peeks {hooks : RecvHooks} (hp : s.Peeks c) :
    s.receive hooks c = { s with telrcvState := .data }.receiveData 13 := by
  obtain ⟨hstate, rfl, -⟩ := hp
  rcases hstate with hstate | hstate
  · have hsame : { s with telrcvState := .data } = s := by rw [← hstate]
    rw [hsame, receive, hstate]
  · have hnotLf : ∀ P : Prop, ¬ ((13 : UInt8) = 10 ∧ P) := fun P h => absurd h.1 (by decide)
    simp only [receive, hstate]
    rw [if_neg (by decide), if_neg (hnotLf _)]

theorem receiveData_cr (hbinary : s.wantDo TELOPT_BINARY = false) :
    s.receiveData 13 =
      match s.netiring.getch with
      | some (_, d, r) =>
        if d = 0 then { s with netiring := r }.ttyadd 13
        else if s.wantDo TELOPT_ECHO = false ∧ d = 10 then { s with netiring := r }.ttyadd 10
        else { s with netiring := r.ungetch d }.addCr
      | none => { s with telrcvState := .cr }.addCr := by
  cases hgetch : s.netiring.getch with
  | none => rw [receiveData, if_neg (by decide), if_pos ⟨rfl, hbinary⟩, hgetch]
  | some => rw [receiveData, if_neg (by decide), if_pos ⟨rfl, hbinary⟩, hgetch]

theorem receive_peeks_none {hooks : RecvHooks} (hp : s.Peeks c) (hnet : s.netiring.Inv)
    (hempty : s.netiring.contents = []) :
    { s with telrcvState := .cr }.Adds (s.receive hooks c) s.crBytes := by
  have hbinary : { s with telrcvState := .data }.wantDo TELOPT_BINARY = false := hp.2.2
  rw [receive_of_peeks hp, receiveData_cr hbinary]
  dsimp only
  rw [(Ringbuf.getch_none hnet).mpr hempty]
  exact addCr_adds { s with telrcvState := .cr }

theorem receive_peeks_some {hooks : RecvHooks} (hp : s.Peeks c) (hnet : s.netiring.Inv)
    (hcontents : s.netiring.contents = d :: rest) :
    ∃ r : Ringbuf, r.Inv ∧ r.size = s.netiring.size ∧
      r.contents = (if s.takes d then rest else d :: rest) ∧
      { s with netiring := r, telrcvState := .data }.Adds (s.receive hooks c) (s.peeked d) := by
  have hbinary : { s with telrcvState := .data }.wantDo TELOPT_BINARY = false := hp.2.2
  rw [receive_of_peeks hp, receiveData_cr hbinary]
  dsimp only
  cases hg : s.netiring.getch with
  | none =>
    rw [(Ringbuf.getch_none hnet).mp hg] at hcontents
    cases hcontents
  | some y =>
    obtain ⟨rv, d', r⟩ := y
    obtain ⟨hI, hc⟩ := Ringbuf.getch_spec hnet hg
    obtain ⟨-, -, -, hsize, -⟩ := Ringbuf.getch_eq_some hg
    rw [hcontents] at hc
    cases hc
    dsimp only
    rw [takes, peeked]
    by_cases h0 : d = 0
    · rw [if_pos h0, if_pos h0, h0]
      exact ⟨r, hI, hsize, rfl, ttyadd_adds _ 13⟩
    · rw [if_neg h0, if_neg h0]
      have hecho : { s with telrcvState := .data }.wantDo TELOPT_ECHO = s.wantDo TELOPT_ECHO := rfl
      rw [hecho]
      by_cases h10 : s.wantDo TELOPT_ECHO = false ∧ d = 10
      · rw [if_pos h10, if_pos h10, h10.1, h10.2]
        exact ⟨r, hI, hsize, rfl, ttyadd_adds _ 10⟩
      · rw [if_neg h10, if_neg h10]
        obtain ⟨hfree, hcell⟩ := Ringbuf.getch_ungetch (d := d) hnet hg
        obtain ⟨hI', hc', -⟩ := Ringbuf.ungetch_spec hI hfree hcell
        refine ⟨r.ungetch d, hI', hsize, ?_, addCr_adds _⟩
        rw [hc', if_neg]
        simpa [h0] using h10

/-! ## Any other byte -/

theorem wantDo_of_blank (h : u.blank = s.blank) (option : UInt8) :
    u.wantDo option = s.wantDo option := by
  have hu : u.blank.wantDo option = u.wantDo option := rfl
  have hs : s.blank.wantDo option = s.wantDo option := rfl
  rw [← hu, h, hs]

theorem state_of_blank (h : u.blank = s.blank) : u.telrcvState = s.telrcvState := by
  have hu : u.blank.telrcvState = u.telrcvState := rfl
  have hs : s.blank.telrcvState = s.telrcvState := rfl
  rw [← hu, h, hs]

theorem crmod_of_blank (h : u.blank = s.blank) : u.crmod = s.crmod := by
  have hu : u.blank.crmod = u.crmod := rfl
  have hs : s.blank.crmod = s.crmod := rfl
  rw [← hu, h, hs]

theorem blind_id : Blind (fun s => s) := blind_of_rings (fun _ => rfl) (fun _ => rfl) (fun _ => rfl)

theorem receiveData_other (hcr : ¬ (c = 13 ∧ s.wantDo TELOPT_BINARY = false)) :
    ∃ f x, Blind f ∧ x.length ≤ 1 ∧
      ∀ u : NetInput, u.blank = s.blank → (f u).Adds (u.receiveData c) x := by
  rcases eq_or_ne c IAC with rfl | hiac
  · refine ⟨_, [], blind_state .iac, Nat.zero_le _, fun u _ => ?_⟩
    rw [receiveData, if_pos rfl]
    exact Adds.nothing _
  · refine ⟨_, [c], blind_id, Nat.le_refl _, fun u hu => ?_⟩
    rw [receiveData, if_neg hiac, wantDo_of_blank hu, if_neg hcr]
    exact ttyadd_adds u c

theorem receive_other {hooks : RecvHooks} (hh : hooks.Blind) (hp : ¬ s.Peeks c) :
    ∃ f x, Blind f ∧ x.length ≤ 1 ∧
      ∀ u : NetInput, u.blank = s.blank → (f u).Adds (u.receive hooks c) x := by
  by_cases hdata : s.telrcvState = .data
  · obtain ⟨f, x, hf, hx, hadds⟩ :=
      @receiveData_other s c (fun hcr => hp ⟨Or.inl hdata, hcr⟩)
    refine ⟨f, x, hf, hx, fun u hu => ?_⟩
    rw [receive, (state_of_blank hu).trans hdata]
    exact hadds u hu
  by_cases hcr : s.telrcvState = .cr
  · by_cases h0 : c = 0
    · refine ⟨_, [], blind_state .data, Nat.zero_le _, fun u hu => ?_⟩
      rw [receive, (state_of_blank hu).trans hcr]
      dsimp only
      rw [if_pos h0]
      exact Adds.nothing _
    by_cases h10 : c = 10 ∧ s.wantDo TELOPT_ECHO = false ∧ s.crmod = false
    · refine ⟨_, [c], blind_state .data, Nat.le_refl _, fun u hu => ?_⟩
      have h10' : c = 10 ∧ { u with telrcvState := .data }.wantDo TELOPT_ECHO = false ∧
          u.crmod = false :=
        ⟨h10.1, (wantDo_of_blank hu _).trans h10.2.1, (crmod_of_blank hu).trans h10.2.2⟩
      rw [receive, (state_of_blank hu).trans hcr]
      dsimp only
      rw [if_neg h0, if_pos h10']
      exact ttyadd_adds _ c
    · obtain ⟨f, x, hf, hx, hadds⟩ :=
        @receiveData_other { s with telrcvState := .data } c (fun h => hp ⟨Or.inr hcr, h⟩)
      refine ⟨_, x, hf.comp (blind_state .data), hx, fun u hu => ?_⟩
      have h10' : ¬ (c = 10 ∧ { u with telrcvState := .data }.wantDo TELOPT_ECHO = false ∧
          u.crmod = false) := fun h => h10
        ⟨h.1, (wantDo_of_blank hu _).symm.trans h.2.1, (crmod_of_blank hu).symm.trans h.2.2⟩
      rw [receive, (state_of_blank hu).trans hcr]
      dsimp only
      rw [if_neg h0, if_neg h10']
      refine hadds _ ?_
      have hblank := congrArg (fun v : NetInput => { v with telrcvState := .data }) hu
      exact hblank
  by_cases hiac : s.telrcvState = .iac ∧ c = IAC
  · refine ⟨_, [IAC], blind_state .data, Nat.le_refl _, fun u hu => ?_⟩
    have hreceive : u.receive hooks c = { u with telrcvState := .data }.ttyadd IAC := by
      rw [receive, (state_of_blank hu).trans hiac.1, hiac.2]
      dsimp only
      rw [receiveIac, if_neg (by decide), if_neg (by decide), if_neg (by decide),
        if_neg (by decide), if_neg (by decide), if_neg (by decide), if_pos rfl, ttyadd, ttyadd]
      dsimp only
      split <;> rfl
    rw [hreceive]
    exact ttyadd_adds _ IAC
  · obtain ⟨f, hf, heq⟩ := @blind_receive hooks hh s.telrcvState hdata hcr c
      (fun hs hc => hiac ⟨hs, hc⟩)
    refine ⟨f, [], hf, Nat.zero_le _, fun u hu => ?_⟩
    rw [heq u (state_of_blank hu)]
    exact Adds.nothing _

/-! ## The body of the loop is the reader -/

/-- What the body of the loop gives to `TTYADD`: what it leaves in an empty ring. -/
def added (hooks : RecvHooks) (c : UInt8) (s : NetInput) : List UInt8 :=
  ({ s with ttyoring := blankRing }.receive hooks c).ttyoring.contents

theorem Adds.shown (h : s.Adds t x) (hs : s.ttyoring.Roomy) (hx : x.length ≤ 3) :
    t.ttyoring.contents = s.shown x := by
  have hroom : s.ttyoring.contents.length + x.length ≤ s.ttyoring.size := by
    rw [hs.contents, List.length_nil, Nat.zero_add]
    exact hx.trans hs.size
  have hcontents := h.contents hs.inv hroom
  rw [hcontents, hs.contents, List.nil_append]

theorem Blind.roomy {f : NetInput → NetInput} (hf : Blind f) (hs : s.ttyoring.Roomy) :
    (f s).ttyoring.Roomy := by
  obtain ⟨hI, hsize⟩ := hf.inv s hs.inv
  refine ⟨hI, hsize ▸ hs.size, ?_⟩
  have hsuffix := hf.suffix s hs.inv
  rw [hs.contents] at hsuffix
  exact List.suffix_nil.mp hsuffix

theorem length_crBytes (s : NetInput) : s.crBytes.length ≤ 2 := by
  rw [crBytes]
  split <;> decide

theorem length_peeked (s : NetInput) (d : UInt8) : (s.peeked d).length ≤ 2 := by
  rw [peeked]
  split
  · decide
  · split
    · decide
    · exact s.length_crBytes

variable {hooks : RecvHooks}

theorem reader_other (hh : hooks.Blind) (hp : ¬ s.Peeks c) :
    ∃ t x, (telrcvReader hooks).alone s c = (t, x) ∧
      (∀ d, (telrcvReader hooks).ahead s c d = (t, x, false)) ∧
      ∀ u : NetInput, u.blank = s.blank → (u.receive hooks c).blank = t ∧
        (u.receive hooks c).netiring = u.netiring ∧ added hooks c u = x := by
  obtain ⟨f, x, hf, hx, hadds⟩ := receive_other hh hp
  have hall : ∀ u : NetInput, u.blank = s.blank → (u.receive hooks c).blank = (f s.blank).blank ∧
      (u.receive hooks c).netiring = u.netiring ∧
      (u.ttyoring = blankRing → (u.receive hooks c).ttyoring.contents = (f s.blank).shown x) := by
    intro u hu
    have hblank : (f u).blank = (f s.blank).blank := by rw [hf.blank, hu]
    refine ⟨(hadds u hu).blank.trans hblank, (hadds u hu).net.trans (hf.net u), fun htty => ?_⟩
    have hroomy : (f u).ttyoring.Roomy := hf.roomy (htty ▸ blankRing_roomy)
    rw [(hadds u hu).shown hroomy (by omega), shown_of_blank hblank]
  refine ⟨(f s.blank).blank, (f s.blank).shown x, ?_, ?_, ?_⟩
  · obtain ⟨hblank, -, hcontents⟩ := hall s.blank rfl
    exact Prod.ext hblank (hcontents rfl)
  · intro d
    obtain ⟨hblank, hnet, hcontents⟩ := hall { s.blank with netiring := blankRing.putch d } rfl
    refine Prod.ext hblank (Prod.ext (hcontents rfl) ?_)
    show List.isEmpty _ = false
    rw [hnet]
    rfl
  · intro u hu
    obtain ⟨hblank, hnet, -⟩ := hall u hu
    exact ⟨hblank, hnet, (hall { u with ttyoring := blankRing } hu).2.2 rfl⟩

theorem Peeks.of_blank (hp : s.Peeks c) (h : u.blank = s.blank) : u.Peeks c := by
  obtain ⟨hstate, hc, hbinary⟩ := hp
  rw [← state_of_blank h] at hstate
  exact ⟨hstate, hc, (wantDo_of_blank h _).trans hbinary⟩

theorem crBytes_of_blank (h : u.blank = s.blank) : u.crBytes = s.crBytes := by
  rw [crBytes, crBytes, crmod_of_blank h]

theorem peeked_of_blank (h : u.blank = s.blank) (d : UInt8) : u.peeked d = s.peeked d := by
  rw [peeked, peeked, wantDo_of_blank h, crBytes_of_blank h]

theorem takes_of_blank (h : u.blank = s.blank) (d : UInt8) : u.takes d = s.takes d := by
  rw [takes, takes, wantDo_of_blank h]

theorem receive_last (hp : s.Peeks c) (hu : u.blank = s.blank) (hnet : u.netiring.Inv)
    (hempty : u.netiring.contents = []) :
    (u.receive hooks c).blank = { s.blank with telrcvState := .cr } ∧
      (u.receive hooks c).netiring = u.netiring ∧
      added hooks c u = s.shown s.crBytes := by
  have hadds := @receive_peeks_none u c hooks (hp.of_blank hu) hnet hempty
  have hadds' := @receive_peeks_none { u with ttyoring := blankRing } c hooks (hp.of_blank hu)
    hnet hempty
  have hcr := u.length_crBytes
  refine ⟨?_, hadds.net, ?_⟩
  · exact hadds.blank.trans (congrArg (fun v : NetInput => { v with telrcvState := .cr }) hu)
  · have hshown := hadds'.shown blankRing_roomy (hcr.trans (by decide))
    rw [added, hshown, ← crBytes_of_blank hu]
    exact shown_of_blank hu _

theorem receive_before (hp : s.Peeks c) (hu : u.blank = s.blank) (hnet : u.netiring.Inv)
    (hcontents : u.netiring.contents = d :: rest) :
    (u.receive hooks c).blank = { s.blank with telrcvState := .data } ∧
      (u.receive hooks c).netiring.Inv ∧
      (u.receive hooks c).netiring.size = u.netiring.size ∧
      (u.receive hooks c).netiring.contents = (if s.takes d then rest else d :: rest) ∧
      added hooks c u = s.shown (s.peeked d) := by
  obtain ⟨r, hI, hsize, hr, hadds⟩ :=
    @receive_peeks_some u c d rest hooks (hp.of_blank hu) hnet hcontents
  obtain ⟨r', -, -, -, hadds'⟩ := @receive_peeks_some { u with ttyoring := blankRing } c d rest
    hooks (hp.of_blank hu) hnet hcontents
  have hpeeked := u.length_peeked d
  refine ⟨?_, ?_, ?_, ?_, ?_⟩
  · exact hadds.blank.trans (congrArg (fun v : NetInput => { v with telrcvState := .data }) hu)
  · rw [hadds.net]
    exact hI
  · rw [hadds.net]
    exact hsize
  · rw [hadds.net, ← takes_of_blank hu]
    exact hr
  · have hshown := hadds'.shown blankRing_roomy (hpeeked.trans (by decide))
    rw [added, hshown, ← peeked_of_blank hu]
    exact shown_of_blank hu _

theorem reader_alone_peeks (hp : s.Peeks c) :
    (telrcvReader hooks).alone s c =
      ({ s.blank with telrcvState := .cr }, s.shown s.crBytes) := by
  obtain ⟨hblank, -, hadded⟩ := @receive_last s s.blank c hooks hp rfl blankRing_roomy.inv rfl
  exact Prod.ext hblank hadded

theorem reader_ahead_peeks (hp : s.Peeks c) (d : UInt8) :
    (telrcvReader hooks).ahead s c d =
      ({ s.blank with telrcvState := .data }, s.shown (s.peeked d), s.takes d) := by
  obtain ⟨hI, hcontents, -⟩ := Ringbuf.write_spec blankRing_roomy.inv [d]
  obtain ⟨hblank, -, -, hnet, hadded⟩ := @receive_before s
    { s.blank with netiring := blankRing.putch d } c d [] hooks hp rfl hI hcontents
  refine Prod.ext hblank (Prod.ext hadded ?_)
  show List.isEmpty _ = s.takes d
  rw [hnet]
  cases s.takes d <;> rfl

theorem receive_pass (hh : hooks.Blind) (hnet : s.netiring.Inv) (c : UInt8) (out : List UInt8) :
    (telrcvReader hooks).pass ⟨s.blank, c :: s.netiring.contents, out⟩ =
      some ⟨(s.receive hooks c).blank, (s.receive hooks c).netiring.contents,
        out ++ added hooks c s⟩ := by
  rw [Reader.pass]
  by_cases hp : s.Peeks c
  · cases hcontents : s.netiring.contents with
    | nil =>
      obtain ⟨hblank, hring, hadded⟩ := @receive_last s s c hooks hp rfl hnet hcontents
      have halone : (telrcvReader hooks).alone s.blank c = _ := @reader_alone_peeks s c hooks hp
      dsimp only
      rw [halone, hblank, hring, hcontents, hadded]
    | cons d rest =>
      obtain ⟨hblank, -, -, hring, hadded⟩ := @receive_before s s c d rest hooks hp rfl hnet hcontents
      have hahead : (telrcvReader hooks).ahead s.blank c d = _ :=
        @reader_ahead_peeks s c hooks hp d
      dsimp only
      rw [hahead, hblank, hring, hadded]
  · obtain ⟨t, x, halone, hahead, hreceive⟩ := @reader_other s c hooks hh hp
    obtain ⟨hblank, hring, hadded⟩ := hreceive s rfl
    have halone' : (telrcvReader hooks).alone s.blank c = (t, x) := halone
    have hahead' : ∀ d, (telrcvReader hooks).ahead s.blank c d = (t, x, false) := hahead
    rw [hblank, hring, hadded]
    cases s.netiring.contents with
    | nil =>
      dsimp only
      rw [halone']
    | cons d rest =>
      dsimp only
      rw [hahead']
      rfl

theorem receive_rings (hh : hooks.Blind) (hnet : s.netiring.Inv) (c : UInt8) :
    (s.receive hooks c).netiring.Inv ∧
      (s.receive hooks c).netiring.size = s.netiring.size ∧
      (s.ttyoring.Inv → (s.receive hooks c).ttyoring.Inv ∧
        (s.receive hooks c).ttyoring.size = s.ttyoring.size) := by
  by_cases hp : s.Peeks c
  · cases hcontents : s.netiring.contents with
    | nil =>
      have hadds := @receive_peeks_none s c hooks hp hnet hcontents
      exact ⟨hadds.net ▸ hnet, congrArg Ringbuf.size hadds.net, hadds.inv⟩
    | cons d rest =>
      obtain ⟨r, hI, hsize, -, hadds⟩ := @receive_peeks_some s c d rest hooks hp hnet hcontents
      exact ⟨hadds.net ▸ hI, (congrArg Ringbuf.size hadds.net).trans hsize, hadds.inv⟩
  · obtain ⟨f, x, hf, -, hadds⟩ := receive_other hh hp
    have hring := (hadds s rfl).net.trans (hf.net s)
    refine ⟨hring ▸ hnet, congrArg Ringbuf.size hring, fun htty => ?_⟩
    obtain ⟨hI, hsize⟩ := hf.inv s htty
    obtain ⟨hI', hsize'⟩ := (hadds s rfl).inv hI
    exact ⟨hI', hsize'.trans hsize⟩

/-! ## The two ways through a carriage return -/

/-- Any byte but `\\0` is read behind a remembered carriage return as it is read elsewhere. -/
theorem receive_cr (s : NetInput) (hd : d ≠ 0) :
    { s with telrcvState := .cr }.receive hooks d =
      { s with telrcvState := .data }.receive hooks d := by
  rw [receive, receive]
  dsimp only
  rw [if_neg hd]
  split
  · rename_i h10
    rw [receiveData, h10.1, if_neg (by decide), if_neg (fun h => absurd h.1 (by decide))]
  · rfl

theorem like_data_cr (s : NetInput) (hd : d ≠ 0) :
    (telrcvReader hooks).Like d { s.blank with telrcvState := .data }
      { s.blank with telrcvState := .cr } := by
  constructor
  · have h := @receive_cr d hooks s.blank hd
    exact Prod.ext (congrArg NetInput.blank h.symm)
      (congrArg (fun t : NetInput => t.ttyoring.contents) h.symm)
  · intro e
    have h := @receive_cr d hooks { s.blank with netiring := blankRing.putch e } hd
    exact Prod.ext (congrArg NetInput.blank h.symm)
      (Prod.ext (congrArg (fun t : NetInput => t.ttyoring.contents) h.symm)
        (congrArg (fun t : NetInput => t.netiring.contents.isEmpty) h.symm))

theorem takes_iff : s.takes d = true ↔ d = 0 ∨ s.wantDo TELOPT_ECHO = false ∧ d = 10 := by
  rw [takes, Bool.or_eq_true, Bool.and_eq_true, Bool.not_eq_true', decide_eq_true_iff,
    decide_eq_true_iff]

theorem reader_alone_cr (ht : s.takes d = true) :
    (telrcvReader hooks).alone { s.blank with telrcvState := .cr } d =
      ({ s.blank with telrcvState := .data }, if d = 0 then [] else s.shown [10]) := by
  by_cases h0 : d = 0
  · rw [if_pos h0, h0]
    rfl
  · have h10 : d = 10 := ((takes_iff.mp ht).resolve_left h0).2
    have hreceive : { s.blank with telrcvState := .cr }.receive hooks d =
        { s.blank with telrcvState := .data }.ttyadd 10 := by
      rw [receive_cr s.blank h0, h10]
      show receiveData 10 _ = _
      rw [receiveData, if_neg (by decide), if_neg (fun h => absurd h.1 (by decide))]
    have hadds := ttyadd_adds { s.blank with telrcvState := .data } 10
    rw [if_neg h0]
    refine Prod.ext ?_ ?_
    · exact (congrArg NetInput.blank hreceive).trans hadds.blank
    · exact (congrArg (fun t : NetInput => t.ttyoring.contents) hreceive).trans
        (hadds.shown blankRing_roomy (by decide))

theorem telrcvReader_lawful (hh : hooks.Blind) : (telrcvReader hooks).Lawful where
  left s c d t x h := by
    by_cases hp : s.Peeks c
    · rw [reader_ahead_peeks hp] at h
      obtain ⟨rfl, hrest⟩ := Prod.mk.inj h
      obtain ⟨rfl, htakes⟩ := Prod.mk.inj hrest
      have hd : d ≠ 0 := fun h0 => by
        rw [takes_iff.mpr (Or.inl h0)] at htakes
        cases htakes
      have h10 : ¬ (s.wantDo TELOPT_ECHO = false ∧ d = 10) := fun h10 => by
        rw [takes_iff.mpr (Or.inr h10)] at htakes
        cases htakes
      rw [reader_alone_peeks hp, peeked, if_neg hd, if_neg h10]
      exact ⟨rfl, like_data_cr s hd⟩
    · obtain ⟨t', x', halone, hahead, -⟩ := @reader_other s c hooks hh hp
      rw [hahead] at h
      cases h
      rw [halone]
      exact ⟨rfl, rfl, fun _ => rfl⟩
  taken s c d t x h := by
    by_cases hp : s.Peeks c
    · rw [reader_ahead_peeks hp] at h
      obtain ⟨rfl, hrest⟩ := Prod.mk.inj h
      obtain ⟨rfl, htakes⟩ := Prod.mk.inj hrest
      rw [reader_alone_peeks hp, reader_alone_cr htakes]
    · obtain ⟨t', x', -, hahead, -⟩ := @reader_other s c hooks hh hp
      rw [hahead] at h
      cases h

/-- Behind a carriage return `d` is read in one way if it is there at once, and in another if it
comes later. -/
def Doubtful (s : NetInput) (d : UInt8) : Prop :=
  (s.telrcvState = .data ∨ s.telrcvState = .cr) ∧ s.wantDo TELOPT_BINARY = false ∧
    s.suppressed = false ∧ (d = 0 ∧ s.crmod = true ∨ d = 10 ∧ s.wantDo TELOPT_ECHO = false)

theorem agrees_iff (hh : hooks.Blind) :
    (telrcvReader hooks).Agrees s c d ↔ ¬ (c = 13 ∧ s.Doubtful d) := by
  by_cases hp : s.Peeks c
  · have hreads : ((telrcvReader hooks).reads s [c, d]).2 = s.shown s.crBytes ++
        ((telrcvReader hooks).alone { s.blank with telrcvState := .cr } d).2 := by
      rw [Reader.reads_pair, reader_alone_peeks hp]
    rw [Reader.agrees_of_ahead (reader_ahead_peeks hp d), hreads]
    constructor
    · rintro hagrees ⟨-, -, -, hshown, hwhich⟩
      have htakes : s.takes d = true := takes_iff.mpr (hwhich.imp And.left And.symm)
      have hsame := hagrees htakes
      rw [reader_alone_cr htakes, peeked, shown_of_not hshown, shown_of_not hshown,
        shown_of_not hshown] at hsame
      dsimp only at hsame
      rcases hwhich with ⟨h0, hcrmod⟩ | ⟨h10, hecho⟩
      · rw [if_pos h0, crBytes, if_pos hcrmod, if_pos h0] at hsame
        exact absurd hsame (by decide)
      · have h0 : d ≠ 0 := by rw [h10]; decide
        rw [if_neg h0, if_pos ⟨hecho, h10⟩, if_neg h0, crBytes] at hsame
        split at hsame
        · exact absurd hsame (by decide)
        · exact absurd hsame (by decide)
    · intro hnot htakes
      rw [reader_alone_cr htakes, peeked]
      by_cases hshown : s.suppressed = true
      · rw [shown, shown, shown, if_pos hshown, if_pos hshown, if_pos hshown, ite_self]
        rfl
      · have hno := Bool.eq_false_iff.mpr hshown
        have hnot' := fun h => hnot ⟨hp.2.1, hp.1, hp.2.2, hno, h⟩
        rcases takes_iff.mp htakes with h0 | ⟨hecho, h10⟩
        · have hcrmod : ¬ s.crmod = true := fun hcrmod => hnot' (Or.inl ⟨h0, hcrmod⟩)
          rw [if_pos h0, if_pos h0, crBytes, if_neg hcrmod, List.append_nil]
        · exact absurd (Or.inr ⟨h10, hecho⟩) hnot'
  · obtain ⟨t, x, -, hahead, -⟩ := @reader_other s c hooks hh hp
    constructor
    · rintro - ⟨hc, hstate, hbinary, -⟩
      exact hp ⟨hstate, hc, hbinary⟩
    · intro _ t' x' h
      rw [hahead] at h
      cases h

end NetInput

end Netkit.Telnet.Client

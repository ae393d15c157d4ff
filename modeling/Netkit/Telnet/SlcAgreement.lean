import Netkit.Foundations.Following
import Netkit.Telnet.Slc

/-!
# The client and telnetd agree on a special character

One function of any kind of support on either side, over two FIFO channels. telnetd is the
authority: it answers every request that it does not take for an acknowledgement of its own
setting or for a repetition, and it ignores acknowledgements. The client follows whatever its
level of support allows, acknowledges it, and answers anything else with its own setting.

* `slc_agreement`: the exchange ends, and then they agree.
-/

namespace Netkit.Telnet.Slc

open Netkit.Foundations Exchange

/-- What the client sends: a triplet for the function, or one for the function 0. -/
inductive Request where
  | triplet (t : Triplet)
  | all (flag : BitVec 8)
  deriving DecidableEq

def Slcfun.process (s : Slcfun) : Request → Slcfun × Option Triplet
  | .triplet t => s.processSlc t.flags t.value
  | .all flag => s.processAll flag

/-! ## The client -/

def SameSetting (flags : BitVec 8) (val : UInt8) (flags' : BitVec 8) (val' : UInt8) : Prop :=
  level flags = level flags' ∧ (level flags = SLC_NOSUPPORT ∨ val = val')

/-- Between two suboptions no acknowledgement is left in the flags, and the level is one that the
client supports. -/
structure Spc.Proper (my : BitVec 8) (s : Spc) : Prop where
  mylevel : s.mylevel = my
  unacked : acked my = false
  settled : acked s.flags = false
  supported : level s.flags ≤ level my

def Acceptable (my : BitVec 8) (t : Triplet) : Prop :=
  level t.flags ≤ level my ∧ level t.flags ≠ SLC_DEFAULT

instance (my : BitVec 8) (t : Triplet) : Decidable (Acceptable my t) :=
  inferInstanceAs (Decidable (_ ∧ _))

theorem acked_iff (f : BitVec 8) : acked f = true ↔ ¬ f &&& SLC_ACK = 0 := by
  rw [acked, decide_eq_true_iff]

theorem slcUpdate_of_not_acked {s : Spc} (h : acked s.flags = false) : s.slcUpdate = s := by
  rw [Spc.slcUpdate, if_pos]
  by_contra hne
  rw [(acked_iff s.flags).mpr hne] at h
  cases h

theorem slcUpdate_flags (s : Spc) : s.slcUpdate.val = s.val ∧ s.slcUpdate.mylevel = s.mylevel ∧
    level s.slcUpdate.flags = level s.flags ∧ acked s.slcUpdate.flags = false := by
  rw [Spc.slcUpdate]
  split
  · rename_i h
    refine ⟨rfl, rfl, rfl, Bool.eq_false_iff.mpr fun hacked => ?_⟩
    exact (acked_iff s.flags).mp hacked h
  · exact ⟨rfl, rfl, level_and_not_ack s.flags, acked_and_not_ack s.flags⟩

theorem masked_level (f : BitVec 8) :
    f &&& (SLC_LEVELBITS ||| SLC_ACK) &&& SLC_LEVELBITS = level f := by
  revert f
  decide +kernel

theorem masked_not_ack (f : BitVec 8) :
    f &&& (SLC_LEVELBITS ||| SLC_ACK) &&& ~~~SLC_ACK = level f := by
  revert f
  decide +kernel

theorem masked_eq_iff (f g : BitVec 8) :
    f &&& (SLC_LEVELBITS ||| SLC_ACK) = (g &&& SLC_LEVELBITS) ||| SLC_ACK ↔
      level f = level g ∧ acked f = true := by
  have hg : g &&& SLC_LEVELBITS = level g := rfl
  rw [hg]
  rcases level_cases g with h | h | h | h <;> rw [h] <;> revert f <;> decide +kernel

/-- What the client makes of the flags, without an acknowledgement that should not be there. -/
def cleaned (t : Triplet) : BitVec 8 :=
  if t.flags &&& (SLC_LEVELBITS ||| SLC_ACK) = SLC_DEFAULT ||| SLC_ACK then t.flags &&& ~~~SLC_ACK
  else t.flags

theorem level_cleaned (t : Triplet) : level (cleaned t) = level t.flags := by
  rw [cleaned]
  split
  · exact level_and_not_ack t.flags
  · rfl

variable {my : BitVec 8} {s : Spc} {t : Triplet}

theorem slc_same (h : t.value = s.val ∧ level t.flags = level s.flags) : s.slc t = (s, none) := by
  have hmasked : t.value = s.val ∧ t.flags &&& (SLC_LEVELBITS ||| SLC_ACK) &&& SLC_LEVELBITS =
      s.flags &&& SLC_LEVELBITS := ⟨h.1, (masked_level t.flags).trans h.2⟩
  rw [Spc.slc]
  exact if_pos hmasked

theorem slc_acked (hnew : ¬ (t.value = s.val ∧ level t.flags = level s.flags))
    (hack : level t.flags = level s.flags ∧ acked t.flags = true) :
    s.slc t = ({ s with val := t.value, flags := cleaned t }, none) := by
  have hmasked : ¬ (t.value = s.val ∧ t.flags &&& (SLC_LEVELBITS ||| SLC_ACK) &&& SLC_LEVELBITS =
      s.flags &&& SLC_LEVELBITS) := fun h => hnew ⟨h.1, (masked_level t.flags).symm.trans h.2⟩
  rw [Spc.slc]
  dsimp only
  rw [if_neg hmasked, if_pos ((masked_eq_iff t.flags s.flags).mpr hack)]
  rfl

def takenOver (t : Triplet) (s : Spc) : Spc :=
  if level t.flags ≤ level s.mylevel then { s with flags := cleaned t ||| SLC_ACK, val := t.value }
  else s

theorem takenOver_mylevel (t : Triplet) (s : Spc) : (takenOver t s).mylevel = s.mylevel := by
  rw [takenOver]
  split
  · rfl
  · rfl

theorem slc_answered (hnew : ¬ (t.value = s.val ∧ level t.flags = level s.flags))
    (hack : ¬ (level t.flags = level s.flags ∧ acked t.flags = true)) :
    s.slc t =
      let u := if level t.flags = SLC_DEFAULT then
          if level (takenOver t s).mylevel ≠ SLC_DEFAULT then
            { takenOver t s with flags := (takenOver t s).mylevel }
          else { takenOver t s with flags := SLC_NOSUPPORT }
        else takenOver t s
      (u, some ⟨u.flags, u.val⟩) := by
  have hmasked : ¬ (t.value = s.val ∧ t.flags &&& (SLC_LEVELBITS ||| SLC_ACK) &&& SLC_LEVELBITS =
      s.flags &&& SLC_LEVELBITS) := fun h => hnew ⟨h.1, (masked_level t.flags).symm.trans h.2⟩
  rw [Spc.slc]
  dsimp only
  rw [if_neg hmasked, if_neg (fun h => hack ((masked_eq_iff t.flags s.flags).mp h)),
    masked_not_ack]
  rfl

/-- What a suboption with the triplet does. -/
inductive Reaction (my : BitVec 8) (s : Spc) (t : Triplet) : Spc × Option Triplet → Prop where
  /-- It is taken over, with no answer. -/
  | silent (u : Spc) (hval : u.val = t.value) (hlevel : level u.flags = level t.flags) :
      Reaction my s t (u, none)
  /-- It is taken over and acknowledged. -/
  | acknowledged (u : Spc) (flags : BitVec 8) (hval : u.val = t.value)
      (hlevel : level u.flags = level t.flags) (hok : Acceptable my t)
      (hack : acked flags = true) : Reaction my s t (u, some ⟨flags, t.value⟩)
  /-- It is answered with the setting of the client. -/
  | refused (u : Spc) (flags : BitVec 8) (hlevel : level flags = level u.flags)
      (hok : ¬ Acceptable my t) (hack : acked flags = false) :
      Reaction my s t (u, some ⟨flags, u.val⟩)

theorem suboption_of_slc {u : Spc} {o : Option Triplet} (h : s.slc t = (u, o)) :
    s.suboption t = (u.slcUpdate, o) := by
  rw [Spc.suboption, h]

theorem Spc.Proper.slcUpdate {u : Spc} (hs : s.Proper my) (hmylevel : u.mylevel = s.mylevel)
    (hlevel : level u.flags ≤ level my) : u.slcUpdate.Proper my := by
  obtain ⟨-, hmy, hflags, hacked⟩ := slcUpdate_flags u
  exact ⟨hmy.trans (hmylevel.trans hs.mylevel), hs.unacked, hacked, hflags.symm ▸ hlevel⟩

theorem reaction_acknowledged {u : Spc} (hval : u.val = t.value)
    (hlevel : level u.flags = level t.flags) (hok : Acceptable my t)
    (hack : acked u.flags = true) :
    Reaction my s t (u.slcUpdate, some ⟨u.flags, u.val⟩) := by
  obtain ⟨hval', -, hlevel', -⟩ := slcUpdate_flags u
  rw [hval]
  exact .acknowledged _ _ (hval'.trans hval) (hlevel'.trans hlevel) hok hack

theorem reaction_refused {u : Spc} (hok : ¬ Acceptable my t) (hack : acked u.flags = false) :
    Reaction my s t (u.slcUpdate, some ⟨u.flags, u.val⟩) := by
  obtain ⟨hval', -, hlevel', -⟩ := slcUpdate_flags u
  rw [← hval']
  exact .refused _ _ hlevel'.symm hok hack

theorem noSupport_le (f : BitVec 8) : level SLC_NOSUPPORT ≤ level f := by
  revert f
  decide +kernel

theorem suboption_reaction (hs : s.Proper my) :
    Reaction my s t (s.suboption t) ∧ (s.suboption t).1.Proper my := by
  by_cases hsame : t.value = s.val ∧ level t.flags = level s.flags
  · rw [suboption_of_slc (slc_same hsame), slcUpdate_of_not_acked hs.settled]
    exact ⟨.silent s hsame.1.symm hsame.2.symm, hs⟩
  by_cases hack : level t.flags = level s.flags ∧ acked t.flags = true
  · have hlevel : level (cleaned t) ≤ level my := by
      rw [level_cleaned, hack.1]
      exact hs.supported
    obtain ⟨hval, -, hflags, -⟩ := slcUpdate_flags { s with val := t.value, flags := cleaned t }
    rw [suboption_of_slc (slc_acked hsame hack)]
    exact ⟨.silent _ hval (hflags.trans (level_cleaned t)), hs.slcUpdate rfl hlevel⟩
  have hanswered := slc_answered hsame hack
  have hmylevel := takenOver_mylevel t s
  by_cases hdefault : level t.flags = SLC_DEFAULT
  · -- The level of the client, or no support if that is the default, too.
    have hok : ¬ Acceptable my t := fun hok => hok.2 hdefault
    dsimp only at hanswered
    rw [if_pos hdefault, hmylevel, hs.mylevel] at hanswered
    rw [suboption_of_slc hanswered]
    split
    · exact ⟨reaction_refused hok hs.unacked, hs.slcUpdate hs.mylevel.symm (BitVec.le_refl _)⟩
    · have hack : acked SLC_NOSUPPORT = false := by decide
      exact ⟨reaction_refused hok hack, hs.slcUpdate hs.mylevel.symm (noSupport_le my)⟩
  · dsimp only at hanswered
    rw [if_neg hdefault] at hanswered
    rw [suboption_of_slc hanswered, takenOver, hs.mylevel]
    split
    · rename_i hle
      have hlevel : level (cleaned t ||| SLC_ACK) = level t.flags :=
        (level_or_ack _).trans (level_cleaned t)
      exact ⟨reaction_acknowledged rfl hlevel ⟨hle, hdefault⟩ (acked_or_ack _),
        hs.slcUpdate hs.mylevel.symm (hlevel.symm ▸ hle)⟩
    · rename_i hle
      exact ⟨reaction_refused (fun hok => hle hok.1) hs.settled, hs.slcUpdate rfl hs.supported⟩

/-! ## telnetd -/

/-- A character that telnetd can change has a place in the terminal, and one that it does not
support has none. -/
structure Slcfun.Sound (s : Slcfun) : Prop where
  changeable : level s.defset.flag = SLC_VARIABLE → s.sptr ≠ none
  unsupported : level s.defset.flag = SLC_NOSUPPORT →
    s.sptr = none ∧ level s.current.flag = SLC_NOSUPPORT

def Tells (t : Triplet) (s : Slcfun) : Prop :=
  level t.flags = level s.current.flag ∧
    (level t.flags = SLC_NOSUPPORT ∨ t.value = s.current.val)

theorem level_replaced (f : BitVec 8) :
    level (f &&& ~~~SLC_LEVELBITS ||| SLC_NOSUPPORT) = SLC_NOSUPPORT ∧
      level (f &&& ~~~SLC_LEVELBITS ||| SLC_CANTCHANGE) = SLC_CANTCHANGE := by
  revert f
  decide +kernel

theorem level_le_default (f : BitVec 8) : level f ≤ SLC_DEFAULT := by
  revert f
  decide +kernel

theorem cantChange_le (f g : BitVec 8) (h : level f = SLC_VARIABLE) (hle : level f ≤ level g) :
    SLC_CANTCHANGE ≤ level g := by
  rw [h] at hle
  exact BitVec.le_trans (by decide) hle

variable {f : Slcfun}

/-- What telnetd does with a triplet. -/
inductive Verdict (f : Slcfun) (t : Triplet) : Slcfun × Option Triplet → Prop where
  | ignored (h : acked t.flags = true ∨ level t.flags = level f.current.flag ∧
      t.value = f.current.val) : Verdict f t (f, none)
  | answered (u : Slcfun) (m : Triplet) (hack : acked t.flags = false) (htells : Tells m u)
      (hsound : u.Sound) (hok : ∀ my, level t.flags ≤ level my → Acceptable my m) :
      Verdict f t (u, some m)

theorem changeSlc_verdict (hf : f.Sound) (hack : acked t.flags = false) :
    Verdict f t (f.changeSlc t.flags t.value) := by
  have hlevel : t.flags &&& SLC_LEVELBITS = level t.flags := rfl
  have hmylevel : f.defset.flag &&& SLC_LEVELBITS = level f.defset.flag := rfl
  rw [Slcfun.changeSlc, hlevel, hmylevel]
  dsimp only
  by_cases hnos : level t.flags = SLC_NOSUPPORT
  · rw [if_pos hnos]
    refine .answered _ _ hack ⟨level_or_ack _, Or.inl ((level_or_ack _).trans hnos)⟩
      ⟨hf.changeable, fun h => ⟨(hf.unsupported h).1, hnos⟩⟩ (fun my _ => ⟨?_, ?_⟩)
    · show level (t.flags ||| SLC_ACK) ≤ level my
      rw [level_or_ack, hnos]
      exact noSupport_le my
    · show level (t.flags ||| SLC_ACK) ≠ SLC_DEFAULT
      rw [level_or_ack, hnos]
      decide
  rw [if_neg hnos]
  by_cases hdefault : level t.flags = SLC_DEFAULT
  · rw [if_pos hdefault]
    refine .answered _ _ hack ⟨rfl, Or.inr rfl⟩ ⟨hf.changeable, fun h => ⟨(hf.unsupported h).1, ?_⟩⟩
      (fun my hle => ?_)
    · dsimp only
      split
      · rfl
      · exact h
    · -- Only a client whose own level is the default asks for it.
      rw [hdefault] at hle
      dsimp only [Acceptable]
      split
      · exact ⟨noSupport_le my, by decide⟩
      · rename_i hmydefault
        exact ⟨BitVec.le_trans (level_le_default _) hle, hmydefault⟩
  rw [if_neg hdefault]
  -- The request itself is what is agreed upon.
  have hgranted : ∀ u : Slcfun, u.current = ⟨t.flags, t.value⟩ → u.Sound →
      Verdict f t (u, some ⟨t.flags ||| SLC_ACK, t.value⟩) := by
    intro u hu hsound
    refine .answered _ _ hack ⟨?_, Or.inr ?_⟩ hsound (fun my hle => ⟨?_, ?_⟩)
    · rw [hu]
      exact level_or_ack _
    · rw [hu]
    · exact (level_or_ack t.flags).symm ▸ hle
    · exact (level_or_ack t.flags).symm ▸ hdefault
  cases hsptr : f.sptr with
  | some c =>
    refine hgranted _ rfl ⟨fun _ => Option.some_ne_none _, fun h => ?_⟩
    rw [(hf.unsupported h).1] at hsptr
    cases hsptr
  | none =>
    dsimp only
    by_cases hmydefault : level f.defset.flag = SLC_DEFAULT
    · rw [if_pos hmydefault]
      refine hgranted _ rfl ⟨fun h => ?_, fun h => ?_⟩
      · rw [hmydefault] at h
        exact absurd h (by decide)
      · rw [hmydefault] at h
        exact absurd h (by decide)
    rw [if_neg hmydefault]
    have hvariable : level f.defset.flag ≠ SLC_VARIABLE := fun h => hf.changeable h hsptr
    by_cases hboth : level t.flags = SLC_CANTCHANGE ∧ level f.defset.flag = SLC_CANTCHANGE
    · rw [if_pos hboth]
      have hreplaced := (level_replaced t.flags).1
      refine .answered _ _ hack ⟨rfl, Or.inl hreplaced⟩ ⟨fun h => absurd h hvariable,
        fun _ => ⟨rfl, hreplaced⟩⟩ (fun my _ => ⟨?_, ?_⟩)
      · exact hreplaced.symm ▸ noSupport_le my
      · exact hreplaced.symm ▸ (by decide)
    rw [if_neg hboth]
    by_cases hcant : level f.defset.flag = SLC_CANTCHANGE
    · have hreplaced := (level_replaced t.flags).2
      have hasked : level t.flags = SLC_VARIABLE := by
        rcases level_cases t.flags with h | h | h | h
        · exact absurd h hnos
        · exact absurd ⟨h, hcant⟩ hboth
        · exact h
        · exact absurd h hdefault
      rw [if_pos hcant, hcant]
      refine .answered _ _ hack ⟨rfl, Or.inr rfl⟩ ⟨fun h => absurd h hvariable, fun h => ?_⟩
        (fun my hle => ⟨?_, ?_⟩)
      · rw [hcant] at h
        exact absurd h (by decide)
      · exact hreplaced.symm ▸ cantChange_le t.flags my hasked hle
      · exact hreplaced.symm ▸ (by decide)
    · have hnone : level f.defset.flag = SLC_NOSUPPORT := by
        rcases level_cases f.defset.flag with h | h | h | h
        · exact h
        · exact absurd h hcant
        · exact absurd h hvariable
        · exact absurd h hmydefault
      have hreplaced := (level_replaced t.flags).1
      rw [if_neg hcant, hnone]
      refine .answered _ _ hack ⟨rfl, Or.inl hreplaced⟩ ⟨fun h => absurd h hvariable,
        fun _ => ⟨rfl, hreplaced⟩⟩ (fun my _ => ⟨?_, ?_⟩)
      · exact hreplaced.symm ▸ noSupport_le my
      · exact hreplaced.symm ▸ (by decide)

theorem processSlc_verdict (hf : f.Sound) : Verdict f t (f.processSlc t.flags t.value) := by
  have hlevel : t.flags &&& SLC_LEVELBITS = level t.flags := rfl
  have hmylevel : f.current.flag &&& SLC_LEVELBITS = level f.current.flag := rfl
  rw [Slcfun.processSlc, hlevel, hmylevel]
  by_cases hack : acked t.flags = true
  · have hignored : Verdict f t (f, none) := .ignored (Or.inl hack)
    rw [if_pos hack]
    split
    · exact hignored
    · exact hignored
  · rw [if_neg hack]
    split
    · rename_i hsame
      exact .ignored (Or.inr ⟨hsame.1, hsame.2.resolve_right hack⟩)
    · exact changeSlc_verdict hf (Bool.eq_false_iff.mpr hack)

theorem defaultSlc_sound (hf : f.Sound) : f.defaultSlc.Sound where
  changeable h := by
    have hsptr := hf.changeable h
    rw [Slcfun.defaultSlc]
    dsimp only
    exact fun hnone => hsptr (Option.map_eq_none_iff.mp hnone)
  unsupported h := by
    obtain ⟨hsptr, -⟩ := hf.unsupported h
    constructor
    · rw [Slcfun.defaultSlc, hsptr]
      rfl
    · rw [Slcfun.defaultSlc]
      dsimp only
      split
      · rfl
      · exact h

theorem sendSlc_tells {m : Triplet} (h : f.sendSlc = some m) : Tells m f := by
  rw [Slcfun.sendSlc] at h
  split at h
  · cases h
  · cases h
    exact ⟨rfl, Or.inr rfl⟩

theorem sendSlc_none (hf : f.Sound) (h : f.sendSlc = none) :
    level f.current.flag = SLC_NOSUPPORT ∧ level f.defset.flag = SLC_NOSUPPORT := by
  rw [Slcfun.sendSlc] at h
  split at h
  · rename_i hdefset
    exact ⟨(hf.unsupported hdefset).2, hdefset⟩
  · cases h

theorem processAll_cases (flag : BitVec 8) (f : Slcfun) :
    f.processAll flag = (f, none) ∨ f.processAll flag = (f, f.sendSlc) ∨
      f.processAll flag = (f.defaultSlc, f.defaultSlc.sendSlc) := by
  rw [Slcfun.processAll]
  split
  · exact Or.inr (Or.inr rfl)
  · split
    · exact Or.inr (Or.inl rfl)
    · exact Or.inl rfl

theorem SameSetting.refl (flags : BitVec 8) (val : UInt8) : SameSetting flags val flags val :=
  ⟨rfl, Or.inr rfl⟩

theorem process_none (hf : f.Sound) {r : Request} (h : (f.process r).2 = none) :
    SameSetting f.current.flag f.current.val (f.process r).1.current.flag
      (f.process r).1.current.val := by
  cases r with
  | triplet t =>
    have hverdict : Verdict f t (f.process (.triplet t)) := processSlc_verdict hf
    generalize f.process (.triplet t) = result at h hverdict
    cases hverdict with
    | ignored _ => exact .refl _ _
    | answered u m => cases h
  | all flag =>
    rw [Slcfun.process] at h ⊢
    rcases processAll_cases flag f with hall | hall | hall
    · rw [hall]
      exact .refl _ _
    · rw [hall]
      exact .refl _ _
    · rw [hall] at h ⊢
      obtain ⟨hlevel, hdefset⟩ := sendSlc_none (defaultSlc_sound hf) h
      have hold := (hf.unsupported hdefset).2
      exact ⟨hold.trans hlevel.symm, Or.inl hold⟩

theorem process_sound (hf : f.Sound) (r : Request) : (f.process r).1.Sound := by
  cases r with
  | triplet t =>
    have hverdict : Verdict f t (f.process (.triplet t)) := processSlc_verdict hf
    generalize f.process (.triplet t) = result at hverdict
    cases hverdict with
    | ignored _ => exact hf
    | answered u m _ _ hsound => exact hsound
  | all flag =>
    rw [Slcfun.process]
    rcases processAll_cases flag f with hall | hall | hall
    · rw [hall]
      exact hf
    · rw [hall]
      exact hf
    · rw [hall]
      exact defaultSlc_sound hf

theorem process_tells (hf : f.Sound) {r : Request} {m : Triplet} (h : (f.process r).2 = some m) :
    Tells m (f.process r).1 := by
  cases r with
  | triplet t =>
    have hverdict : Verdict f t (f.process (.triplet t)) := processSlc_verdict hf
    generalize f.process (.triplet t) = result at h hverdict
    cases hverdict with
    | ignored _ => cases h
    | answered u m' _ htells =>
      cases h
      exact htells
  | all flag =>
    rw [Slcfun.process] at h ⊢
    rcases processAll_cases flag f with hall | hall | hall
    · rw [hall] at h
      cases h
    · rw [hall] at h ⊢
      exact sendSlc_tells h
    · rw [hall] at h ⊢
      exact sendSlc_tells h

/-! ## The exchange -/

/-- The client and telnetd have the same level, and the same value unless it means nothing. -/
def Agree (s : Spc) (f : Slcfun) : Prop :=
  SameSetting s.flags s.val f.current.flag f.current.val

/-- The request has the setting of the client and is no acknowledgement. -/
def Shows (r : Request) (s : Spc) : Prop :=
  ∃ flags, r = .triplet ⟨flags, s.val⟩ ∧ acked flags = false ∧ level flags = level s.flags

/-- A client whose own level is `my` could have sent the request. -/
def Fits (my : BitVec 8) : Request → Prop
  | .triplet t => acked t.flags = true ∨ level t.flags ≤ level my
  | .all _ => True

def weightRequest : Request → Nat
  | .triplet t => if acked t.flags then 1 else 3
  | .all _ => 5

def weightTriplet (my : BitVec 8) (t : Triplet) : Nat := if Acceptable my t then 2 else 4

theorem Tells.congr {m : Triplet} {g : Slcfun} (h : Tells m f)
    (hsame : SameSetting f.current.flag f.current.val g.current.flag g.current.val) :
    Tells m g := by
  obtain ⟨hlevel, hval⟩ := h
  refine ⟨hlevel.trans hsame.1, ?_⟩
  rcases hval with hnone | hval
  · exact Or.inl hnone
  · rcases hsame.2 with hnone | heq
    · exact Or.inl (hlevel.trans hnone)
    · exact Or.inr (hval.trans heq)

theorem SameSetting.trans {a b c : BitVec 8} {x y z : UInt8} (h : SameSetting a x b y)
    (h' : SameSetting b y c z) : SameSetting a x c z := by
  refine ⟨h.1.trans h'.1, ?_⟩
  rcases h.2 with hnone | heq
  · exact Or.inl hnone
  · rcases h'.2 with hnone | heq'
    · exact Or.inl (h.1.trans hnone)
    · exact Or.inr (heq.trans heq')

theorem silent_shows {s : Spc} (hf : f.Sound) {r : Request} (hnone : (f.process r).2 = none)
    (hshows : Shows r s) : Agree s (f.process r).1 := by
  obtain ⟨flags, rfl, hack, hlevel⟩ := hshows
  have hverdict : Verdict f ⟨flags, s.val⟩ (f.process (.triplet ⟨flags, s.val⟩)) :=
    processSlc_verdict hf
  generalize f.process (.triplet ⟨flags, s.val⟩) = result at hnone hverdict
  cases hverdict with
  | ignored h =>
    rcases h with hacked | ⟨hsame, hval⟩
    · exact absurd (hack.symm.trans hacked) Bool.false_ne_true
    · exact ⟨hlevel.symm.trans hsame, Or.inr hval⟩
  | answered u m => cases hnone

theorem followed {s : Spc} (hs : s.Proper my) (htells : Tells t f) :
    Agree (s.suboption t).1 f ∨
      ∃ r, (s.suboption t).2.map Request.triplet = some r ∧ Shows r (s.suboption t).1 := by
  have hreaction := (@suboption_reaction my s t hs).1
  generalize s.suboption t = result at hreaction
  have htaken : ∀ u : Spc, u.val = t.value → level u.flags = level t.flags → Agree u f := by
    intro u hval hlevel
    refine ⟨hlevel.trans htells.1, htells.2.imp (fun h => hlevel.trans h) (fun h => ?_)⟩
    rw [hval]
    exact h
  cases hreaction with
  | silent u hval hlevel => exact Or.inl (htaken u hval hlevel)
  | acknowledged u flags hval hlevel => exact Or.inl (htaken u hval hlevel)
  | refused u flags hlevel _ hack => exact Or.inr ⟨_, rfl, flags, rfl, hack, hlevel⟩

theorem suboption_request {s : Spc} (hs : s.Proper my) {r : Request}
    (h : (s.suboption t).2.map Request.triplet = some r) :
    Fits my r ∧ weightRequest r < weightTriplet my t := by
  obtain ⟨hreaction, hproper⟩ := @suboption_reaction my s t hs
  generalize s.suboption t = result at h hreaction hproper
  cases hreaction with
  | silent u => cases h
  | acknowledged u flags _ _ hok hack =>
    cases h
    refine ⟨Or.inl hack, ?_⟩
    rw [weightRequest, if_pos hack, weightTriplet, if_pos hok]
    decide
  | refused u flags hlevel hok hack =>
    cases h
    refine ⟨Or.inr (hlevel.symm ▸ hproper.supported), ?_⟩
    rw [weightRequest, hack, weightTriplet, if_neg hok]
    decide

theorem process_weight (hf : f.Sound) {r : Request} {m : Triplet} (hr : Fits my r)
    (h : (f.process r).2 = some m) : weightTriplet my m < weightRequest r := by
  cases r with
  | triplet t =>
    have hverdict : Verdict f t (f.process (.triplet t)) := processSlc_verdict hf
    generalize f.process (.triplet t) = result at h hverdict
    cases hverdict with
    | ignored _ => cases h
    | answered u m' hack _ _ hok =>
      cases h
      rcases hr with hacked | hle
      · exact absurd (hack.symm.trans hacked) Bool.false_ne_true
      · rw [weightTriplet, if_pos (hok my hle), weightRequest, hack]
        decide
  | all flag =>
    rw [weightTriplet, weightRequest]
    split
    · decide
    · decide

/-- The client, whose own level is `my`, follows telnetd. -/
def slcExchange (my : BitVec 8) : Exchange Spc Slcfun Request Triplet where
  follow s t := ((s.suboption t).1, (s.suboption t).2.map Request.triplet)
  decide f r := f.process r
  Agree := Agree
  Shows := Shows
  Tells := Tells
  Proper := Spc.Proper my
  Sound := Slcfun.Sound
  Fits := Fits my
  weightRequest := weightRequest
  weightNotice := weightTriplet my
  tells _ _ _ hf h := process_tells hf h
  silent_shows _ _ _ hf hnone hshows := silent_shows hf hnone hshows
  silent_agree _ _ _ hf hnone hagree := hagree.trans (process_none hf hnone)
  silent_tells _ _ _ hf hnone htells := htells.congr (process_none hf hnone)
  followed _ _ _ hs htells := followed hs htells
  proper _ _ hs := (suboption_reaction hs).2
  sound _ r hf := process_sound hf r
  fits _ _ _ hs h := (suboption_request hs h).1
  notice_lt _ _ _ hf hr h := process_weight hf hr h
  request_lt _ _ _ hs h := (suboption_request hs h).2
  notice_pos t := by
    rw [weightTriplet]
    split
    · decide
    · decide
  request_pos r := by
    cases r with
    | triplet t =>
      rw [weightRequest]
      split
      · decide
      · decide
    | all flag => exact Nat.succ_pos 4

/-! ## Local changes -/

abbrev Link := Following Spc Slcfun Request Triplet

inductive LinkEvent where
  /-- The user sets the character that `valp` points to. -/
  | set (c : UInt8)
  | slcCheck
  /-- With the character that `TerminalDefaultChars` restores. -/
  | slcExport (dflt : UInt8)
  /-- `slc_import(def)`. -/
  | slcImport (dflt : Bool)
  /-- A program sets the character that `sptr` points to. -/
  | stty (c : UInt8)
  | checkSlc
  | sendSlc
  | deliver (d : Delivery)

def linkStep (my : BitVec 8) (l : Link) : LinkEvent → Option Link
  | .set c => some { l with follower := { l.follower with valp := l.follower.valp.map fun _ => c } }
  | .slcCheck =>
    some { l with
      follower := l.follower.slcCheck.1
      requests := l.requests ++ (l.follower.slcCheck.2.map Request.triplet).toList }
  | .slcExport dflt =>
    some { l with
      follower := (l.follower.slcExport dflt).1
      requests := l.requests ++ ((l.follower.slcExport dflt).2.map Request.triplet).toList }
  | .slcImport dflt =>
    some { l with
      requests := l.requests ++ [.all (if dflt then SLC_DEFAULT else SLC_VARIABLE)] }
  | .stty c => some { l with authority := { l.authority with sptr := l.authority.sptr.map fun _ => c } }
  | .checkSlc =>
    some { l with
      authority := l.authority.checkSlc.1
      notices := l.notices ++ l.authority.checkSlc.2.toList }
  | .sendSlc => some { l with notices := l.notices ++ l.authority.sendSlc.toList }
  | .deliver d => (slcExchange my).deliver l d

def Link.start (my : BitVec 8) (val : UInt8) (valp : Option UInt8) (defset : Slcent)
    (sptr : Option UInt8) : Link where
  follower := ⟨val, valp, SLC_NOSUPPORT, my⟩
  authority := ⟨defset, ⟨SLC_NOSUPPORT, 0⟩, sptr⟩
  requests := []
  notices := []

/-- The kinds of support: the client's own level has no acknowledgement in it, and telnetd has a
place for a character that it can change, and none for one that it does not support. -/
structure Kinds (my : BitVec 8) (defset : Slcent) (sptr : Option UInt8) : Prop where
  unacked : acked my = false
  changeable : level defset.flag = SLC_VARIABLE → sptr ≠ none
  unsupported : level defset.flag = SLC_NOSUPPORT → sptr = none

/-! ## What every event keeps -/

variable {l l' : Link}

theorem level_noSupport : level SLC_NOSUPPORT = SLC_NOSUPPORT := by decide

theorem acked_noSupport : acked SLC_NOSUPPORT = false := by decide

theorem start_settling {val : UInt8} {valp sptr : Option UInt8} {defset : Slcent}
    (h : Kinds my defset sptr) :
    (slcExchange my).Settling (Link.start my val valp defset sptr) where
  proper := ⟨rfl, h.unacked, acked_noSupport, noSupport_le my⟩
  sound := ⟨h.changeable, fun hnone => ⟨h.unsupported hnone, level_noSupport⟩⟩
  fits r hr := absurd hr List.not_mem_nil
  told m hm := by cases hm
  shown _ := Or.inl ⟨rfl, Or.inl level_noSupport⟩

theorem Spc.Proper.offered {s : Spc} (hs : s.Proper my) (c : UInt8) :
    acked (if c = POSIX_VDISABLE then SLC_NOSUPPORT else s.mylevel) = false ∧
      level (if c = POSIX_VDISABLE then SLC_NOSUPPORT else s.mylevel) ≤ level my := by
  rw [hs.mylevel]
  split
  · exact ⟨by decide, noSupport_le my⟩
  · exact ⟨hs.unacked, BitVec.le_refl _⟩

theorem settling_slcCheck (h : (slcExchange my).Settling l) :
    (slcExchange my).Settling { l with
      follower := l.follower.slcCheck.1
      requests := l.requests ++ (l.follower.slcCheck.2.map Request.triplet).toList } := by
  have hs : l.follower.Proper my := h.proper
  have hsame := h.unchanged hs (fun r hr => absurd hr (@List.not_mem_nil Request r)) id
    (fun _ hshows => hshows)
  rw [Spc.slcCheck]
  split
  · exact hsame
  · rename_i c _
    split
    · have hnew := hs.offered c
      exact h.follower ⟨hs.mylevel, hs.unacked, hnew.1, hnew.2⟩ (Or.inr hnew.2)
        ⟨_, rfl, hnew.1, rfl⟩
    · exact hsame

theorem settling_slcExport (h : (slcExchange my).Settling l) (dflt : UInt8) :
    (slcExchange my).Settling { l with
      follower := (l.follower.slcExport dflt).1
      requests := l.requests ++
        ((l.follower.slcExport dflt).2.map Request.triplet).toList } := by
  have hs : l.follower.Proper my := h.proper
  rw [Spc.slcExport]
  dsimp only
  split
  · have hnew := hs.offered l.follower.val
    rw [slcUpdate_of_not_acked hnew.1]
    exact h.follower ⟨hs.mylevel, hs.unacked, hnew.1, hnew.2⟩ (Or.inr hnew.2)
      ⟨_, rfl, hnew.1, rfl⟩
  · have hupdate := @slcUpdate_of_not_acked
      { l.follower with valp := l.follower.valp.map fun _ => dflt } hs.settled
    rw [hupdate]
    exact h.unchanged ⟨hs.mylevel, hs.unacked, hs.settled, hs.supported⟩
      (fun r hr => absurd hr (@List.not_mem_nil Request r)) id (fun _ hshows => hshows)

theorem settling_checkSlc (h : (slcExchange my).Settling l) :
    (slcExchange my).Settling { l with
      authority := l.authority.checkSlc.1
      notices := l.notices ++ l.authority.checkSlc.2.toList } := by
  have hf : l.authority.Sound := h.sound
  have hsame : (slcExchange my).Settling { l with notices := l.notices ++ [] } := by
    rw [List.append_nil]
    exact h
  rw [Slcfun.checkSlc]
  split
  · exact hsame
  · rename_i c hsptr
    split
    · refine h.authority ⟨hf.changeable, fun hnone => ?_⟩ ⟨rfl, Or.inr rfl⟩
      rw [(hf.unsupported hnone).1] at hsptr
      cases hsptr
    · exact hsame

theorem settling_sendSlc (h : (slcExchange my).Settling l) :
    (slcExchange my).Settling
      { l with notices := l.notices ++ l.authority.sendSlc.toList } := by
  cases hsend : l.authority.sendSlc with
  | none =>
    rw [Option.toList_none, List.append_nil]
    exact h
  | some m => exact h.authority h.sound (sendSlc_tells hsend)

theorem settling_stty (h : (slcExchange my).Settling l) (c : UInt8) :
    (slcExchange my).Settling
      { l with authority := { l.authority with sptr := l.authority.sptr.map fun _ => c } } := by
  have hf : l.authority.Sound := h.sound
  refine h.kept ⟨fun hvariable => ?_, fun hnone => ⟨?_, (hf.unsupported hnone).2⟩⟩
    (fun _ hagree => hagree) (fun _ htells => htells)
  · exact fun hmap => hf.changeable hvariable (Option.map_eq_none_iff.mp hmap)
  · dsimp only
    rw [(hf.unsupported hnone).1]
    rfl

theorem linkStep_settling (h : (slcExchange my).Settling l) {e : LinkEvent}
    (hstep : linkStep my l e = some l') : (slcExchange my).Settling l' := by
  have hs : l.follower.Proper my := h.proper
  cases e with
  | set c =>
    cases hstep
    have hset := @Settling.unchanged _ _ _ _ (slcExchange my) l h
      { l.follower with valp := l.follower.valp.map fun _ => c } []
      ⟨hs.mylevel, hs.unacked, hs.settled, hs.supported⟩
      (fun r hr => absurd hr (@List.not_mem_nil Request r)) id (fun _ hshows => hshows)
    rw [List.append_nil] at hset
    exact hset
  | slcCheck =>
    cases hstep
    exact settling_slcCheck h
  | slcExport dflt =>
    cases hstep
    exact settling_slcExport h dflt
  | slcImport dflt =>
    cases hstep
    refine h.unchanged hs (fun r hr => ?_) id (fun _ hshows => hshows)
    rw [List.mem_singleton.mp hr]
    exact trivial
  | stty c =>
    cases hstep
    exact settling_stty h c
  | checkSlc =>
    cases hstep
    exact settling_checkSlc h
  | sendSlc =>
    cases hstep
    exact settling_sendSlc h
  | deliver d => exact h.deliver hstep

/-! ## Agreement -/

/-- After any local changes, imports and deliveries, no more triplets can be delivered than the
channels have weight, and when none is left, the client and telnetd agree. -/
theorem slc_agreement {val : UInt8} {valp sptr : Option UInt8} {defset : Slcent}
    (hkinds : Kinds my defset sptr) {es : List LinkEvent}
    (hrun : run (linkStep my) (Link.start my val valp defset sptr) es = some l) {ds : List Delivery}
    (hdeliver : run (slcExchange my).deliver l ds = some l') :
    ds.length ≤ (slcExchange my).weight l ∧
      ((∀ d, (slcExchange my).deliver l' d = none) →
        l'.requests = [] ∧ l'.notices = [] ∧ Agree l'.follower l'.authority) := by
  have hl := run_invariant (fun _ _ _ h hstep => linkStep_settling h hstep)
    (start_settling hkinds) hrun
  refine ⟨deliveries_le hl hdeliver, fun hstop => ?_⟩
  obtain ⟨hrequests, hnotices⟩ := quiet_of_stop hstop
  exact ⟨hrequests, hnotices, (hl.deliveries hdeliver).agree hstop⟩

/-- Both users change an interrupt character of 3 at the same time, while the client asks for the
characters of telnetd. -/
def crossingChanges : List LinkEvent :=
  [.slcExport 3, .deliver .request, .slcImport false, .set 24, .slcCheck, .deliver .request,
    .stty 127, .checkSlc]

def crossingDeliveries : List Delivery :=
  [.request, .notice, .notice, .notice, .notice, .request]

theorem kinds_changeable : Kinds SLC_VARIABLE ⟨SLC_VARIABLE, 3⟩ (some 3) where
  unacked := by decide
  changeable _ := Option.some_ne_none 3
  unsupported h := absurd h (by decide)

theorem slc_agreement_crossing :
    ∃ l l' : Link,
      run (linkStep SLC_VARIABLE)
          (Link.start SLC_VARIABLE 3 (some 3) ⟨SLC_VARIABLE, 3⟩ (some 3)) crossingChanges =
        some l ∧
      run (slcExchange SLC_VARIABLE).deliver l crossingDeliveries = some l' ∧
      l'.requests = [] ∧ l'.notices = [] ∧ Agree l'.follower l'.authority := by
  let l : Link :=
    ⟨⟨24, some 24, SLC_VARIABLE, SLC_VARIABLE⟩,
      ⟨⟨SLC_VARIABLE, 3⟩, ⟨SLC_VARIABLE, 127⟩, some 127⟩,
      [.triplet ⟨SLC_VARIABLE, 24⟩],
      [⟨SLC_VARIABLE ||| SLC_ACK, 3⟩, ⟨SLC_VARIABLE, 3⟩, ⟨SLC_VARIABLE, 127⟩]⟩
  let l' : Link :=
    ⟨⟨24, some 24, SLC_VARIABLE, SLC_VARIABLE⟩,
      ⟨⟨SLC_VARIABLE, 3⟩, ⟨SLC_VARIABLE, 24⟩, some 24⟩, [], []⟩
  have hrun : run (linkStep SLC_VARIABLE)
      (Link.start SLC_VARIABLE 3 (some 3) ⟨SLC_VARIABLE, 3⟩ (some 3)) crossingChanges =
        some l := by
    decide +kernel
  have hdeliver : run (slcExchange SLC_VARIABLE).deliver l crossingDeliveries = some l' := by
    decide +kernel
  have hstop : ∀ d, (slcExchange SLC_VARIABLE).deliver l' d = none := by
    intro d
    cases d with
    | request => rfl
    | notice => rfl
  have hagree := slc_agreement kinds_changeable hrun hdeliver
  exact ⟨l, l', hrun, hdeliver, hagree.2 hstop⟩

end Netkit.Telnet.Slc

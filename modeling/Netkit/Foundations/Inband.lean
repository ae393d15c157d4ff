import Mathlib.Data.List.Infix
import Netkit.Foundations.Loops

/-!
# Messages inside a stream of data

A sender writes data and, between any two elements of it, messages: a marker and a value of
fixed size behind it. The receiver takes the stream in blocks. In each block it looks for the
first message, takes it out, moves the rest up to where it began and looks again from the top.

No end of the marker is a beginning of it, so the data before a message cannot join with the
message to a false marker, and a message that was cut in two cannot lose its marker. What the
receiver is left with is the data, exactly when no block ends inside a message.
-/

namespace Netkit.Foundations

structure Signal (α δ : Type*) where
  marker : List α
  size : Nat
  encode : δ → List α
  decode : List α → δ
  marker_ne_nil : marker ≠ []
  unbordered : ∀ u v w, marker = u ++ v → marker = v ++ w → u = [] ∨ v = []
  length_encode : ∀ d, (encode d).length = size
  decode_encode : ∀ d, decode (encode d) = d

inductive Item (α δ : Type*) where
  | data (a : α)
  | message (d : δ)
  deriving DecidableEq

variable {α δ : Type*}

def texts : List (Item α δ) → List α
  | [] => []
  | .data a :: items => a :: texts items
  | .message _ :: items => texts items

def messages : List (Item α δ) → List δ
  | [] => []
  | .data _ :: items => messages items
  | .message d :: items => d :: messages items

theorem texts_append (items items' : List (Item α δ)) :
    texts (items ++ items') = texts items ++ texts items' := by
  induction items with
  | nil => rfl
  | cons i items ih =>
    cases i with
    | data a => exact congrArg (a :: ·) ih
    | message d => exact ih

theorem messages_append (items items' : List (Item α δ)) :
    messages (items ++ items') = messages items ++ messages items' := by
  induction items with
  | nil => rfl
  | cons i items ih =>
    cases i with
    | data a => exact ih
    | message d => exact congrArg (d :: ·) ih

theorem infix_texts_right {l : List α} {items₁ items₂ : List (Item α δ)}
    (h : l <:+: texts items₂) : l <:+: texts (items₁ ++ items₂) := by
  rw [texts_append]
  exact h.trans (List.suffix_append _ _).isInfix

namespace Signal

variable (c : Signal α δ)

def message (d : δ) : List α := c.marker ++ c.encode d

def wire : Item α δ → List α
  | .data a => [a]
  | .message d => c.message d

def wires (items : List (Item α δ)) : List α := items.flatMap c.wire

@[simp] theorem wires_cons_message (d : δ) (items : List (Item α δ)) :
    c.wires (.message d :: items) = c.message d ++ c.wires items := rfl

theorem wires_append (items items' : List (Item α δ)) :
    c.wires (items ++ items') = c.wires items ++ c.wires items' := List.flatMap_append

theorem length_message (d : δ) : (c.message d).length = c.marker.length + c.size := by
  rw [message, List.length_append, c.length_encode]

def Starts (l : List α) : Prop := c.marker <+: l ∧ c.marker.length + c.size ≤ l.length

def Beginning (l : List α) : Prop :=
  l.length < c.marker.length + c.size ∧ ∃ y, l <+: c.marker ++ y

def Whole (items : List (Item α δ)) (blocks : List (List α)) : Prop :=
  ∃ parts : List (List (Item α δ)), parts.flatten = items ∧ parts.map c.wires = blocks

/-! ## Markers -/

variable {c}

theorem not_starts {d rest x y : List α} (hd : ¬ c.marker <:+: d) (hrest : rest <+: c.marker ++ y)
    (hx : x ≠ []) (hsuffix : x <:+ d) : ¬ c.Starts (x ++ rest) := by
  rintro ⟨⟨t, ht⟩, -⟩
  rcases List.append_eq_append_iff.mp ht with ⟨v, hv, -⟩ | ⟨v, hv, hrest'⟩
  · exact hd (List.IsInfix.trans ⟨[], v, hv.symm⟩ hsuffix.isInfix)
  · have hvy : v <+: c.marker ++ y := (List.prefix_append v t).trans (hrest' ▸ hrest)
    have hle : v.length ≤ c.marker.length := by
      rw [hv, List.length_append]
      exact Nat.le_add_left _ _
    obtain ⟨w, hw⟩ := List.prefix_of_prefix_length_le hvy (List.prefix_append _ _) hle
    rcases c.unbordered x v w hv hw.symm with rfl | rfl
    · exact hx rfl
    · rw [List.append_nil] at hv
      exact hd (hv ▸ hsuffix.isInfix)

theorem beginning_nil : c.Beginning [] :=
  ⟨Nat.add_pos_left (List.length_pos_of_ne_nil c.marker_ne_nil) _, [], List.nil_prefix⟩

theorem beginning_of_message {d : δ} {l z : List α} (h : c.message d = l ++ z) (hz : z ≠ []) :
    c.Beginning l := by
  have hlength := congrArg List.length h
  have hpos := List.length_pos_of_ne_nil hz
  rw [length_message, List.length_append] at hlength
  exact ⟨by omega, c.encode d, z, h.symm⟩

theorem prefix_wires {b : List α} {items : List (Item α δ)} (h : b <+: c.wires items) :
    (∃ items₁ items₂, items = items₁ ++ items₂ ∧ b = c.wires items₁) ∨
      ∃ items₁ d items₂ l z, items = items₁ ++ .message d :: items₂ ∧ b = c.wires items₁ ++ l ∧
        c.message d = l ++ z ∧ l ≠ [] ∧ z ≠ [] := by
  induction items generalizing b with
  | nil => exact Or.inl ⟨[], [], rfl, List.prefix_nil.mp h⟩
  | cons i items ih =>
    rcases List.prefix_or_prefix_of_prefix h (List.prefix_append (c.wire i) (c.wires items)) with
      hb | ⟨b', rfl⟩
    · obtain ⟨z, hz⟩ := hb
      rcases eq_or_ne b [] with rfl | hb
      · exact Or.inl ⟨[], i :: items, rfl, rfl⟩
      rcases eq_or_ne z [] with rfl | hz'
      · rw [List.append_nil] at hz
        exact Or.inl ⟨[i], items, rfl, hz.trans (List.append_nil _).symm⟩
      cases i with
      | data a =>
        -- One element does not fall into two parts.
        have hlength := congrArg List.length hz
        have hb := List.length_pos_of_ne_nil hb
        have hz' := List.length_pos_of_ne_nil hz'
        rw [List.length_append, wire, List.length_singleton] at hlength
        omega
      | message d => exact Or.inr ⟨[], d, items, b, z, rfl, rfl, hz.symm, hb, hz'⟩
    · rcases ih ((List.prefix_append_right_inj (c.wire i)).mp h) with
        ⟨items₁, items₂, rfl, rfl⟩ | ⟨items₁, d, items₂, l, z, rfl, rfl, hcut⟩
      · exact Or.inl ⟨i :: items₁, items₂, rfl, rfl⟩
      · refine Or.inr ⟨i :: items₁, d, items₂, l, z, rfl, ?_, hcut⟩
        exact (List.append_assoc _ _ _).symm

/-! ## The receiver -/

variable (c) [DecidableEq α]

instance (l : List α) : Decidable (c.Starts l) := inferInstanceAs (Decidable (_ ∧ _))

def value (l : List α) : δ := c.decode ((l.drop c.marker.length).take c.size)

/-- The first message: what stands before it, its value, and what stands behind it. -/
def find : List α → Option (List α × δ × List α)
  | [] => none
  | a :: l =>
    if c.Starts (a :: l) then
      some ([], c.value (a :: l), (a :: l).drop (c.marker.length + c.size))
    else (find l).map (fun r => (a :: r.1, r.2))

def stripStep (s : List α × List δ) : Except (List α × List δ) (List α × List δ) :=
  match c.find s.1 with
  | none => .error s
  | some (before, d, behind) => .ok (before ++ behind, s.2 ++ [d])

def strip (l : List α) : List α × List δ :=
  outcome c.stripStep (fun s => s.1.length) ([], []) (l, [])

def received (blocks : List (List α)) : List α := blocks.flatMap (fun b => (c.strip b).1)

def signalled (blocks : List (List α)) : List δ := blocks.flatMap (fun b => (c.strip b).2)

/-! ## One block -/

variable {c}

theorem find_of_starts {l : List α} (h : c.Starts l) :
    c.find l = some ([], c.value l, l.drop (c.marker.length + c.size)) := by
  cases l with
  | nil => exact absurd (List.prefix_nil.mp h.1) c.marker_ne_nil
  | cons a l => rw [find, if_pos h]

theorem find_of_not_starts {a : α} {l : List α} (h : ¬ c.Starts (a :: l)) :
    c.find (a :: l) = (c.find l).map (fun r => (a :: r.1, r.2)) := by
  rw [find, if_neg h]

theorem find_message (d : δ) (l : List α) : c.find (c.message d ++ l) = some ([], d, l) := by
  have hstarts : c.Starts (c.message d ++ l) := by
    refine ⟨(List.prefix_append _ _).trans (List.prefix_append _ _), ?_⟩
    rw [List.length_append, length_message]
    exact Nat.le_add_right _ _
  have hvalue : c.value (c.message d ++ l) = d := by
    rw [value, message, List.append_assoc, List.drop_left, ← c.length_encode d, List.take_left,
      c.decode_encode]
  rw [find_of_starts hstarts, hvalue, ← c.length_message d, List.drop_left]

theorem find_append {d rest : List α} (h : ∀ x, x ≠ [] → x <:+ d → ¬ c.Starts (x ++ rest)) :
    c.find (d ++ rest) = (c.find rest).map (fun r => (d ++ r.1, r.2)) := by
  induction d with
  | nil =>
    rw [List.nil_append]
    exact Option.map_id'.symm
  | cons a d ih =>
    have htop : ¬ c.Starts (a :: (d ++ rest)) := h (a :: d) (List.cons_ne_nil a d) List.suffix_rfl
    have hrest := ih (fun x hx hsuffix => h x hx (hsuffix.trans (List.suffix_cons a d)))
    rw [List.cons_append, find_of_not_starts htop, hrest, Option.map_map]
    rfl

theorem find_eq_some {l before behind : List α} {d : δ} (h : c.find l = some (before, d, behind)) :
    ∃ x, l = before ++ x ∧ c.Starts x ∧ behind = x.drop (c.marker.length + c.size) := by
  induction l generalizing before with
  | nil => cases h
  | cons a l ih =>
    rw [find] at h
    split at h
    · cases h
      exact ⟨a :: l, rfl, ‹_›, rfl⟩
    · obtain ⟨⟨before', r⟩, hfind, heq⟩ := Option.map_eq_some_iff.mp h
      cases heq
      obtain ⟨x, rfl, hx⟩ := ih hfind
      exact ⟨x, rfl, hx⟩

theorem find_of_short {l : List α} (h : l.length < c.marker.length + c.size) : c.find l = none := by
  have hnone := @find_append α δ c _ l [] (fun x _ hsuffix hstarts => by
    have hx := hsuffix.length_le
    have hle := hstarts.2
    rw [List.append_nil] at hle
    omega)
  rw [List.append_nil] at hnone
  rw [hnone]
  rfl

theorem stripStep_decreases (s t : List α × List δ) (h : c.stripStep s = .ok t) :
    t.1.length < s.1.length := by
  rw [stripStep] at h
  split at h
  · cases h
  · rename_i hfind
    cases h
    obtain ⟨x, hx, hstarts, rfl⟩ := find_eq_some hfind
    have hpos := List.length_pos_of_ne_nil c.marker_ne_nil
    have hle := hstarts.2
    rw [hx, List.length_append, List.length_append, List.length_drop]
    omega

theorem find_before_message {d : List α} (hd : ¬ c.marker <:+: d) (m : δ) (l : List α) :
    c.find (d ++ (c.message m ++ l)) = some (d, m, l) := by
  have hfront : c.message m ++ l <+: c.marker ++ (c.encode m ++ l) := by
    rw [message, List.append_assoc]
  rw [find_append (fun x hx hsuffix => not_starts hd hfront hx hsuffix), find_message]
  exact congrArg (fun b => some (b, m, l)) (List.append_nil d)

theorem find_beginning {d l : List α} (hd : ¬ c.marker <:+: d) (hl : c.Beginning l) :
    c.find (d ++ l) = none := by
  obtain ⟨hlt, y, hfront⟩ := hl
  rw [find_append (fun x hx hsuffix => not_starts hd hfront hx hsuffix), find_of_short hlt,
    Option.map_none]

theorem strip_of_none {l : List α} (h : c.find l = none) : c.strip l = (l, []) := by
  have hstep : c.stripStep (l, []) = .error (l, []) := by rw [stripStep, h]
  exact outcome_error hstep

/-- The induction is on the items; the data of those that have been read is in `d`. -/
theorem outcome_wires {d l : List α} (hl : c.Beginning l) {items : List (Item α δ)}
    (hd : ¬ c.marker <:+: d ++ texts items) (values : List δ) :
    outcome c.stripStep (fun s => s.1.length) ([], []) (d ++ (c.wires items ++ l), values) =
      (d ++ (texts items ++ l), values ++ messages items) := by
  induction items generalizing d values with
  | nil =>
    have hd' : ¬ c.marker <:+: d := fun h => hd (h.trans (List.prefix_append _ _).isInfix)
    have hstep : c.stripStep (d ++ l, values) = .error (d ++ l, values) := by
      rw [stripStep, find_beginning hd' hl]
    rw [texts, messages, List.append_nil]
    exact outcome_error hstep
  | cons i items ih =>
    cases i with
    | data a =>
      rw [texts, List.append_cons] at hd
      have hrest := ih hd values
      rw [← List.append_cons, ← List.append_cons] at hrest
      exact hrest
    | message m =>
      have hd' : ¬ c.marker <:+: d := fun h => hd (h.trans (List.prefix_append _ _).isInfix)
      have hstep : c.stripStep (d ++ (c.message m ++ (c.wires items ++ l)), values) =
          .ok (d ++ (c.wires items ++ l), values ++ [m]) := by
        rw [stripStep, find_before_message hd']
      rw [wires_cons_message, texts, messages, List.append_assoc,
        outcome_ok stripStep_decreases hstep, ih hd, List.append_assoc, List.singleton_append]

theorem strip_wires {l : List α} (hl : c.Beginning l) {items : List (Item α δ)}
    (hd : ¬ c.marker <:+: texts items) :
    c.strip (c.wires items ++ l) = (texts items ++ l, messages items) :=
  @outcome_wires α δ c _ [] l hl items hd []

theorem strip_whole {items : List (Item α δ)} (hd : ¬ c.marker <:+: texts items) :
    c.strip (c.wires items) = (texts items, messages items) := by
  have h := strip_wires beginning_nil hd
  rw [List.append_nil, List.append_nil] at h
  exact h

/-! ## A message that was cut -/

theorem end_prefix_strip {u v l : List α} (hmarker : c.marker = u ++ v) (hu : u ≠ [])
    (hv : v <+: l) : v <+: (c.strip l).1 := by
  refine @outcome_invariant _ _ c.stripStep (fun s => s.1.length) _ (fun s => v <+: s.1)
    (fun o => v <+: o.1) stripStep_decreases ?_ ?_ (l, []) hv
  · intro s t hstep hv
    rw [stripStep] at hstep
    split at hstep
    · cases hstep
    · rename_i before d behind hfind
      cases hstep
      obtain ⟨x, hx, hstarts, -⟩ := find_eq_some hfind
      rw [hx] at hv
      by_cases hle : v.length ≤ before.length
      · exact (List.prefix_of_prefix_length_le hv (List.prefix_append _ _) hle).trans
          (List.prefix_append _ _)
      · -- A marker that began inside this one would have a beginning of it as its end.
        obtain ⟨v', rfl⟩ := List.prefix_of_prefix_length_le (List.prefix_append before x) hv
          (by omega)
        have hv' : v' <+: x := (List.prefix_append_right_inj before).mp hv
        have hlength := congrArg List.length hmarker
        simp only [List.length_append] at hlength hle
        obtain ⟨w, hw⟩ := List.prefix_of_prefix_length_le hv' hstarts.1 (by omega)
        rw [← List.append_assoc] at hmarker
        rcases c.unbordered (u ++ before) v' w hmarker hw.symm with h | rfl
        · exact absurd (List.append_eq_nil_iff.mp h).1 hu
        · simp at hle
  · intro s o hstep hv
    rw [stripStep] at hstep
    split at hstep
    · cases hstep
      exact hv
    · cases hstep

theorem end_prefix_received {blocks : List (List α)} {u v : List α} (hmarker : c.marker = u ++ v)
    (hu : u ≠ []) (hv : v <+: blocks.flatten) : v <+: c.received blocks := by
  induction blocks generalizing u v with
  | nil => exact hv
  | cons b blocks ih =>
    rw [List.flatten_cons] at hv
    rw [received, List.flatMap_cons]
    by_cases hle : v.length ≤ b.length
    · have hvb : v <+: b := List.prefix_of_prefix_length_le hv (List.prefix_append _ _) hle
      exact (end_prefix_strip hmarker hu hvb).trans (List.prefix_append _ _)
    · obtain ⟨v', rfl⟩ := List.prefix_of_prefix_length_le (List.prefix_append b _) hv (by omega)
      have hlength := congrArg List.length hmarker
      simp only [List.length_append] at hlength hle
      rw [strip_of_none (find_of_short (by omega))]
      refine (List.prefix_append_right_inj b).mpr ?_
      refine @ih (u ++ b) v' ?_ ?_ ((List.prefix_append_right_inj b).mp hv)
      · rw [hmarker, List.append_assoc]
      · exact fun h => hu (List.append_eq_nil_iff.mp h).1

theorem marker_prefix_received {l z t : List α} {d : δ} (h : c.message d = l ++ z) (hl : l ≠ [])
    {blocks : List (List α)} (hblocks : blocks.flatten = z ++ t) :
    c.marker <+: l ++ c.received blocks := by
  rcases List.append_eq_append_iff.mp h with ⟨v, hv, -⟩ | ⟨v, hv, hz⟩
  · rw [hv, List.append_assoc]
    exact List.prefix_append _ _
  · have hfront : v <+: blocks.flatten := by
      rw [hblocks, hz, List.append_assoc]
      exact List.prefix_append _ _
    rw [hv]
    exact (List.prefix_append_right_inj l).mpr (end_prefix_received hv hl hfront)

/-! ## All blocks -/

theorem whole_of_received {blocks : List (List α)} {items : List (Item α δ)}
    (hblocks : blocks.flatten = c.wires items) (hd : ¬ c.marker <:+: texts items)
    (h : c.received blocks = texts items) : c.Whole items blocks := by
  induction blocks generalizing items with
  | nil =>
    refine ⟨[], ?_, rfl⟩
    cases items with
    | nil => rfl
    | cons i items =>
      cases i with
      | data a => cases h
      | message d =>
        have hlength := congrArg List.length hblocks
        have hpos := List.length_pos_of_ne_nil c.marker_ne_nil
        rw [wires_cons_message, List.length_append, length_message] at hlength
        simp at hlength
        omega
  | cons b blocks ih =>
    rw [List.flatten_cons] at hblocks
    rcases prefix_wires ⟨_, hblocks⟩ with
      ⟨items₁, items₂, rfl, rfl⟩ | ⟨items₁, d, items₂, l, z, rfl, rfl, hcut, hl, hz⟩
    · rw [wires_append] at hblocks
      have hd₁ : ¬ c.marker <:+: texts items₁ := fun hinfix =>
        hd (texts_append items₁ items₂ ▸ hinfix.trans (List.prefix_append _ _).isInfix)
      rw [received, List.flatMap_cons, strip_whole hd₁, texts_append] at h
      obtain ⟨parts, rfl, rfl⟩ := ih (List.append_cancel_left hblocks)
        (fun hinfix => hd (infix_texts_right hinfix)) (List.append_cancel_left h)
      exact ⟨items₁ :: parts, rfl, rfl⟩
    · exfalso
      rw [wires_append, List.append_assoc, wires_cons_message, hcut, List.append_assoc] at hblocks
      have hrest := List.append_cancel_left (List.append_cancel_left hblocks)
      have hd₁ : ¬ c.marker <:+: texts items₁ := fun hinfix =>
        hd (texts_append items₁ _ ▸ hinfix.trans (List.prefix_append _ _).isInfix)
      rw [received, List.flatMap_cons, strip_wires (beginning_of_message hcut hz) hd₁,
        texts_append, List.append_assoc] at h
      have hall : l ++ c.received blocks = texts items₂ := List.append_cancel_left h
      have hmarker := marker_prefix_received hcut hl hrest
      rw [hall] at hmarker
      exact hd (infix_texts_right hmarker.isInfix)

theorem received_of_whole {blocks : List (List α)} {items : List (Item α δ)}
    (hd : ¬ c.marker <:+: texts items) (h : c.Whole items blocks) :
    c.received blocks = texts items ∧ c.signalled blocks = messages items := by
  obtain ⟨parts, rfl, rfl⟩ := h
  induction parts with
  | nil => exact ⟨rfl, rfl⟩
  | cons part parts ih =>
    rw [List.flatten_cons] at hd ⊢
    obtain ⟨hreceived, hsignalled⟩ := ih (fun hinfix => hd (infix_texts_right hinfix))
    have hd₁ : ¬ c.marker <:+: texts part := fun hinfix =>
      hd (texts_append part _ ▸ hinfix.trans (List.prefix_append _ _).isInfix)
    rw [received] at hreceived
    rw [signalled] at hsignalled
    rw [List.map_cons, received, signalled, List.flatMap_cons, List.flatMap_cons,
      strip_whole hd₁, hreceived, hsignalled, texts_append, messages_append]
    exact ⟨rfl, rfl⟩

theorem received_iff_whole {blocks : List (List α)} {items : List (Item α δ)}
    (hblocks : blocks.flatten = c.wires items) (hd : ¬ c.marker <:+: texts items) :
    c.received blocks = texts items ∧ c.signalled blocks = messages items ↔
      c.Whole items blocks :=
  ⟨fun h => whole_of_received hblocks hd h.1, received_of_whole hd⟩

end Signal

end Netkit.Foundations

import Mathlib.Data.List.Basic
import Mathlib.Order.Nat

/-!
# Two parties that take turns

A sender and a receiver that move in lockstep: the sender repeats its packet until the
acknowledgement of its number has come, the receiver waits for one number and repeats its last
acknowledgement. The network keeps, drops, repeats and reorders what is sent. Packets carry
their number modulo `M` only. They are recognised all the same, as long as none is delivered
`M` numbers late.

And a party of a conversation, which tells the other one things and waits for answers in between. It
keeps to a protocol if it tells only what the phase of the conversation lets it tell, and asks only
where an answer will come.
-/

namespace Netkit.Foundations

section StopAndWait

variable {D A : Type*} {s w m M : ℕ} {datas : List (ℕ × D)} {acks : List (ℕ × A)}

/-- The sender sends number `s` and the receiver waits for number `w`. What was ever sent is
no newer than that. -/
structure Lockstep (s w : ℕ) (datas : List (ℕ × D)) (acks : List (ℕ × A)) : Prop where
  behind : s ≤ w
  ahead : w ≤ s + 1
  datas : ∀ d ∈ datas, d.1 ≤ s
  acks : ∀ a ∈ acks, a.1 < w

/-- A packet with number `m` reaches a party that is at number `w` less than `M` numbers
late. -/
def InTime (M m w : ℕ) : Prop := w < m + M

theorem InTime.eq_of_mod (hlate : InTime M m w) (hle : m ≤ w) (hmod : m % M = w % M) :
    m = w := by
  have hsub : (w - m) % M = 0 := Nat.sub_mod_eq_zero_of_mod_eq hmod.symm
  have hlt : w - m < M := by
    unfold InTime at hlate
    omega
  rw [Nat.mod_eq_of_lt hlt] at hsub
  omega

theorem lockstep_start (h : s ≤ w) (h' : w ≤ s + 1) :
    Lockstep s w ([] : List (ℕ × D)) ([] : List (ℕ × A)) :=
  ⟨h, h', fun _ h => absurd h List.not_mem_nil, fun _ h => absurd h List.not_mem_nil⟩

theorem Lockstep.send (h : Lockstep s w datas acks) {new : List (ℕ × D)}
    (hnew : ∀ d ∈ new, d.1 = s) : Lockstep s w (datas ++ new) acks := by
  refine ⟨h.behind, h.ahead, fun d hd => ?_, h.acks⟩
  rcases List.mem_append.mp hd with hd | hd
  · exact h.datas d hd
  · exact (hnew d hd).le

theorem Lockstep.reply (h : Lockstep s w datas acks) {new : List (ℕ × A)}
    (hnew : ∀ a ∈ new, a.1 < w) : Lockstep s w datas (acks ++ new) := by
  refine ⟨h.behind, h.ahead, h.datas, fun a ha => ?_⟩
  rcases List.mem_append.mp ha with ha | ha
  · exact h.acks a ha
  · exact hnew a ha

theorem Lockstep.advance (h : Lockstep s w datas acks) (hlt : s < w) :
    Lockstep (s + 1) w datas acks := by
  refine ⟨hlt, h.ahead.trans (Nat.le_succ _), fun d hd => ?_, h.acks⟩
  exact (h.datas d hd).trans (Nat.le_succ s)

theorem Lockstep.accept (h : Lockstep s w datas acks) (heq : w = s) :
    Lockstep s (w + 1) datas acks := by
  refine ⟨by omega, by omega, h.datas, fun a ha => ?_⟩
  exact (h.acks a ha).trans (Nat.lt_succ_self w)

/-- An acknowledgement of the sender's number, modulo `M`, is for its packet: the receiver has
it. -/
theorem Lockstep.acked (h : Lockstep s w datas acks) {a : ℕ × A} (ha : a ∈ acks)
    (hlate : InTime M a.1 s) (hmod : a.1 % M = s % M) : a.1 = s ∧ w = s + 1 := by
  have hle := h.acks a ha
  have hahead := h.ahead
  have heq : a.1 = s := hlate.eq_of_mod (by omega) hmod
  exact ⟨heq, by omega⟩

/-- A packet with the number that the receiver waits for, modulo `M`, is the sender's newest. -/
theorem Lockstep.accepted (h : Lockstep s w datas acks) {d : ℕ × D} (hd : d ∈ datas)
    (hlate : InTime M d.1 w) (hmod : d.1 % M = w % M) : d.1 = w ∧ w = s := by
  have hle := h.datas d hd
  have hbehind := h.behind
  have heq : d.1 = w := hlate.eq_of_mod (by omega) hmod
  exact ⟨heq, by omega⟩

end StopAndWait

section Conversations

/-- A party of a conversation, with `ι` what it tells and `ρ` the answers. -/
inductive Program (ι ρ α : Type) where
  | done (a : α)
  | tell (i : ι) (next : Program ι ρ α)
  | ask (next : ρ → Program ι ρ α)

namespace Program

variable {ι ρ α β : Type}

def bind : Program ι ρ α → (α → Program ι ρ β) → Program ι ρ β
  | .done a, f => f a
  | .tell i next, f => .tell i (next.bind f)
  | .ask next, f => .ask (fun r => (next r).bind f)

instance : Monad (Program ι ρ) where
  pure := .done
  bind := bind

theorem bind_assoc {γ : Type} (p : Program ι ρ α) (f : α → Program ι ρ β) (g : β → Program ι ρ γ) :
    (p >>= f) >>= g = p >>= fun a => f a >>= g := by
  induction p with
  | done a => rfl
  | tell i next ih => exact congrArg (Program.tell i) ih
  | ask next ih => exact congrArg Program.ask (funext ih)

def say (i : ι) : Program ι ρ Unit := .tell i (.done ())

def hear : Program ι ρ ρ := .ask .done

end Program

/-- The phases of a conversation: what may be told, where an answer comes, and which. -/
structure Protocol (φ ι ρ : Type) where
  tells : φ → ι → Option φ
  asks : φ → Prop
  answers : φ → ρ → Option φ

variable {φ ι ρ α β : Type} {P : Protocol φ ι ρ}

/-- The program keeps to the protocol from a phase on, and `Q` holds of its result and of the
phase in which it ends. -/
def Follows (P : Protocol φ ι ρ) (Q : α → φ → Prop) : Program ι ρ α → φ → Prop
  | .done a, f => Q a f
  | .tell i next, f => ∃ g, P.tells f i = some g ∧ Follows P Q next g
  | .ask next, f => P.asks f ∧ ∀ r g, P.answers f r = some g → Follows P Q (next r) g

theorem follows_bind {Q : β → φ → Prop} {p : Program ι ρ α} {k : α → Program ι ρ β} {f : φ} :
    Follows P Q (p >>= k) f ↔ Follows P (fun a g => Follows P Q (k a) g) p f := by
  induction p generalizing f with
  | done a => exact Iff.rfl
  | tell i next ih =>
    constructor
    · rintro ⟨g, hg, hnext⟩
      exact ⟨g, hg, ih.mp hnext⟩
    · rintro ⟨g, hg, hnext⟩
      exact ⟨g, hg, ih.mpr hnext⟩
  | ask next ih =>
    constructor
    · rintro ⟨hasks, hnext⟩
      exact ⟨hasks, fun r g hg => (ih r).mp (hnext r g hg)⟩
    · rintro ⟨hasks, hnext⟩
      exact ⟨hasks, fun r g hg => (ih r).mpr (hnext r g hg)⟩

theorem Follows.mono {Q R : α → φ → Prop} (hQR : ∀ a f, Q a f → R a f) {p : Program ι ρ α} {f : φ}
    (h : Follows P Q p f) : Follows P R p f := by
  induction p generalizing f with
  | done a => exact hQR a f h
  | tell i next ih =>
    obtain ⟨g, hg, hnext⟩ := h
    exact ⟨g, hg, ih hnext⟩
  | ask next ih => exact ⟨h.1, fun r g hg => ih r (h.2 r g hg)⟩

theorem follows_say {Q : Unit → φ → Prop} {i : ι} {f g : φ} (hg : P.tells f i = some g)
    (hQ : Q () g) : Follows P Q (Program.say i) f := ⟨g, hg, hQ⟩

end Conversations

end Netkit.Foundations

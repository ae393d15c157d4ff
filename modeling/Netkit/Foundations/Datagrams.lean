import Mathlib.Data.List.Basic

/-!
# Requests and answers that may be lost

A client sends requests to a server and keeps the answers in a queue until it reads them. What is
on its way may be lost, or overtaken.
-/

namespace Netkit.Foundations

variable {α β σ ε : Type*}

structure Datagrams (α β : Type*) where
  requests : List α
  answers : List (α × β)
  queue : List (α × β)

/-- The request or the answer at some place. -/
inductive Transfer (ε : Type*) where
  | lose (i : ℕ)
  | serve (i : ℕ) (e : ε)
  | loseAnswer (i : ℕ)
  | arrive (i : ℕ)

namespace Datagrams

def empty : Datagrams α β := ⟨[], [], []⟩

def transfer (serve : ε → α → σ → σ × β) (t : σ) (n : Datagrams α β) :
    Transfer ε → Option (σ × Datagrams α β)
  | .lose i => n.requests[i]?.map fun _ => (t, { n with requests := n.requests.eraseIdx i })
  | .serve i e => n.requests[i]?.map fun a =>
    ((serve e a t).1, { n with
      requests := n.requests.eraseIdx i, answers := (a, (serve e a t).2) :: n.answers })
  | .loseAnswer i => n.answers[i]?.map fun _ => (t, { n with answers := n.answers.eraseIdx i })
  | .arrive i => n.answers[i]?.map fun p =>
    (t, { n with answers := n.answers.eraseIdx i, queue := n.queue ++ [p] })

def send (n : Datagrams α β) (a : α) : Datagrams α β := { n with requests := a :: n.requests }

def outstanding (n : Datagrams α β) : List α :=
  n.requests ++ n.answers.map Prod.fst ++ n.queue.map Prod.fst

structure All (P : α → Prop) (Q : α → β → Prop) (n : Datagrams α β) : Prop where
  requests : ∀ a ∈ n.requests, P a
  answers : ∀ p ∈ n.answers, P p.1 ∧ Q p.1 p.2
  queue : ∀ p ∈ n.queue, P p.1 ∧ Q p.1 p.2

variable {P P' : α → Prop} {Q Q' : α → β → Prop} {n m : Datagrams α β}

theorem all_empty : (empty : Datagrams α β).All P Q :=
  ⟨fun _ h => absurd h List.not_mem_nil, fun _ h => absurd h List.not_mem_nil,
    fun _ h => absurd h List.not_mem_nil⟩

theorem All.mono (h : n.All P Q) (hP : ∀ a, P a → P' a) : n.All P' Q :=
  ⟨fun a ha => hP a (h.requests a ha), fun p hp => ⟨hP p.1 (h.answers p hp).1, (h.answers p hp).2⟩,
    fun p hp => ⟨hP p.1 (h.queue p hp).1, (h.queue p hp).2⟩⟩

theorem All.send {a : α} (h : n.All P Q) (ha : P a) : (n.send a).All P Q := by
  refine ⟨fun b hb => ?_, h.answers, h.queue⟩
  rcases List.mem_cons.mp hb with rfl | hb
  · exact ha
  · exact h.requests b hb

theorem All.read {p : α × β} {rest : List (α × β)} (h : n.All P Q) (hqueue : n.queue = p :: rest) :
    ({ n with queue := rest } : Datagrams α β).All P Q :=
  ⟨h.requests, h.answers, fun q hq => h.queue q (hqueue ▸ List.mem_cons_of_mem p hq)⟩

theorem All.head {p : α × β} {rest : List (α × β)} (h : n.All P Q) (hqueue : n.queue = p :: rest) :
    P p.1 ∧ Q p.1 p.2 :=
  h.queue p (hqueue ▸ List.mem_cons_self)

theorem All.outstanding (h : n.All P Q) : ∀ a ∈ n.outstanding, P a := by
  intro a ha
  rcases List.mem_append.mp ha with ha | ha
  · rcases List.mem_append.mp ha with ha | ha
    · exact h.requests a ha
    · obtain ⟨p, hp, rfl⟩ := List.mem_map.mp ha
      exact (h.answers p hp).1
  · obtain ⟨p, hp, rfl⟩ := List.mem_map.mp ha
    exact (h.queue p hp).1

theorem all_of_outstanding (hP : ∀ a ∈ n.outstanding, P a) (h : n.All P' Q) : n.All P Q := by
  constructor
  · intro a ha
    exact hP a (List.mem_append_left _ (List.mem_append_left _ ha))
  · intro p hp
    refine ⟨hP p.1 ?_, (h.answers p hp).2⟩
    exact List.mem_append_left _ (List.mem_append_right _ (List.mem_map_of_mem hp))
  · intro p hp
    exact ⟨hP p.1 (List.mem_append_right _ (List.mem_map_of_mem hp)), (h.queue p hp).2⟩

theorem all_transfer {serve : ε → α → σ → σ × β} {t u : σ} {move : Transfer ε}
    (hserve : ∀ e a t, P a → Q a (serve e a t).2) (h : n.All P Q)
    (hmove : n.transfer serve t move = some (u, m)) : m.All P Q := by
  cases move with
  | lose i =>
    obtain ⟨a, -, heq⟩ := Option.map_eq_some_iff.mp hmove
    obtain ⟨-, rfl⟩ := Prod.mk.inj heq
    exact ⟨fun b hb => h.requests b (List.mem_of_mem_eraseIdx hb), h.answers, h.queue⟩
  | serve i e =>
    obtain ⟨a, ha, heq⟩ := Option.map_eq_some_iff.mp hmove
    obtain ⟨-, rfl⟩ := Prod.mk.inj heq
    have hPa := h.requests a (List.mem_of_getElem? ha)
    refine ⟨fun b hb => h.requests b (List.mem_of_mem_eraseIdx hb), fun p hp => ?_, h.queue⟩
    rcases List.mem_cons.mp hp with rfl | hp
    · exact ⟨hPa, hserve e a t hPa⟩
    · exact h.answers p hp
  | loseAnswer i =>
    obtain ⟨p, -, heq⟩ := Option.map_eq_some_iff.mp hmove
    obtain ⟨-, rfl⟩ := Prod.mk.inj heq
    exact ⟨h.requests, fun q hq => h.answers q (List.mem_of_mem_eraseIdx hq), h.queue⟩
  | arrive i =>
    obtain ⟨p, hp, heq⟩ := Option.map_eq_some_iff.mp hmove
    obtain ⟨-, rfl⟩ := Prod.mk.inj heq
    refine ⟨h.requests, fun q hq => h.answers q (List.mem_of_mem_eraseIdx hq), fun q hq => ?_⟩
    rcases List.mem_append.mp hq with hq | hq
    · exact h.queue q hq
    · rw [List.mem_singleton.mp hq]
      exact h.answers p (List.mem_of_getElem? hp)

theorem transfer_queue {serve : ε → α → σ → σ × β} {t u : σ} {move : Transfer ε}
    (hmove : n.transfer serve t move = some (u, m)) : n.queue <+: m.queue := by
  cases move with
  | lose i =>
    obtain ⟨a, -, heq⟩ := Option.map_eq_some_iff.mp hmove
    obtain ⟨-, rfl⟩ := Prod.mk.inj heq
    exact List.prefix_refl _
  | serve i e =>
    obtain ⟨a, -, heq⟩ := Option.map_eq_some_iff.mp hmove
    obtain ⟨-, rfl⟩ := Prod.mk.inj heq
    exact List.prefix_refl _
  | loseAnswer i =>
    obtain ⟨p, -, heq⟩ := Option.map_eq_some_iff.mp hmove
    obtain ⟨-, rfl⟩ := Prod.mk.inj heq
    exact List.prefix_refl _
  | arrive i =>
    obtain ⟨p, -, heq⟩ := Option.map_eq_some_iff.mp hmove
    obtain ⟨-, rfl⟩ := Prod.mk.inj heq
    exact List.prefix_append _ _

end Datagrams

end Netkit.Foundations

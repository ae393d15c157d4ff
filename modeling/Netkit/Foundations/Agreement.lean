import Netkit.Foundations.Runs
import Mathlib.Algebra.Group.Nat.Even

/-!
# Agreement on a two-valued setting by counted requests

Two peers share one setting, on or off. Each keeps the value last heard from the other
side (`state`), the value it wants (`want`) and the number of its own requests that are
still unanswered (`resp`). They talk over two FIFO channels that carry nothing but the
new value: a message does not say whether it is a request or the answer to one, so a peer
tells the two apart by its counter alone, and requests of both sides may cross.
-/

namespace Netkit.Foundations

/-! ## One peer -/

/-- One side of the negotiation. -/
@[ext] structure Peer where
  state : Bool
  want : Bool
  resp : Nat
  deriving DecidableEq

namespace Peer

/-- Ask for the value `new`: the message to send, if there is one. -/
def initiate (new : Bool) (p : Peer) : Peer × List Bool :=
  if (p.resp = 0 ∧ p.state = new) ∨ p.want = new then (p, [])
  else ({ p with want := new, resp := p.resp + 1 }, [new])

/-- The counter after hearing `new`. A message that repeats `state` while requests are
outstanding stands for two answers. -/
def settle (new : Bool) (p : Peer) : Nat :=
  if p.resp = 0 then 0
  else if p.resp - 1 ≠ 0 ∧ p.state = new then p.resp - 2 else p.resp - 1

/-- Hear the value `new`: the answer to send, if there is one. Turning the setting off is
only answered by a peer that had it on. -/
def receive (new : Bool) (p : Peer) : Peer × List Bool :=
  if settle new p = 0 ∧ p.want ≠ new then
    ({ state := new, want := new, resp := 0 }, if new || p.state then [new] else [])
  else ({ p with state := new, resp := settle new p }, [])

theorem initiate_of_ne {new : Bool} {p : Peer} (hw : p.want ≠ new)
    (heven : Even p.resp ↔ p.state = p.want) :
    p.initiate new = ({ p with want := new, resp := p.resp + 1 }, [new]) := by
  have h : ¬ (p.resp = 0 ∧ p.state = new) := by
    rintro ⟨h0, hs⟩
    exact hw ((heven.mp (h0 ▸ Even.zero)).symm.trans hs)
  simp [initiate, h, hw]

theorem initiate_of_eq {new : Bool} {p : Peer} (hw : p.want = new) :
    p.initiate new = (p, []) := by simp [initiate, hw]

/-- A value that differs from `state` never counts twice. -/
theorem settle_of_ne {new : Bool} {p : Peer} (hs : p.state ≠ new) :
    settle new p = p.resp - 1 := by
  unfold settle
  split
  · omega
  · simp [hs]

theorem receive_idle {new : Bool} {p : Peer} (hs : p.state ≠ new) (h0 : p.resp = 0)
    (heven : Even p.resp ↔ p.state = p.want) :
    p.receive new = ({ state := new, want := new, resp := 0 }, [new]) := by
  have hw : p.want = p.state := (heven.mp (h0 ▸ Even.zero)).symm
  have hr : (new || p.state) = true := by
    cases hn : new <;> cases hp : p.state <;> simp_all
  simp [receive, settle_of_ne hs, h0, hw, hs, hr]

theorem receive_answer {new : Bool} {p : Peer} (hs : p.state ≠ new) (h0 : p.resp ≠ 0)
    (heven : Even p.resp ↔ p.state = p.want) :
    p.receive new = ({ p with state := new, resp := p.resp - 1 }, []) := by
  have hlast : p.resp - 1 = 0 → p.want = new := by
    intro h1
    have h1' : p.resp = 1 := by omega
    have hne : p.state ≠ p.want := fun h => by
      have := heven.mpr h
      rw [h1'] at this
      exact absurd this (by decide)
    cases hn : new <;> cases hp : p.state <;> cases hq : p.want <;> simp_all
  have hno : ¬ (p.resp - 1 = 0 ∧ p.want ≠ new) := fun h => h.2 (hlast h.1)
  simp only [receive, settle_of_ne hs, hno, if_false]

end Peer

/-! ## Two peers and their channels -/

/-- The values waiting in a channel change each time, from `a` (what the receiver knows) to
`b` (what the sender said last). -/
def Alternates : Bool → List Bool → Bool → Prop
  | a, [], b => a = b
  | a, m :: ms, b => m ≠ a ∧ Alternates m ms b

theorem Alternates.append {a b new : Bool} {ms : List Bool} (h : Alternates a ms b)
    (hne : b ≠ new) : Alternates a (ms ++ [new]) new := by
  induction ms generalizing a with
  | nil =>
    have hab : a = b := h
    exact ⟨fun e => hne (hab.symm.trans e.symm), rfl⟩
  | cons m ms ih => exact ⟨h.1, ih h.2⟩

structure Pair where
  left : Peer
  right : Peer
  toLeft : List Bool
  toRight : List Bool

inductive Side where
  | left
  | right
  deriving DecidableEq

inductive PairEvent where
  | initiate (side : Side) (new : Bool)
  | deliver (side : Side)

namespace Pair

def swap (p : Pair) : Pair := ⟨p.right, p.left, p.toRight, p.toLeft⟩

def initiateLeft (new : Bool) (p : Pair) : Pair :=
  { p with left := (p.left.initiate new).1, toRight := p.toRight ++ (p.left.initiate new).2 }

def deliverLeft (p : Pair) : Option Pair :=
  match p.toLeft with
  | [] => none
  | m :: ms =>
    some { p with
      left := (p.left.receive m).1
      toLeft := ms
      toRight := p.toRight ++ (p.left.receive m).2 }

/-- One event. The right side does what the left side does, seen from the other end. -/
def step (p : Pair) : PairEvent → Option Pair
  | .initiate .left new => some (p.initiateLeft new)
  | .initiate .right new => some (p.swap.initiateLeft new).swap
  | .deliver .left => p.deliverLeft
  | .deliver .right => p.swap.deliverLeft.map swap

theorem step_deliver_left {p : Pair} {m : Bool} {ms : List Bool} (h : p.toLeft = m :: ms) :
    p.step (.deliver .left) = some
      { p with
        left := (p.left.receive m).1
        toLeft := ms
        toRight := p.toRight ++ (p.left.receive m).2 } := by
  simp only [step, deliverLeft, h]

theorem step_deliver_right {p : Pair} {m : Bool} {ms : List Bool} (h : p.toRight = m :: ms) :
    p.step (.deliver .right) = some
      { p with
        right := (p.right.receive m).1
        toRight := ms
        toLeft := p.toLeft ++ (p.right.receive m).2 } := by
  simp only [step, deliverLeft, swap, h, Option.map_some]

def inFlight (p : Pair) : Nat := p.toLeft.length + p.toRight.length

structure Inv (p : Pair) : Prop where
  toRight : Alternates p.right.state p.toRight p.left.want
  toLeft : Alternates p.left.state p.toLeft p.right.want
  count : p.left.resp + p.right.resp = p.inFlight
  evenLeft : Even p.left.resp ↔ p.left.state = p.left.want
  evenRight : Even p.right.resp ↔ p.right.state = p.right.want

theorem Inv.swap {p : Pair} (h : p.Inv) : p.swap.Inv where
  toRight := h.toLeft
  toLeft := h.toRight
  count := by
    have := h.count
    simp only [Pair.swap, inFlight] at *
    omega
  evenLeft := h.evenRight
  evenRight := h.evenLeft

theorem inv_initiateLeft {p : Pair} (h : p.Inv) (new : Bool) : (p.initiateLeft new).Inv := by
  by_cases hw : p.left.want = new
  · simpa [initiateLeft, Peer.initiate_of_eq hw] using h
  · have hi := Peer.initiate_of_ne hw h.evenLeft
    have hc := h.count
    refine ⟨?_, ?_, ?_, ?_, ?_⟩
    · simpa [initiateLeft, hi] using h.toRight.append hw
    · simpa [initiateLeft, hi] using h.toLeft
    · simp only [initiateLeft, hi, inFlight, List.length_append, List.length_singleton] at *
      omega
    · have hflip : (p.left.state = new) ↔ ¬ (p.left.state = p.left.want) := by
        cases hn : new <;> cases hs : p.left.state <;> cases hq : p.left.want <;> simp_all
      simp only [initiateLeft, hi, Nat.even_add_one, h.evenLeft, hflip]
    · simpa [initiateLeft] using h.evenRight

theorem inv_deliverLeft {p q : Pair} (h : p.Inv) (hq : p.deliverLeft = some q) : q.Inv := by
  unfold deliverLeft at hq
  split at hq
  · cases hq
  · rename_i m ms hm
    cases hq
    have halt := h.toLeft
    rw [hm] at halt
    have hne : p.left.state ≠ m := fun e => halt.1 e.symm
    have hc := h.count
    simp only [inFlight, hm, List.length_cons] at hc
    by_cases h0 : p.left.resp = 0
    · have hr := Peer.receive_idle hne h0 h.evenLeft
      have hsw : p.left.want ≠ m := fun e => hne ((h.evenLeft.mp (h0 ▸ Even.zero)).trans e)
      refine ⟨?_, ?_, ?_, ?_, ?_⟩
      · simpa [hr] using h.toRight.append hsw
      · simpa [hr] using halt.2
      · simp only [hr, inFlight, List.length_append, List.length_singleton]
        omega
      · simp [hr]
      · exact h.evenRight
    · have hr := Peer.receive_answer hne h0 h.evenLeft
      refine ⟨?_, ?_, ?_, ?_, ?_⟩
      · simpa [hr] using h.toRight
      · simpa [hr] using halt.2
      · simp only [hr, inFlight, List.append_nil]
        omega
      · obtain ⟨k, hk⟩ := Nat.exists_eq_succ_of_ne_zero h0
        have hev := h.evenLeft
        rw [hk, Nat.succ_eq_add_one, Nat.even_add_one] at hev
        have hflip : (m = p.left.want) ↔ ¬ (p.left.state = p.left.want) := by
          cases hn : m <;> cases hs : p.left.state <;> cases hq : p.left.want <;> simp_all
        simp only [hr, hk, Nat.succ_eq_add_one, Nat.add_sub_cancel]
        rw [hflip, ← hev, not_not]
      · exact h.evenRight

theorem inv_step {p q : Pair} {e : PairEvent} (h : p.Inv) (hq : p.step e = some q) : q.Inv := by
  cases e with
  | initiate side new =>
    cases side with
    | left => cases hq; exact inv_initiateLeft h new
    | right => cases hq; exact (inv_initiateLeft h.swap new).swap
  | deliver side =>
    cases side with
    | left => exact inv_deliverLeft h hq
    | right =>
      obtain ⟨r, hr, rfl⟩ := Option.map_eq_some_iff.mp hq
      exact (inv_deliverLeft h.swap hr).swap

/-! ## Agreement and termination -/

theorem agree {p : Pair} (h : p.Inv) (hl : p.toLeft = []) (hr : p.toRight = []) :
    p.left.resp = 0 ∧ p.right.resp = 0 ∧ p.left.state = p.left.want ∧
      p.right.state = p.right.want ∧ p.left.state = p.right.state := by
  have hc := h.count
  simp only [inFlight, hl, hr, List.length_nil] at hc
  have hl0 : p.left.resp = 0 := by omega
  have hr0 : p.right.resp = 0 := by omega
  have hls := h.evenLeft.mp (hl0 ▸ Even.zero)
  have hrs := h.evenRight.mp (hr0 ▸ Even.zero)
  have hcross : p.right.state = p.left.want := by simpa [hr, Alternates] using h.toRight
  exact ⟨hl0, hr0, hls, hrs, hls.trans hcross.symm⟩

/-- What a message still costs. A peer with a request outstanding swallows the message; a
peer without one answers, and then the other side has all the requests and swallows the
answer. -/
def cost (p : Pair) : Nat :=
  p.toRight.length * (if p.left.resp = 0 ∧ p.right.resp ≠ 0 then 1 else 2) +
    p.toLeft.length * (if p.right.resp = 0 ∧ p.left.resp ≠ 0 then 1 else 2)

theorem cost_swap (p : Pair) : p.swap.cost = p.cost := by
  simp only [cost, swap]
  exact Nat.add_comm _ _

theorem cost_le (p : Pair) : p.cost ≤ 2 * p.inFlight := by
  simp only [cost, inFlight]
  split <;> split <;> omega

theorem cost_deliverLeft {p q : Pair} (h : p.Inv) (hq : p.deliverLeft = some q) :
    q.cost < p.cost := by
  unfold deliverLeft at hq
  split at hq
  · cases hq
  · rename_i m ms hm
    cases hq
    have halt := h.toLeft
    rw [hm] at halt
    have hne : p.left.state ≠ m := fun e => halt.1 e.symm
    have hc := h.count
    simp only [inFlight, hm, List.length_cons] at hc
    by_cases h0 : p.left.resp = 0
    · have hr := Peer.receive_idle hne h0 h.evenLeft
      have hright : p.right.resp ≠ 0 := by omega
      simp only [cost, hr, hm, h0, hright, List.length_append, List.length_cons,
        List.length_nil, ne_eq, not_false_eq_true, not_true_eq_false, and_true, and_false,
        if_true, if_false]
      omega
    · have hr := Peer.receive_answer hne h0 h.evenLeft
      simp only [cost, hr, hm, List.append_nil, List.length_cons]
      split_ifs <;> omega

theorem cost_deliver {p q : Pair} {side : Side} (h : p.Inv)
    (hq : p.step (.deliver side) = some q) : q.cost < p.cost := by
  cases side with
  | left => exact cost_deliverLeft h hq
  | right =>
    obtain ⟨r, hr, rfl⟩ := Option.map_eq_some_iff.mp hq
    rw [cost_swap, ← cost_swap p]
    exact cost_deliverLeft h.swap hr

theorem deliveries_le {p q : Pair} (h : p.Inv) {sides : List Side}
    (hrun : run (fun p side => p.step (.deliver side)) p sides = some q) :
    sides.length ≤ 2 * p.inFlight := by
  suffices hlen : sides.length ≤ p.cost from Nat.le_trans hlen (cost_le p)
  induction sides generalizing p with
  | nil => exact Nat.zero_le _
  | cons side sides ih =>
    obtain ⟨r, hr, hrun⟩ := run_cons_eq_some.mp hrun
    have h1 := ih (inv_step h hr) hrun
    have h2 := cost_deliver h hr
    rw [List.length_cons]
    omega

end Pair

end Netkit.Foundations

import Netkit.Foundations.Rings

/-!
# Closed hashing with chains

A table whose slots are also the elements of its chains. Every key has a home, a slot. A ring of
links goes through the keys with the same home: its head is in that slot, and the others are in
slots that have been free. A second ring goes through all slots that are taken.
-/

namespace Netkit.Foundations

/-- What is in the slots of a table: the links of the chains and of the list, the keys, and whether
the slot is the head of a chain. -/
structure Slots (κ β : Type*) where
  chain : Cells κ Unit
  list : Cells κ Unit
  key : κ → β
  head : κ → Bool

variable {κ β : Type*} [DecidableEq κ] {home : β → Option κ} {S S' : Slots κ β}
  {z i j k r x y p n : κ} {a : β} {order order' xs ys : List κ}

namespace Slots

structure Same (S S' : Slots κ β) (q : κ) : Prop where
  chain : S.chain.Same S'.chain q
  list : S.list.Same S'.list q
  key : S'.key q = S.key q
  head : S'.head q = S.head q

/-- `i` is not a head, and has the home `k`. -/
def Member (home : β → Option κ) (S : Slots κ β) (order : List κ) (k i : κ) : Prop :=
  i ∈ order ∧ S.head i = false ∧ home (S.key i) = some k

/-- `xs` is the chain of the head `k`. -/
structure Chain (home : β → Option κ) (S : Slots κ β) (order : List κ) (k : κ) (xs : List κ) :
    Prop where
  ring : Ring S.chain k xs
  mem : ∀ i, i ∈ xs ↔ Member home S order k i

omit [DecidableEq κ] in
theorem Chain.congr {home' : β → Option κ} (h : Chain home S order k xs)
    (hsame : ∀ q ∈ k :: xs, S.chain.Same S'.chain q)
    (hmem : ∀ i, Member home' S' order' k i ↔ Member home S order k i) :
    Chain home' S' order' k xs :=
  ⟨h.ring.congr (fun q hq => (hsame q hq).forw) (fun q hq => (hsame q hq).back),
    fun i => (h.mem i).trans (hmem i).symm⟩

omit [DecidableEq κ] in
theorem Chain.apart (hj : Chain home S order j xs) (hk : Chain home S order k ys)
    (hheadj : S.head j = true) (hheadk : S.head k = true) (hjk : j ≠ k) :
    ∀ q ∈ j :: xs, q ∉ k :: ys := by
  have hother {k : κ} {ys : List κ} (h : Chain home S order k ys) {q : κ} (hq : q ∈ ys) :
      S.head q = false := ((h.mem q).mp hq).2.1
  intro q hqj hqk
  rcases List.mem_cons.mp hqj with rfl | hqj <;> rcases List.mem_cons.mp hqk with rfl | hqk
  · exact hjk rfl
  · exact Bool.false_ne_true ((hother hk hqk).symm.trans hheadj)
  · exact Bool.false_ne_true ((hother hj hqj).symm.trans hheadk)
  · have hhomej := ((hj.mem q).mp hqj).2.2
    have hhomek := ((hk.mem q).mp hqk).2.2
    exact hjk (Option.some.inj (hhomej.symm.trans hhomek))

/-- A key is put into the slot `r`, the last of the list. -/
def enter (S : Slots κ β) (chain : Cells κ Unit) (z p r : κ) (a : β) (head : Bool) : Slots κ β where
  chain := chain
  list := (S.list.join p r).join r z
  key := Function.update S.key r a
  head := Function.update S.head r head

/-- What is in the slot `x` is moved to `y`; `p` and `n` are its neighbours. -/
def move (S : Slots κ β) (x y p n p' n' : κ) : Slots κ β where
  chain := S.chain.move x y p n
  list := S.list.move x y p' n'
  key := Function.update S.key y (S.key x)
  head := Function.update S.head y (S.head x)

/-- The slot between `p` and `n` is taken out. -/
def unlink (S : Slots κ β) (p n p' n' : κ) : Slots κ β :=
  { S with chain := S.chain.join p n, list := S.list.join p' n' }

/-- The slot `y` becomes a head. -/
def promote (S : Slots κ β) (y : κ) : Slots κ β := { S with head := Function.update S.head y true }

variable {chain : Cells κ Unit} {b : Bool}

@[simp] theorem enter_key_self : (S.enter chain z p r a b).key r = a := by simp [enter]

@[simp] theorem enter_head_self : (S.enter chain z p r a b).head r = b := by simp [enter]

theorem enter_key_of_ne (h : i ≠ r) : (S.enter chain z p r a b).key i = S.key i := by
  simp [enter, h]

theorem enter_head_of_ne (h : i ≠ r) : (S.enter chain z p r a b).head i = S.head i := by
  simp [enter, h]

end Slots

/-- The table with the keys in the slots `order`. -/
structure ClosedHash (home : β → Option κ) (z : κ) (S : Slots κ β) (order : List κ) : Prop where
  list : Ring S.list z order
  first : S.head z = true
  chains : ∀ k ∈ z :: order, S.head k = true → ∃ xs, S.Chain home order k xs
  homes : ∀ i ∈ order,
    ∃ k ∈ z :: order, home (S.key i) = some k ∧ S.head k = true ∧ (S.head i = true → k = i)
  keys : (order.map S.key).Nodup

namespace ClosedHash

omit [DecidableEq κ] in
theorem congr (H : ClosedHash home z S order) (hsame : ∀ q ∈ z :: order, S.Same S' q) :
    ClosedHash home z S' order := by
  have hkey {i : κ} (hi : i ∈ order) : S'.key i = S.key i :=
    (hsame i (List.mem_cons_of_mem z hi)).key
  have hhead {i : κ} (hi : i ∈ z :: order) : S'.head i = S.head i := (hsame i hi).head
  refine ⟨?_, ?_, fun k hk hheadk => ?_, fun i hi => ?_, ?_⟩
  · exact H.list.congr (fun q hq => (hsame q hq).list.forw) (fun q hq => (hsame q hq).list.back)
  · exact (hhead List.mem_cons_self).trans H.first
  · obtain ⟨xs, hxs⟩ := H.chains k hk ((hhead hk).symm.trans hheadk)
    refine ⟨xs, hxs.congr (fun q hq => (hsame q ?_).chain) (fun i => ?_)⟩
    · rcases List.mem_cons.mp hq with rfl | hq
      · exact hk
      · exact List.mem_cons_of_mem z ((hxs.mem q).mp hq).1
    · refine and_congr_right fun hi => ?_
      rw [hhead (List.mem_cons_of_mem z hi), hkey hi]
  · obtain ⟨k, hk, hhome, hheadk, hown⟩ := H.homes i hi
    refine ⟨k, hk, ?_, (hhead hk).trans hheadk, fun hheadi => hown ?_⟩
    · rw [hkey hi, hhome]
    · rw [← hhead (List.mem_cons_of_mem z hi), hheadi]
  · rw [List.map_congr_left fun i hi => hkey hi]
    exact H.keys

omit [DecidableEq κ] in
theorem walk (H : ClosedHash home z S order) (hk : k ∈ z :: order) :
    ∃ ys, Ring S.chain k ys ∧ (∀ i ∈ k :: ys, i ∈ z :: order) ∧
      ∀ i ∈ order, home (S.key i) = some k → i ∈ k :: ys := by
  have htaken {j : κ} {xs : List κ} (hj : j ∈ z :: order) (hxs : S.Chain home order j xs) :
      ∀ i ∈ j :: xs, i ∈ z :: order := by
    intro i hi
    rcases List.mem_cons.mp hi with rfl | hi
    · exact hj
    · exact List.mem_cons_of_mem z ((hxs.mem i).mp hi).1
  cases hhead : S.head k with
  | true =>
    obtain ⟨xs, hxs⟩ := H.chains k hk hhead
    refine ⟨xs, hxs.ring, htaken hk hxs, fun i hi hhome => ?_⟩
    obtain ⟨j, -, hhome', -, hown⟩ := H.homes i hi
    obtain rfl := Option.some.inj (hhome.symm.trans hhome')
    cases hheadi : S.head i with
    | true => exact hown hheadi ▸ List.mem_cons_self
    | false => exact List.mem_cons_of_mem k ((hxs.mem i).mpr ⟨hi, hheadi, hhome⟩)
  | false =>
    -- No key has its home in the slot: it is in the chain of another head.
    have hkorder : k ∈ order := by
      rcases List.mem_cons.mp hk with rfl | hk
      · exact absurd (hhead.symm.trans H.first) Bool.false_ne_true
      · exact hk
    obtain ⟨j, hj, hhomej, hheadj, -⟩ := H.homes k hkorder
    obtain ⟨xs, hxs⟩ := H.chains j hj hheadj
    obtain ⟨ds, ts, rfl⟩ := List.append_of_mem ((hxs.mem k).mpr ⟨hkorder, hhead, hhomej⟩)
    have hring := hxs.ring.rotate
    have hperm : ((k :: ts) ++ (j :: ds)).Perm ((j :: ds) ++ (k :: ts)) := List.perm_append_comm
    refine ⟨ts ++ j :: ds, hring, fun i hi => htaken hj hxs i (hperm.mem_iff.mp hi), ?_⟩
    intro i hi hhome
    obtain ⟨k', -, hhome', hheadk, -⟩ := H.homes i hi
    obtain rfl := Option.some.inj (hhome.symm.trans hhome')
    exact absurd (hhead.symm.trans hheadk) Bool.false_ne_true

/-! ## A new key -/

omit [DecidableEq κ] in
theorem ne_of_free (hr : r ∉ z :: order) (hi : i ∈ z :: order) : i ≠ r := fun heq => hr (heq ▸ hi)

omit [DecidableEq κ] in
theorem mem_snoc (hi : i ∈ z :: order) (r : κ) : i ∈ z :: (order ++ [r]) := by
  have hmem : i ∈ (z :: order) ++ [r] := List.mem_append_left [r] hi
  exact hmem

omit [DecidableEq κ] in
theorem mem_of_mem_snoc (hi : i ∈ z :: (order ++ [r])) (hir : i ≠ r) : i ∈ z :: order := by
  have hmem : i ∈ (z :: order) ++ [r] := hi
  exact (List.mem_append.mp hmem).resolve_right (fun h => hir (List.mem_singleton.mp h))

theorem enter_head (hr : r ∉ z :: order) (chain : Cells κ Unit) (b : Bool) (hi : i ∈ z :: order) :
    (S.enter chain z p r a b).head i = S.head i := Slots.enter_head_of_ne (ne_of_free hr hi)

theorem enter_key (hr : r ∉ z :: order) (chain : Cells κ Unit) (b : Bool) (hi : i ∈ order) :
    (S.enter chain z p r a b).key i = S.key i :=
  Slots.enter_key_of_ne (ne_of_free hr (List.mem_cons_of_mem z hi))

theorem enter_member (hr : r ∉ z :: order) (chain : Cells κ Unit) {b : Bool}
    (hother : b = false → home a ≠ some j) :
    (S.enter chain z p r a b).Member home (order ++ [r]) j i ↔ S.Member home order j i := by
  by_cases hir : i = r
  · subst hir
    refine iff_of_false ?_ (fun h => hr (List.mem_cons_of_mem z h.1))
    rintro ⟨-, hhead, hhome⟩
    rw [Slots.enter_head_self] at hhead
    rw [Slots.enter_key_self] at hhome
    exact hother hhead hhome
  · rw [Slots.Member, Slots.Member, List.mem_append, List.mem_singleton, or_iff_left hir]
    refine and_congr_right fun hi => ?_
    rw [enter_head hr chain b (List.mem_cons_of_mem z hi), enter_key hr chain b hi]

theorem enter (H : ClosedHash home z S order) (hr : r ∉ z :: order) (hnew : a ∉ order.map S.key)
    (hp : S.list.Linked p z) (chain : Cells κ Unit) {b : Bool} (hk : k ∈ z :: (order ++ [r]))
    (hhome : home a = some k) (hhead : (S.enter chain z p r a b).head k = true)
    (hown : b = true → k = r)
    (hchains : ∀ j ∈ z :: (order ++ [r]), (S.enter chain z p r a b).head j = true →
      ∃ xs, (S.enter chain z p r a b).Chain home (order ++ [r]) j xs) :
    ClosedHash home z (S.enter chain z p r a b) (order ++ [r]) := by
  have hkeys : order.map (S.enter chain z p r a b).key = order.map S.key :=
    List.map_congr_left fun i hi => enter_key hr chain b hi
  have hkeyr : (S.enter chain z p r a b).key r = a := Slots.enter_key_self
  refine ⟨?_, ?_, hchains, fun i hi => ?_, ?_⟩
  · have hring : Ring S.list z (order ++ []) := (List.append_nil order).symm ▸ H.list
    exact hring.insert ((List.append_nil order).symm ▸ hr) hp
  · rw [enter_head hr chain b List.mem_cons_self, H.first]
  · rcases List.mem_append.mp hi with hi | hi
    · obtain ⟨j, hj, hhomei, hheadj, howni⟩ := H.homes i hi
      refine ⟨j, mem_snoc hj r, ?_, ?_, ?_⟩
      · rw [enter_key hr chain b hi, hhomei]
      · rw [enter_head hr chain b hj, hheadj]
      · rw [enter_head hr chain b (List.mem_cons_of_mem z hi)]
        exact howni
    · obtain rfl := List.mem_singleton.mp hi
      refine ⟨k, hk, ?_, hhead, fun hheadi => hown ?_⟩
      · rw [hkeyr, hhome]
      · rw [← hheadi, Slots.enter_head_self]
  · rw [List.map_append, hkeys, List.map_singleton, hkeyr]
    exact (List.perm_append_singleton a _).nodup_iff.mpr (List.nodup_cons.mpr ⟨hnew, H.keys⟩)

theorem enterHead (H : ClosedHash home z S order) (hk : k ∉ z :: order)
    (hnew : a ∉ order.map S.key) (hhome : home a = some k) (hp : S.list.Linked p z) :
    ClosedHash home z (S.enter (S.chain.join k k) z p k a true) (order ++ [k]) := by
  have hlast : k ∈ z :: (order ++ [k]) :=
    List.mem_cons_of_mem z (List.mem_append_right order List.mem_cons_self)
  have hheadk : (S.enter (S.chain.join k k) z p k a true).head k = true := Slots.enter_head_self
  refine H.enter hk hnew hp _ hlast hhome hheadk (fun _ => rfl) (fun j hj hheadj => ?_)
  by_cases hjk : j = k
  · -- No other key has its home there.
    subst hjk
    refine ⟨[], ⟨?_, ?_⟩, fun i => iff_of_false List.not_mem_nil ?_⟩
    · exact List.isChain_pair.mpr (Cells.join_linked j j S.chain)
    · exact List.nodup_singleton j
    · rintro ⟨hi, hheadi, hhomei⟩
      rcases List.mem_append.mp hi with hi | hi
      · rw [enter_key hk _ _ hi] at hhomei
        obtain ⟨j', hj', hhome', -, -⟩ := H.homes i hi
        exact hk (Option.some.inj (hhomei.symm.trans hhome') ▸ hj')
      · rw [List.mem_singleton.mp hi] at hheadi
        exact Bool.false_ne_true (hheadi.symm.trans hheadk)
  · have hjold : j ∈ z :: order :=
      (List.mem_append (s := z :: order).mp hj).resolve_right
        (fun h => hjk (List.mem_singleton.mp h))
    rw [enter_head hk _ _ hjold] at hheadj
    obtain ⟨xs, hxs⟩ := H.chains j hjold hheadj
    refine ⟨xs, hxs.congr (fun q hq => ?_) (fun i => enter_member hk _ nofun)⟩
    have hqk : q ≠ k := by
      rintro rfl
      rcases List.mem_cons.mp hq with rfl | hq
      · exact hjk rfl
      · exact hk (List.mem_cons_of_mem z ((hxs.mem q).mp hq).1)
    exact Cells.join_same hqk hqk

theorem enterMember (H : ClosedHash home z S order) (hr : r ∉ z :: order)
    (hnew : a ∉ order.map S.key) (hk : k ∈ z :: order) (hhead : S.head k = true)
    (hhome : home a = some k) (hp : S.list.Linked p z) (hx : S.chain.Linked x k) :
    ClosedHash home z (S.enter ((S.chain.join x r).join r k) z p r a false) (order ++ [r]) := by
  obtain ⟨xs, hxs⟩ := H.chains k hk hhead
  have hring : Ring S.chain k (xs ++ []) := (List.append_nil xs).symm ▸ hxs.ring
  have hxmem : x ∈ k :: xs := List.mem_of_getLast? (hring.getLast_of_linked hx)
  have hrxs : r ∉ k :: xs := by
    intro hmem
    rcases List.mem_cons.mp hmem with rfl | hmem
    · exact hr hk
    · exact hr (List.mem_cons_of_mem z ((hxs.mem r).mp hmem).1)
  refine H.enter hr hnew hp _ (mem_snoc hk r) hhome ?_ nofun (fun j hj hheadj => ?_)
  · rw [enter_head hr _ _ hk, hhead]
  · have hjr : j ≠ r := by
      rintro rfl
      rw [Slots.enter_head_self] at hheadj
      exact Bool.false_ne_true hheadj
    have hjold : j ∈ z :: order := mem_of_mem_snoc hj hjr
    rw [enter_head hr _ _ hjold] at hheadj
    by_cases hjk : j = k
    · subst hjk
      refine ⟨xs ++ [r], hring.insert ((List.append_nil xs).symm ▸ hrxs) hx, fun i => ?_⟩
      rw [List.mem_append, List.mem_singleton, hxs.mem]
      by_cases hir : i = r
      · subst hir
        refine iff_of_true (Or.inr rfl) ⟨List.mem_append_right order List.mem_cons_self, ?_, ?_⟩
        · exact Slots.enter_head_self
        · rw [Slots.enter_key_self, hhome]
      · rw [or_iff_left hir, Slots.Member, Slots.Member, List.mem_append, List.mem_singleton,
          or_iff_left hir]
        refine and_congr_right fun hi => ?_
        rw [enter_head hr _ _ (List.mem_cons_of_mem z hi), enter_key hr _ _ hi]
    · obtain ⟨ys, hys⟩ := H.chains j hjold hheadj
      have hapart := hys.apart hxs hheadj hhead hjk
      refine ⟨ys, hys.congr (fun q hq => ?_) (fun i => enter_member hr _ fun _ h => hjk ?_)⟩
      · have hqx : q ≠ x := fun heq => hapart q hq (heq ▸ hxmem)
        have hqk : q ≠ k := fun heq => hapart q hq (heq ▸ List.mem_cons_self)
        have hqr : q ≠ r := by
          rintro rfl
          rcases List.mem_cons.mp hq with rfl | hq
          · exact hjr rfl
          · exact hr (List.mem_cons_of_mem z ((hys.mem q).mp hq).1)
        exact (Cells.join_same hqx hqr).trans (Cells.join_same hqr hqk)
      · exact Option.some.inj (h.symm.trans hhome)

/-! ## A key is moved -/

omit [DecidableEq κ] in
theorem congr_home {home' : β → Option κ} (H : ClosedHash home z S order)
    (hhome : ∀ i ∈ order, home' (S.key i) = home (S.key i)) : ClosedHash home' z S order := by
  refine ⟨H.list, H.first, fun k hk hhead => ?_, fun i hi => ?_, H.keys⟩
  · obtain ⟨xs, hxs⟩ := H.chains k hk hhead
    refine ⟨xs, hxs.ring, fun i => (hxs.mem i).trans (and_congr_right fun hi => ?_)⟩
    rw [hhome i hi]
  · rw [hhome i hi]
    exact H.homes i hi

omit [DecidableEq κ] in
theorem ne_first (H : ClosedHash home z S order) (hx : x ∈ order) : z ≠ x := by
  rintro rfl
  exact (List.nodup_cons.mp H.list.distinct).1 hx

omit [DecidableEq κ] in
theorem mem_of_linked {m : Cells κ Unit} (h : Ring m k xs) (hpx : m.Linked p x)
    (hmem : p ∈ k :: xs ∨ x ∈ k :: xs) : p ∈ k :: xs ∧ x ∈ k :: xs := by
  rcases hmem with hp | hx
  · obtain ⟨-, -, n, hn, -, hpn⟩ := h.neighbours hp
    exact ⟨hp, hpx.forw_inj hpn ▸ hn⟩
  · obtain ⟨q, hq, -, -, hqx, -⟩ := h.neighbours hx
    exact ⟨hpx.back_inj hqx ▸ hq, hx⟩

/-- The homes, when the slot `x` is moved to `y`. -/
def moveHome (home : β → Option κ) (x y : κ) (a : β) : Option κ := (home a).map (relabel x y)

theorem moveHome_eq (h : home a = some k) : moveHome home x y a = some (relabel x y k) := by
  rw [moveHome, h, Option.map_some]

theorem move_key {p' n' : κ} (hy : y ∉ z :: order) (hi : i ∈ order) :
    (S.move x y p n p' n').key (relabel x y i) = S.key i := by
  by_cases hix : i = x
  · simp [Slots.move, hix]
  · simp [Slots.move, relabel_of_ne hix, ne_of_free hy (List.mem_cons_of_mem z hi)]

theorem move_head {p' n' : κ} (hy : y ∉ z :: order) (hi : i ∈ z :: order) :
    (S.move x y p n p' n').head (relabel x y i) = S.head i := by
  by_cases hix : i = x
  · simp [Slots.move, hix]
  · simp [Slots.move, relabel_of_ne hix, ne_of_free hy hi]

theorem moved {p' n' : κ} (H : ClosedHash home z S order) (hx : x ∈ order) (hy : y ∉ z :: order)
    (hp : S.chain.Linked p x) (hn : S.chain.Linked x n) (hp' : S.list.Linked p' x)
    (hn' : S.list.Linked x n') :
    ClosedHash (moveHome home x y) z (S.move x y p n p' n')
      (order.map (relabel x y)) := by
  have hz : relabel x y z = z := relabel_of_ne (H.ne_first hx) y
  have hkey {i : κ} (hi : i ∈ order) : (S.move x y p n p' n').key (relabel x y i) = S.key i :=
    move_key hy hi
  have hhead {i : κ} (hi : i ∈ z :: order) :
      (S.move x y p n p' n').head (relabel x y i) = S.head i := move_head hy hi
  have hinj {i j : κ} (hi : i ∈ z :: order) (hj : j ∈ z :: order)
      (hij : relabel x y i = relabel x y j) : i = j :=
    relabel_inj (ne_of_free hy hi) (ne_of_free hy hj) hij
  have hmem {k : κ} (hk : k ∈ z :: order) :
      relabel x y k ∈ z :: order.map (relabel x y) := by
    have himage := List.mem_map_of_mem (f := relabel x y) hk
    rwa [List.map_cons, hz] at himage
  refine ⟨?_, ?_, fun k' hk' hheadk => ?_, fun i' hi' => ?_, ?_⟩
  · have hring := H.list.move hy hp' hn'
    rwa [hz] at hring
  · have hfirst := hhead (i := z) List.mem_cons_self
    rwa [hz, H.first] at hfirst
  · obtain ⟨k, hk, rfl⟩ : ∃ k ∈ z :: order, relabel x y k = k' := by
      rw [← hz, ← List.map_cons] at hk'
      exact List.mem_map.mp hk'
    rw [hhead hk] at hheadk
    obtain ⟨xs, hxs⟩ := H.chains k hk hheadk
    have hold {i : κ} (hi : i ∈ k :: xs) : i ∈ z :: order := by
      rcases List.mem_cons.mp hi with rfl | hi
      · exact hk
      · exact List.mem_cons_of_mem z ((hxs.mem i).mp hi).1
    refine ⟨xs.map (relabel x y), ?_, fun i' => ?_⟩
    · by_cases hxk : x ∈ k :: xs
      · exact hxs.ring.move (fun hyk => hy (hold hyk)) hp hn
      · have hfix {i : κ} (hi : i ∈ k :: xs) : relabel x y i = i := by
          refine relabel_of_ne ?_ y
          rintro rfl
          exact hxk hi
        have hmap : xs.map (relabel x y) = xs :=
          (List.map_congr_left fun i hi => hfix (List.mem_cons_of_mem k hi)).trans (List.map_id' xs)
        rw [hfix List.mem_cons_self, hmap]
        have hsame {q : κ} (hq : q ∈ k :: xs) : S.chain.Same (S.chain.move x y p n) q := by
          refine Cells.move_same (ne_of_free hy (hold hq)) ?_ ?_
          · rintro rfl
            exact hxk (mem_of_linked hxs.ring hp (Or.inl hq)).2
          · rintro rfl
            exact hxk (mem_of_linked hxs.ring hn (Or.inr hq)).1
        exact hxs.ring.congr (fun q hq => (hsame hq).forw) (fun q hq => (hsame hq).back)
    · constructor
      · intro hi'
        obtain ⟨i, hi, rfl⟩ := List.mem_map.mp hi'
        obtain ⟨hiorder, hheadi, hhomei⟩ := (hxs.mem i).mp hi
        refine ⟨List.mem_map_of_mem hiorder, ?_, ?_⟩
        · rw [hhead (List.mem_cons_of_mem z hiorder), hheadi]
        · rw [hkey hiorder, moveHome_eq hhomei]
      · rintro ⟨hi', hheadi, hhomei⟩
        obtain ⟨i, hi, rfl⟩ := List.mem_map.mp hi'
        rw [hhead (List.mem_cons_of_mem z hi)] at hheadi
        rw [hkey hi] at hhomei
        obtain ⟨j, hj, hhomej, -, -⟩ := H.homes i hi
        rw [moveHome_eq hhomej] at hhomei
        obtain rfl := hinj hj hk (Option.some.inj hhomei)
        exact List.mem_map_of_mem ((hxs.mem i).mpr ⟨hi, hheadi, hhomej⟩)
  · obtain ⟨i, hi, rfl⟩ := List.mem_map.mp hi'
    obtain ⟨k, hk, hhomei, hheadk, hown⟩ := H.homes i hi
    refine ⟨relabel x y k, hmem hk, ?_, (hhead hk).trans hheadk, fun hheadi => ?_⟩
    · rw [hkey hi, moveHome_eq hhomei]
    · rw [hhead (List.mem_cons_of_mem z hi)] at hheadi
      rw [hown hheadi]
  · have hkeys : (order.map (relabel x y)).map (S.move x y p n p' n').key = order.map S.key := by
      rw [List.map_map]
      exact List.map_congr_left fun i hi => hkey hi
    rw [hkeys]
    exact H.keys

theorem relocated {p' n' : κ} (H : ClosedHash home z S order) (hx : x ∈ order)
    (hhead : S.head x = false) (hy : y ∉ z :: order) (hp : S.chain.Linked p x)
    (hn : S.chain.Linked x n) (hp' : S.list.Linked p' x) (hn' : S.list.Linked x n') :
    ClosedHash home z (S.move x y p n p' n') (order.map (relabel x y)) := by
  have hhome : ∀ i ∈ order, moveHome home x y (S.key i) = home (S.key i) := by
    intro i hi
    obtain ⟨k, -, hhomei, hheadk, -⟩ := H.homes i hi
    have hkx : k ≠ x := by
      rintro rfl
      exact Bool.false_ne_true (hhead.symm.trans hheadk)
    rw [moveHome_eq hhomei, relabel_of_ne hkx, hhomei]
  refine (H.moved hx hy hp hn hp' hn').congr_home (fun i' hi' => ?_)
  obtain ⟨i, hi, rfl⟩ := List.mem_map.mp hi'
  rw [move_key hy hi, hhome i hi]

/-! ## A key is removed -/

theorem unlink_list {p' n' : κ} (H : ClosedHash home z S order) (hx : x ∈ order)
    (hp' : S.list.Linked p' x) (hn' : S.list.Linked x n') :
    Ring (S.list.join p' n') z (order.erase x) := by
  obtain ⟨ds, ts, hds, rfl, herase⟩ := List.exists_erase_eq hx
  obtain ⟨-, -, -, hnext⟩ := H.list.around
  rw [herase, hn'.forw_inj hnext]
  exact H.list.unlinked hp'

omit [DecidableEq κ] in
theorem nodup (H : ClosedHash home z S order) : order.Nodup :=
  (List.nodup_cons.mp H.list.distinct).2

theorem mem_erase (H : ClosedHash home z S order) : i ∈ order.erase x ↔ i ≠ x ∧ i ∈ order :=
  H.nodup.mem_erase_iff

theorem dropped {p' n' : κ} (H : ClosedHash home z S order) (hx : x ∈ order)
    (hlone : S.head x = true → n = x) (hp : S.chain.Linked p x) (hn : S.chain.Linked x n)
    (hp' : S.list.Linked p' x) (hn' : S.list.Linked x n') :
    ClosedHash home z (S.unlink p n p' n') (order.erase x) := by
  have hcons {i : κ} (hi : i ∈ z :: order.erase x) : i ≠ x ∧ i ∈ z :: order := by
    rcases List.mem_cons.mp hi with rfl | hi
    · exact ⟨H.ne_first hx, List.mem_cons_self⟩
    · exact ⟨(H.mem_erase.mp hi).1, List.mem_cons_of_mem z (H.mem_erase.mp hi).2⟩
  refine ⟨H.unlink_list hx hp' hn', H.first, fun k hk hhead => ?_, fun i hi => ?_, ?_⟩
  · obtain ⟨hkx, hk⟩ := hcons hk
    obtain ⟨xs, hxs⟩ := H.chains k hk hhead
    by_cases hxxs : x ∈ xs
    · obtain ⟨ds, ts, rfl⟩ := List.append_of_mem hxxs
      obtain ⟨-, -, -, hnext⟩ := hxs.ring.around
      refine ⟨ds ++ ts, hn.forw_inj hnext ▸ hxs.ring.unlinked hp, fun i => ?_⟩
      have hothers : i ∈ ds ++ ts ↔ i ≠ x ∧ i ∈ ds ++ x :: ts := by
        have happart := hxs.ring.apart.1
        rw [List.mem_append, List.mem_append, List.mem_cons]
        constructor
        · intro hi
          refine ⟨?_, hi.imp_right Or.inr⟩
          rintro rfl
          exact happart (List.mem_cons_of_mem k (List.mem_append.mpr hi))
        · rintro ⟨hix, hi⟩
          exact hi.imp_right (fun h => h.resolve_left hix)
      rw [hothers, hxs.mem, Slots.Member, Slots.Member, H.mem_erase, and_assoc]
      rfl
    · refine ⟨xs, hxs.congr (fun q hq => ?_) (fun i => ?_)⟩
      · have hxk : x ∉ k :: xs := by
          intro hmem
          rcases List.mem_cons.mp hmem with heq | hmem
          · exact hkx heq.symm
          · exact hxxs hmem
        refine Cells.join_same ?_ ?_
        · rintro rfl
          exact hxk (mem_of_linked hxs.ring hp (Or.inl hq)).2
        · rintro rfl
          exact hxk (mem_of_linked hxs.ring hn (Or.inr hq)).1
      · rw [← hxs.mem, Slots.Member, H.mem_erase, and_assoc]
        refine and_iff_right_of_imp ?_ |>.trans (hxs.mem i).symm
        rintro hmem rfl
        exact hxxs ((hxs.mem i).mpr hmem)
  · obtain ⟨hix, hiorder⟩ := H.mem_erase.mp hi
    obtain ⟨k, hk, hhome, hheadk, hown⟩ := H.homes i hiorder
    refine ⟨k, ?_, hhome, hheadk, hown⟩
    -- The key that is removed is not the home of another one.
    have hkx : k ≠ x := by
      rintro rfl
      obtain ⟨xs, hxs⟩ := H.chains k hk hheadk
      have hself := hlone hheadk
      cases hheadi : S.head i with
      | true => exact hix (hown hheadi).symm
      | false =>
        have hixs := (hxs.mem i).mpr ⟨hiorder, hheadi, hhome⟩
        obtain ⟨y, ys, rfl⟩ := List.exists_cons_of_ne_nil (List.ne_nil_of_mem hixs)
        have hky : n = y := hn.forw_inj hxs.ring.first
        exact (List.nodup_cons.mp hxs.ring.distinct).1 (hself ▸ hky ▸ List.mem_cons_self)
    rcases List.mem_cons.mp hk with rfl | hk
    · exact List.mem_cons_self
    · exact List.mem_cons_of_mem z (H.mem_erase.mpr ⟨hkx, hk⟩)
  · exact H.keys.sublist (List.erase_sublist.map S.key)

omit [DecidableEq κ] in
theorem chain_cons (H : ClosedHash home z S order) (hx : x ∈ order) (hhead : S.head x = true)
    (hyx : y ≠ x) (hy : S.chain.Linked x y) : ∃ ys, S.Chain home order x (y :: ys) := by
  obtain ⟨xs, hxs⟩ := H.chains x (List.mem_cons_of_mem z hx) hhead
  have hfirst := hy.forw_inj hxs.ring.first
  cases xs with
  | nil => exact absurd hfirst hyx
  | cons y' ys =>
    obtain rfl : y = y' := hfirst
    exact ⟨ys, hxs⟩

theorem promoted {p' n' : κ} (H : ClosedHash home z S order) (hx : x ∈ order)
    (hhead : S.head x = true) (hyx : y ≠ x) (hp : S.chain.Linked p x) (hy : S.chain.Linked x y)
    (hp' : S.list.Linked p' x) (hn' : S.list.Linked x n') :
    ClosedHash (moveHome home x y) z ((S.unlink p y p' n').promote y) (order.erase x) := by
  obtain ⟨ys, hxs⟩ := H.chain_cons hx hhead hyx hy
  obtain ⟨hyorder, hheady, hhomey⟩ := (hxs.mem y).mp List.mem_cons_self
  have hcons {i : κ} (hi : i ∈ z :: order.erase x) : i ≠ x ∧ i ∈ z :: order := by
    rcases List.mem_cons.mp hi with rfl | hi
    · exact ⟨H.ne_first hx, List.mem_cons_self⟩
    · exact ⟨(H.mem_erase.mp hi).1, List.mem_cons_of_mem z (H.mem_erase.mp hi).2⟩
  have hpromote {i : κ} (hiy : i ≠ y) : ((S.unlink p y p' n').promote y).head i = S.head i :=
    Function.update_of_ne hiy _ _
  have hheady' : ((S.unlink p y p' n').promote y).head y = true := by simp [Slots.promote]
  have hpmem : p ∈ x :: y :: ys := (mem_of_linked hxs.ring hp (Or.inr List.mem_cons_self)).1
  refine ⟨H.unlink_list hx hp' hn', ?_, fun k hk hheadk => ?_, fun i hi => ?_, ?_⟩
  · rw [hpromote (H.ne_first hyorder), H.first]
  · obtain ⟨hkx, hkorder⟩ := hcons hk
    by_cases hky : k = y
    · -- The chain that is left, with its second slot as the head.
      subst hky
      have hchain : Ring S.chain x ([] ++ k :: ys) := hxs.ring
      have hrotate := hchain.rotate
      have hring := hrotate.unlinked hp
      rw [List.append_nil] at hring
      refine ⟨ys, hring, fun i => ?_⟩
      have hmem : i ∈ ys ↔ i ≠ k ∧ S.Member home order x i := by
        rw [← hxs.mem, List.mem_cons]
        refine ⟨fun hi => ⟨?_, Or.inr hi⟩, fun h => h.2.resolve_left h.1⟩
        rintro rfl
        exact (List.nodup_cons.mp hrotate.distinct).1 (List.mem_append_left [x] hi)
      rw [hmem]
      constructor
      · rintro ⟨hik, hiorder, hheadi, hhomei⟩
        refine ⟨H.mem_erase.mpr ⟨?_, hiorder⟩, (hpromote hik).trans hheadi, ?_⟩
        · rintro rfl
          exact Bool.false_ne_true (hheadi.symm.trans hhead)
        · exact (moveHome_eq hhomei).trans (congrArg some (relabel_self x k))
      · rintro ⟨hi, hheadi, hhomei⟩
        have hik : i ≠ k := by
          rintro rfl
          exact Bool.false_ne_true (hheadi.symm.trans hheady')
        rw [hpromote hik] at hheadi
        have hiorder := (H.mem_erase.mp hi).2
        obtain ⟨j, -, hhomej, hheadj, -⟩ := H.homes i hiorder
        have hjk : j ≠ k := by
          rintro rfl
          exact Bool.false_ne_true (hheady.symm.trans hheadj)
        have hmoved := Option.some.inj ((moveHome_eq hhomej).symm.trans hhomei)
        have hjx : j = x := by
          by_contra hjx
          exact hjk ((relabel_of_ne hjx k).symm.trans hmoved)
        exact ⟨hik, hiorder, hheadi, hjx ▸ hhomej⟩
    · rw [hpromote hky] at hheadk
      obtain ⟨zs, hzs⟩ := H.chains k hkorder hheadk
      have hapart := hzs.apart hxs hheadk hhead hkx
      refine ⟨zs, hzs.congr (fun q hq => ?_) (fun i => ?_)⟩
      · refine Cells.join_same ?_ ?_
        · rintro rfl
          exact hapart q hq hpmem
        · rintro rfl
          exact hapart q hq (List.mem_cons_of_mem x List.mem_cons_self)
      · constructor
        · rintro ⟨hi, hheadi, hhomei⟩
          have hiy : i ≠ y := by
            rintro rfl
            exact Bool.false_ne_true (hheadi.symm.trans hheady')
          rw [hpromote hiy] at hheadi
          have hiorder := (H.mem_erase.mp hi).2
          obtain ⟨j, -, hhomej, -, -⟩ := H.homes i hiorder
          have hmoved := Option.some.inj ((moveHome_eq hhomej).symm.trans hhomei)
          have hjx : j ≠ x := by
            rintro rfl
            exact hky (hmoved.symm.trans (relabel_self j y))
          rw [relabel_of_ne hjx] at hmoved
          exact ⟨hiorder, hheadi, hmoved ▸ hhomej⟩
        · rintro ⟨hiorder, hheadi, hhomei⟩
          have hiy : i ≠ y := by
            rintro rfl
            exact hkx (Option.some.inj (hhomei.symm.trans hhomey))
          refine ⟨H.mem_erase.mpr ⟨?_, hiorder⟩, (hpromote hiy).trans hheadi, ?_⟩
          · rintro rfl
            exact Bool.false_ne_true (hheadi.symm.trans hhead)
          · exact (moveHome_eq hhomei).trans (congrArg some (relabel_of_ne hkx y))
  · obtain ⟨hix, hiorder⟩ := H.mem_erase.mp hi
    obtain ⟨k, hk, hhome, hheadk, hown⟩ := H.homes i hiorder
    refine ⟨relabel x y k, ?_, moveHome_eq hhome, ?_, fun hheadi => ?_⟩
    · by_cases hkx : k = x
      · rw [hkx, relabel_self]
        exact List.mem_cons_of_mem z (H.mem_erase.mpr ⟨hyx, hyorder⟩)
      · rw [relabel_of_ne hkx]
        rcases List.mem_cons.mp hk with rfl | hk
        · exact List.mem_cons_self
        · exact List.mem_cons_of_mem z (H.mem_erase.mpr ⟨hkx, hk⟩)
    · by_cases hkx : k = x
      · rw [hkx, relabel_self, hheady']
      · rw [relabel_of_ne hkx, hpromote, hheadk]
        rintro rfl
        exact Bool.false_ne_true (hheady.symm.trans hheadk)
    · by_cases hiy : i = y
      · subst hiy
        rw [Option.some.inj (hhome.symm.trans hhomey), relabel_self]
      · rw [hpromote hiy] at hheadi
        rw [hown hheadi, relabel_of_ne hix]
  · exact H.keys.sublist (List.erase_sublist.map S.key)

theorem pulled {p' n' q m q' m' : κ} (H : ClosedHash home z S order) (hx : x ∈ order)
    (hhead : S.head x = true) (hyx : y ≠ x) (hp : S.chain.Linked p x) (hy : S.chain.Linked x y)
    (hp' : S.list.Linked p' x) (hn' : S.list.Linked x n')
    (hq : (S.unlink p y p' n').chain.Linked q y) (hm : (S.unlink p y p' n').chain.Linked y m)
    (hq' : (S.unlink p y p' n').list.Linked q' y) (hm' : (S.unlink p y p' n').list.Linked y m') :
    ClosedHash home z (((S.unlink p y p' n').promote y).move y x q m q' m')
      ((order.erase x).map (relabel y x)) := by
  obtain ⟨ys, hxs⟩ := H.chain_cons hx hhead hyx hy
  obtain ⟨hyorder, hheady, -⟩ := (hxs.mem y).mp List.mem_cons_self
  have hyerase : y ∈ order.erase x := H.mem_erase.mpr ⟨hyx, hyorder⟩
  have hxfree : x ∉ z :: order.erase x := by
    intro hmem
    rcases List.mem_cons.mp hmem with heq | hmem
    · exact H.ne_first hx heq.symm
    · exact (H.mem_erase.mp hmem).1 rfl
  have hpromoted := H.promoted hx hhead hyx hp hy hp' hn'
  refine (hpromoted.moved hyerase hxfree hq hm hq' hm').congr_home (fun i' hi' => ?_)
  obtain ⟨i, hi, rfl⟩ := List.mem_map.mp hi'
  rw [move_key hxfree hi]
  -- There and back: the homes are what they have been.
  obtain ⟨k, hk, hhome, hheadk, -⟩ := H.homes i (H.mem_erase.mp hi).2
  have hback : relabel y x (relabel x y k) = k := by
    by_cases hkx : k = x
    · rw [hkx, relabel_self, relabel_self]
    · rw [relabel_of_ne hkx, relabel_of_ne]
      rintro rfl
      exact Bool.false_ne_true (hheady.symm.trans hheadk)
  exact hhome.trans ((moveHome_eq (moveHome_eq hhome)).trans (congrArg some hback)).symm

end ClosedHash

end Netkit.Foundations

import Mathlib.Data.List.Chain
import Mathlib.Data.List.Nodup
import Mathlib.Logic.Function.Basic

/-!
# Doubly linked rings

Elements in memory that are linked forward and backward in a ring, which begins and ends with a
head. A place that has been freed can be neither read nor written.
-/

namespace Netkit.Foundations

/-- What is at the places of a memory: the links `q_forw` and `q_back` and a value. -/
@[ext] structure Cells (κ α : Type*) where
  forw : κ → Option κ
  back : κ → Option κ
  val : κ → Option α

variable {κ α : Type*} [DecidableEq κ] {m m' : Cells κ α} {x y hd p n q : κ} {xs ds ts : List κ}

/-- `y` in the place of `x`. -/
def relabel (x y : κ) : κ → κ := Function.update id x y

@[simp] theorem relabel_self (x y : κ) : relabel x y x = y := by simp [relabel]

theorem relabel_of_ne (h : q ≠ x) (y : κ) : relabel x y q = q := by simp [relabel, h]

theorem relabel_inj (hp : p ≠ y) (hq : q ≠ y) (h : relabel x y p = relabel x y q) : p = q := by
  by_cases hpx : p = x <;> by_cases hqx : q = x
  · exact hpx.trans hqx.symm
  · rw [hpx, relabel_self, relabel_of_ne hqx] at h
    exact absurd h.symm hq
  · rw [hqx, relabel_self, relabel_of_ne hpx] at h
    exact absurd h hp
  · rwa [relabel_of_ne hpx, relabel_of_ne hqx] at h

namespace Cells

/-- `x->q_forw = y`. -/
def setForw (x y : κ) (m : Cells κ α) : Option (Cells κ α) :=
  if (m.forw x).isSome then some { m with forw := Function.update m.forw x (some y) } else none

/-- `x->q_back = y`. -/
def setBack (x y : κ) (m : Cells κ α) : Option (Cells κ α) :=
  if (m.back x).isSome then some { m with back := Function.update m.back x (some y) } else none

/-- `malloc`: the links are not set yet. -/
def alloc (x : κ) (a : α) (m : Cells κ α) : Cells κ α where
  forw := Function.update m.forw x (some x)
  back := Function.update m.back x (some x)
  val := Function.update m.val x (some a)

/-- `insque`, behind `prev`. -/
def insque (x prev : κ) (m : Cells κ α) : Option (Cells κ α) :=
  (m.forw prev).bind fun next =>
    (m.setForw prev x).bind fun m =>
      (m.setBack next x).bind fun m =>
        (m.setForw x next).bind fun m => m.setBack x prev

def remque (x : κ) (m : Cells κ α) : Option (Cells κ α) :=
  (m.forw x).bind fun next =>
    (m.back x).bind fun prev =>
      (m.setBack next prev).bind fun m => m.setForw prev next

def free (x : κ) (m : Cells κ α) : Cells κ α where
  forw := Function.update m.forw x none
  back := Function.update m.back x none
  val := Function.update m.val x none

def write (x : κ) (a : α) (m : Cells κ α) : Cells κ α :=
  { m with val := Function.update m.val x (some a) }

/-- What is at `x` is copied to `y`, to which `p` and `n` are linked then. -/
def move (x y p n : κ) (m : Cells κ α) : Cells κ α where
  forw :=
    let forw := Function.update m.forw p (some y)
    Function.update forw y (forw x)
  back :=
    let back := Function.update m.back n (some y)
    Function.update back y (back x)
  val := Function.update m.val y (m.val x)

/-- The links lead from `a` to `b` and back. -/
def Linked (m : Cells κ α) (a b : κ) : Prop := m.forw a = some b ∧ m.back b = some a

/-- The links and the value of a place are as they were. -/
structure Same (m m' : Cells κ α) (q : κ) : Prop where
  forw : m'.forw q = m.forw q
  back : m'.back q = m.back q
  val : m'.val q = m.val q

omit [DecidableEq κ] in
theorem Same.trans {m'' : Cells κ α} (h : Same m m' q) (h' : Same m' m'' q) : Same m m'' q :=
  ⟨h'.forw.trans h.forw, h'.back.trans h.back, h'.val.trans h.val⟩

theorem alloc_same {a : α} (h : q ≠ x) : Same m (m.alloc x a) q :=
  ⟨Function.update_of_ne h _ _, Function.update_of_ne h _ _, Function.update_of_ne h _ _⟩

theorem free_same (h : q ≠ x) : Same m (m.free x) q :=
  ⟨Function.update_of_ne h _ _, Function.update_of_ne h _ _, Function.update_of_ne h _ _⟩

theorem write_same {a : α} (h : q ≠ x) : Same m (m.write x a) q :=
  ⟨rfl, rfl, Function.update_of_ne h _ _⟩

@[simp] theorem write_val (x : κ) (a : α) : (m.write x a).val x = some a :=
  Function.update_self x _ _

omit [DecidableEq κ] in
theorem Linked.same {a b : κ} (h : m.Linked a b) (ha : Same m m' a) (hb : Same m m' b) :
    m'.Linked a b := ⟨ha.forw.trans h.1, hb.back.trans h.2⟩

/-- The link from `p` to `n` and the one back are set. -/
def join (p n : κ) (m : Cells κ α) : Cells κ α :=
  { m with forw := Function.update m.forw p (some n), back := Function.update m.back n (some p) }

variable {a b : κ}

theorem join_linked (p n : κ) (m : Cells κ α) : (m.join p n).Linked p n :=
  ⟨Function.update_self p _ _, Function.update_self n _ _⟩

theorem join_same (hp : q ≠ p) (hn : q ≠ n) : Same m (m.join p n) q :=
  ⟨Function.update_of_ne hp _ _, Function.update_of_ne hn _ _, rfl⟩

theorem move_same (hy : q ≠ y) (hp : q ≠ p) (hn : q ≠ n) : Same m (m.move x y p n) q :=
  ⟨(Function.update_of_ne hy _ _).trans (Function.update_of_ne hp _ _),
    (Function.update_of_ne hy _ _).trans (Function.update_of_ne hn _ _),
    Function.update_of_ne hy _ _⟩

theorem Linked.join (h : m.Linked a b) (ha : a ≠ p) (hb : b ≠ n) : (m.join p n).Linked a b :=
  ⟨(Function.update_of_ne ha _ _).trans h.1, (Function.update_of_ne hb _ _).trans h.2⟩

omit [DecidableEq κ] in
theorem Linked.forw_inj {c : κ} (h : m.Linked a b) (h' : m.Linked a c) : b = c :=
  Option.some.inj (h.1.symm.trans h'.1)

omit [DecidableEq κ] in
theorem Linked.back_inj {c : κ} (h : m.Linked a c) (h' : m.Linked b c) : a = b :=
  Option.some.inj (h.2.symm.trans h'.2)

theorem insque_eq (h : m.Linked p n) (hp : p ≠ x) (hn : n ≠ x) (a : α) :
    (m.alloc x a).insque x p = some (((m.alloc x a).join p x).join x n) := by
  obtain ⟨hforw, hback⟩ := h
  simp only [insque, alloc, setForw, setBack, join, Function.update_of_ne hp,
    Function.update_of_ne hn, Function.update_of_ne hn.symm, Function.update_of_ne hp.symm,
    Function.update_self, hforw, hback, Option.bind_some, Option.isSome_some, if_true,
    Function.update_comm hp, Function.update_comm hn, Function.update_idem]

theorem remque_eq (hp : m.Linked p x) (hn : m.Linked x n) : m.remque x = some (m.join p n) := by
  obtain ⟨hforw, hback⟩ := hp
  obtain ⟨hforw', hback'⟩ := hn
  simp [remque, setBack, setForw, join, hforw, hback, hforw', hback']

end Cells

/-- The places `xs` are linked to a ring with the head `hd`. -/
structure Ring (m : Cells κ α) (hd : κ) (xs : List κ) : Prop where
  linked : (hd :: (xs ++ [hd])).IsChain m.Linked
  distinct : (hd :: xs).Nodup

namespace Ring

omit [DecidableEq κ] in
theorem congr (h : Ring m hd xs) (hforw : ∀ q ∈ hd :: xs, m'.forw q = m.forw q)
    (hback : ∀ q ∈ hd :: xs, m'.back q = m.back q) : Ring m' hd xs := by
  refine ⟨h.linked.imp_of_mem_imp (fun a b ha hb hab => ?_), h.distinct⟩
  have hmem {c : κ} (hc : c ∈ hd :: (xs ++ [hd])) : c ∈ hd :: xs := by
    rcases List.mem_cons.mp hc with rfl | hc
    · exact List.mem_cons_self
    · rcases List.mem_append.mp hc with hc | hc
      · exact List.mem_cons_of_mem hd hc
      · exact List.mem_singleton.mp hc ▸ List.mem_cons_self
  exact ⟨(hforw a (hmem ha)).trans hab.1, (hback b (hmem hb)).trans hab.2⟩

theorem write (h : Ring m hd xs) (a : α) : Ring (m.write x a) hd xs :=
  h.congr (fun _ _ => rfl) (fun _ _ => rfl)

omit [DecidableEq κ] in
theorem mem_middle : q ∈ hd :: (ds ++ x :: ts) ↔ q = x ∨ q ∈ hd :: (ds ++ ts) := by
  have hperm : ((hd :: ds) ++ x :: ts).Perm (x :: ((hd :: ds) ++ ts)) := List.perm_middle
  exact hperm.mem_iff.trans List.mem_cons

omit [DecidableEq κ] in
theorem apart (h : Ring m hd (ds ++ x :: ts)) : x ∉ hd :: (ds ++ ts) ∧ (hd :: (ds ++ ts)).Nodup := by
  have hperm : ((hd :: ds) ++ x :: ts).Perm (x :: ((hd :: ds) ++ ts)) := List.perm_middle
  exact List.nodup_cons.mp (hperm.nodup_iff.mp h.distinct)

omit [DecidableEq κ] in
theorem around (h : Ring m hd (ds ++ x :: ts)) :
    ∃ p, (hd :: ds).getLast? = some p ∧ m.Linked p x ∧ m.Linked x (ts.headD hd) := by
  obtain ⟨ds', p, hp⟩ : ∃ ds' p, hd :: ds = ds' ++ [p] :=
    (List.eq_nil_or_concat' (hd :: ds)).resolve_left (List.cons_ne_nil hd ds)
  have hsplit : hd :: (ds ++ x :: ts ++ [hd]) = ds' ++ p :: x :: (ts ++ [hd]) := by
    rw [List.append_assoc, ← List.cons_append, hp, List.append_assoc]
    rfl
  have hlinked := h.linked
  rw [hsplit, List.isChain_append_cons_cons] at hlinked
  obtain ⟨-, hpx, hrest⟩ := hlinked
  refine ⟨p, ?_, hpx, ?_⟩
  · rw [hp, List.getLast?_concat]
  · cases ts with
    | nil => exact (List.isChain_cons_cons.mp hrest).1
    | cons t ts => exact (List.isChain_cons_cons.mp hrest).1

omit [DecidableEq κ] in
theorem exists_append_head (hd : κ) (xs : List κ) : ∃ rest, xs ++ [hd] = xs.headD hd :: rest := by
  cases xs with
  | nil => exact ⟨[], rfl⟩
  | cons y ys => exact ⟨ys ++ [hd], rfl⟩

omit [DecidableEq κ] in
theorem first (h : Ring m hd xs) : m.Linked hd (xs.headD hd) := by
  obtain ⟨rest, hrest⟩ := exists_append_head hd xs
  have hlinked := h.linked
  rw [hrest] at hlinked
  exact (List.isChain_cons_cons.mp hlinked).1

omit [DecidableEq κ] in
theorem start (h : Ring m hd xs) : m.forw hd = some (xs.headD hd) := h.first.1

omit [DecidableEq κ] in
theorem next (h : Ring m hd (ds ++ x :: ts)) : m.forw x = some (ts.headD hd) := by
  obtain ⟨p, -, -, hnext⟩ := h.around
  exact hnext.1

theorem insque (h : Ring m hd xs) (hx : x ∉ hd :: xs) (a : α) :
    ∃ m', (m.alloc x a).insque x hd = some m' ∧ Ring m' hd (x :: xs) ∧
      (∀ q ∉ hd :: x :: xs, m.Same m' q) ∧ m'.val = Function.update m.val x (some a) := by
  obtain ⟨rest, hrest⟩ := exists_append_head hd xs
  generalize xs.headD hd = n at hrest
  have hperm : (n :: rest).Perm (hd :: xs) := hrest ▸ List.perm_append_singleton hd xs
  have hlinked := h.linked
  rw [hrest] at hlinked
  obtain ⟨hfirst, hbehind⟩ := List.isChain_cons_cons.mp hlinked
  have hmem {c : κ} (hc : c ∈ n :: rest) : c ≠ x := fun heq => hx (heq ▸ hperm.mem_iff.mp hc)
  have hhd : hd ≠ x := fun heq => hx (heq ▸ List.mem_cons_self)
  have hn : n ≠ x := hmem List.mem_cons_self
  refine ⟨_, Cells.insque_eq hfirst hhd hn a, ⟨?_, ?_⟩, fun q hq => ?_, rfl⟩
  · rw [List.cons_append, hrest]
    refine List.isChain_cons_cons.mpr ⟨(Cells.join_linked hd x _).join hhd hn.symm,
      List.isChain_cons_cons.mpr ⟨Cells.join_linked x n _, ?_⟩⟩
    -- Behind `n`, what was linked is linked still.
    refine hbehind.imp_of_mem_tail_imp (fun b c hb hc hbc => ?_)
    have hcmem : c ∈ n :: rest := List.mem_cons_of_mem n hc
    have hcn : c ≠ n := by
      rintro rfl
      exact (List.nodup_cons.mp (hperm.nodup_iff.mpr h.distinct)).1 hc
    have hbhd : b ≠ hd := by
      rintro rfl
      exact hcn (hbc.forw_inj hfirst)
    have halloc : (m.alloc x a).Linked b c :=
      hbc.same (Cells.alloc_same (hmem hb)) (Cells.alloc_same (hmem hcmem))
    exact (halloc.join hbhd (hmem hcmem)).join (hmem hb) hcn
  · rw [List.nodup_cons, List.mem_cons, not_or, List.nodup_cons]
    obtain ⟨hhdxs, hxs⟩ := List.nodup_cons.mp h.distinct
    exact ⟨⟨hhd, hhdxs⟩, fun hmem => hx (List.mem_cons_of_mem hd hmem), hxs⟩
  · have hqx : q ≠ x := fun heq => hq (heq ▸ List.mem_cons_of_mem hd List.mem_cons_self)
    have hqhd : q ≠ hd := fun heq => hq (heq ▸ List.mem_cons_self)
    have hqn : q ≠ n := by
      rintro rfl
      rcases List.mem_cons.mp (hperm.mem_iff.mp List.mem_cons_self) with heq | hmem
      · exact hqhd heq
      · exact hq (List.mem_cons_of_mem hd (List.mem_cons_of_mem x hmem))
    exact ((Cells.alloc_same hqx).trans (Cells.join_same hqhd hqx)).trans
      (Cells.join_same hqx hqn)

/-- An element is left out, and freed: the others are linked to a ring, and no place outside of the
ring is written. -/
theorem unlink (h : Ring m hd (ds ++ x :: ts)) :
    ∃ p, m.Linked p x ∧ m.Linked x (ts.headD hd) ∧
      Ring ((m.join p (ts.headD hd)).free x) hd (ds ++ ts) ∧
      ((m.join p (ts.headD hd)).free x).Linked p (ts.headD hd) ∧
      ∀ q ∉ hd :: (ds ++ x :: ts), m.Same ((m.join p (ts.headD hd)).free x) q := by
  obtain ⟨p, hlast, hpx, hxn⟩ := h.around
  obtain ⟨rest, hrest⟩ := exists_append_head hd ts
  generalize ts.headD hd = n at hxn hrest ⊢
  obtain ⟨hx, hothers⟩ := h.apart
  have hp : p ∈ hd :: (ds ++ ts) := List.mem_append_left ts (List.mem_of_getLast? hlast)
  have hbehind {c : κ} (hc : c ∈ n :: rest) : c ∈ hd :: (ds ++ ts) := by
    rw [← hrest] at hc
    rcases List.mem_append.mp hc with hc | hc
    · exact List.mem_cons_of_mem hd (List.mem_append_right ds hc)
    · exact List.mem_singleton.mp hc ▸ List.mem_cons_self
  have hn : n ∈ hd :: (ds ++ ts) := hbehind List.mem_cons_self
  have hne {c : κ} (hc : c ∈ hd :: (ds ++ ts)) : c ≠ x := fun heq => hx (heq ▸ hc)
  have hpn : ((m.join p n).free x).Linked p n :=
    (Cells.join_linked p n m).same (Cells.free_same (hne hp)) (Cells.free_same (hne hn))
  -- Only the links from `p` and back from `n` are new: any other pair that was linked is so still.
  have hkeep {a b : κ} (hab : m.Linked a b) (ha : a ≠ x) (hb : b ≠ x) :
      ((m.join p n).free x).Linked a b := by
    have hap : a ≠ p := by
      rintro rfl
      exact hb (hab.forw_inj hpx)
    have hbn : b ≠ n := by
      rintro rfl
      exact ha (hab.back_inj hxn)
    exact (hab.join hap hbn).same (Cells.free_same ha) (Cells.free_same hb)
  have hsides := h.linked
  rw [List.append_assoc, List.cons_append, List.isChain_cons_split, hrest] at hsides
  obtain ⟨hfront, hback⟩ := hsides
  refine ⟨p, hpx, hxn, ⟨?_, hothers⟩, hpn, fun q hq => ?_⟩
  · rw [List.append_assoc, ← List.cons_append, List.isChain_append, hrest]
    refine ⟨?_, ?_, ?_⟩
    · have hfront' : (hd :: ds).IsChain m.Linked := hfront.left_of_append
      refine hfront'.imp_of_mem_imp (fun a b ha hb hab => hkeep hab ?_ ?_)
      · exact hne (List.mem_append_left ts ha)
      · exact hne (List.mem_append_left ts hb)
    · exact hback.tail.imp_of_mem_imp
        (fun a b ha hb hab => hkeep hab (hne (hbehind ha)) (hne (hbehind hb)))
    · intro a ha b hb
      obtain rfl : p = a := Option.some.inj (hlast.symm.trans ha)
      obtain rfl : n = b := Option.some.inj hb
      exact hpn
  · obtain ⟨hqx, hq⟩ := not_or.mp (mem_middle.not.mp hq)
    have hqp : q ≠ p := fun heq => hq (heq ▸ hp)
    have hqn : q ≠ n := fun heq => hq (heq ▸ hn)
    exact (Cells.join_same hqp hqn).trans (Cells.free_same hqx)

theorem remque (h : Ring m hd (ds ++ x :: ts)) :
    ∃ p m', m.back x = some p ∧ m.forw p = some x ∧ m.remque x = some m' ∧
      Ring (m'.free x) hd (ds ++ ts) ∧ (m'.free x).forw p = some (ts.headD hd) ∧
      (∀ q ∉ hd :: (ds ++ x :: ts), m.Same (m'.free x) q) ∧
      ∀ q, q ≠ x → (m'.free x).val q = m.val q := by
  obtain ⟨p, hpx, hxn, hring, hpn, hsame⟩ := h.unlink
  exact ⟨p, m.join p (ts.headD hd), hpx.2, hpx.1, Cells.remque_eq hpx hxn, hring, hpn.1, hsame,
    fun q hq => Function.update_of_ne hq _ _⟩

/-! ## Elements that stay in memory -/

omit [DecidableEq κ] in
theorem between (h : Ring m hd (ds ++ ts)) :
    ∃ p, (hd :: ds).getLast? = some p ∧ m.Linked p (ts.headD hd) := by
  obtain ⟨ds', p, hp⟩ : ∃ ds' p, hd :: ds = ds' ++ [p] :=
    (List.eq_nil_or_concat' (hd :: ds)).resolve_left (List.cons_ne_nil hd ds)
  obtain ⟨rest, hrest⟩ := exists_append_head hd ts
  have hlinked := h.linked
  have hsplit : hd :: (ds ++ ts ++ [hd]) = ds' ++ p :: ts.headD hd :: rest := by
    rw [List.append_assoc, ← List.cons_append, hp, hrest, List.append_assoc]
    rfl
  rw [hsplit, List.isChain_append_cons_cons] at hlinked
  exact ⟨p, by rw [hp, List.getLast?_concat], hlinked.2.1⟩

omit [DecidableEq κ] in
theorem getLast_of_linked (h : Ring m hd (ds ++ ts)) (hp : m.Linked p (ts.headD hd)) :
    (hd :: ds).getLast? = some p := by
  obtain ⟨q, hq, hlinked⟩ := h.between
  rwa [hp.back_inj hlinked]

omit [DecidableEq κ] in
theorem rotate (h : Ring m hd (ds ++ x :: ts)) : Ring m x (ts ++ hd :: ds) := by
  have hlinked := h.linked
  have hsplit : hd :: (ds ++ x :: ts ++ [hd]) = (hd :: ds) ++ x :: (ts ++ [hd]) := by
    rw [List.append_assoc]
    rfl
  rw [hsplit, List.isChain_split] at hlinked
  refine ⟨?_, ?_⟩
  · have hsplit' : x :: (ts ++ hd :: ds ++ [x]) = (x :: ts) ++ hd :: (ds ++ [x]) := by
      rw [List.append_assoc]
      rfl
    rw [hsplit', List.isChain_split]
    exact ⟨hlinked.2, hlinked.1⟩
  · have hperm : ((x :: ts) ++ (hd :: ds)).Perm ((hd :: ds) ++ (x :: ts)) := List.perm_append_comm
    exact hperm.nodup_iff.mpr h.distinct

omit [DecidableEq κ] in
theorem neighbours (h : Ring m hd xs) (hx : x ∈ hd :: xs) :
    ∃ p ∈ hd :: xs, ∃ n ∈ hd :: xs, m.Linked p x ∧ m.Linked x n := by
  have hhead {zs : List κ} (hzs : zs ⊆ xs) : zs.headD hd ∈ hd :: xs := by
    cases zs with
    | nil => exact List.mem_cons_self
    | cons z zs => exact List.mem_cons_of_mem hd (hzs List.mem_cons_self)
  rcases List.mem_cons.mp hx with rfl | hx
  · have hlast : Ring m x (xs ++ []) := (List.append_nil xs).symm ▸ h
    obtain ⟨p, hp, hpx⟩ := hlast.between
    exact ⟨p, List.mem_of_getLast? hp, _, hhead (List.Subset.refl xs), hpx, h.first⟩
  · obtain ⟨ds, ts, rfl⟩ := List.append_of_mem hx
    obtain ⟨p, hp, hpx, hxn⟩ := h.around
    refine ⟨p, List.mem_append_left (x :: ts) (List.mem_of_getLast? hp), _, ?_, hpx, hxn⟩
    exact hhead (List.Subset.trans (List.subset_cons_self x ts) (List.subset_append_right ds _))

omit [DecidableEq κ] in
theorem map {f : κ → κ} (h : Ring m hd xs)
    (hinj : ∀ a ∈ hd :: xs, ∀ b ∈ hd :: xs, f a = f b → a = b)
    (hlink : ∀ a ∈ hd :: xs, ∀ b ∈ hd :: xs, m.Linked a b → m'.Linked (f a) (f b)) :
    Ring m' (f hd) (xs.map f) := by
  have hmem {c : κ} (hc : c ∈ hd :: (xs ++ [hd])) : c ∈ hd :: xs := by
    rcases List.mem_cons.mp hc with rfl | hc
    · exact List.mem_cons_self
    · exact (List.perm_append_singleton hd xs).mem_iff.mp hc
  refine ⟨?_, ?_⟩
  · have himage : f hd :: (xs.map f ++ [f hd]) = (hd :: (xs ++ [hd])).map f := by
      rw [List.map_cons, List.map_append]
      rfl
    rw [himage, List.isChain_map]
    exact h.linked.imp_of_mem_imp (fun a b ha hb hab => hlink a (hmem ha) b (hmem hb) hab)
  · exact h.distinct.map_on hinj

theorem move (h : Ring m hd xs) (hy : y ∉ hd :: xs) (hp : m.Linked p x) (hn : m.Linked x n) :
    Ring (m.move x y p n) (relabel x y hd) (xs.map (relabel x y)) := by
  have hne {a : κ} (ha : a ∈ hd :: xs) : a ≠ y := fun heq => hy (heq ▸ ha)
  refine h.map (fun a ha b hb hab => relabel_inj (hne ha) (hne hb) hab) (fun a ha b hb hab => ?_)
  by_cases hax : a = x <;> by_cases hbx : b = x
  · subst hax hbx
    obtain rfl := hab.forw_inj hn
    obtain rfl := hp.back_inj hab
    rw [relabel_self]
    exact ⟨by simp [Cells.move], by simp [Cells.move]⟩
  · subst hax
    obtain rfl := hab.forw_inj hn
    have hap : a ≠ p := by
      rintro rfl
      exact hbx (hp.forw_inj hab).symm
    rw [relabel_self, relabel_of_ne hbx]
    exact ⟨by simp [Cells.move, hap, hab.1], by simp [Cells.move, hne hb]⟩
  · subst hbx
    obtain rfl := hab.back_inj hp
    have hbn : b ≠ n := by
      rintro rfl
      exact hax (hab.back_inj hn)
    rw [relabel_self, relabel_of_ne hax]
    exact ⟨by simp [Cells.move, hne ha], by simp [Cells.move, hbn, hab.2]⟩
  · have hap : a ≠ p := by
      rintro rfl
      exact hbx (hab.forw_inj hp)
    have hbn : b ≠ n := by
      rintro rfl
      exact hax (hab.back_inj hn)
    rw [relabel_of_ne hax, relabel_of_ne hbx]
    exact ⟨by simp [Cells.move, hne ha, hap, hab.1], by simp [Cells.move, hne hb, hbn, hab.2]⟩

theorem unlinked (h : Ring m hd (ds ++ x :: ts)) (hp : m.Linked p x) :
    Ring (m.join p (ts.headD hd)) hd (ds ++ ts) := by
  obtain ⟨p', hpx, -, hring, -, -⟩ := h.unlink
  obtain rfl := hp.back_inj hpx
  have hx := h.apart.1
  have hne {q : κ} (hq : q ∈ hd :: (ds ++ ts)) : q ≠ x := fun heq => hx (heq ▸ hq)
  exact hring.congr (fun q hq => (Cells.free_same (hne hq)).forw.symm)
    (fun q hq => (Cells.free_same (hne hq)).back.symm)

theorem insert (h : Ring m hd (ds ++ ts)) (hy : y ∉ hd :: (ds ++ ts))
    (hp : m.Linked p (ts.headD hd)) :
    Ring ((m.join p y).join y (ts.headD hd)) hd (ds ++ y :: ts) := by
  obtain ⟨ds', hds'⟩ := List.getLast?_eq_some_iff.mp (h.getLast_of_linked hp)
  obtain ⟨rest, hrest⟩ := exists_append_head hd ts
  generalize ts.headD hd = n at hp hrest ⊢
  have hmem {q : κ} (hq : q ∈ n :: rest) : q ∈ hd :: (ds ++ ts) := by
    rw [← hrest] at hq
    rcases List.mem_append.mp hq with hq | hq
    · exact List.mem_cons_of_mem hd (List.mem_append_right ds hq)
    · exact List.mem_singleton.mp hq ▸ List.mem_cons_self
  have hne {q : κ} (hq : q ∈ hd :: (ds ++ ts)) : q ≠ y := fun heq => hy (heq ▸ hq)
  have hfront {q : κ} (hq : q ∈ hd :: ds) : q ∈ hd :: (ds ++ ts) := List.mem_append_left ts hq
  have hpy : p ≠ y := hne (hfront (hds' ▸ List.mem_append_right ds' List.mem_cons_self))
  have hny : n ≠ y := hne (hmem List.mem_cons_self)
  obtain ⟨hhd, hdist⟩ := List.nodup_cons.mp h.distinct
  -- Only the link from `p` to `n` is gone: it is the one with `n` behind it.
  have hkeep {a b : κ} (hab : m.Linked a b) (ha : a ≠ y) (hb : b ≠ y) (hbn : b ≠ n) :
      ((m.join p y).join y n).Linked a b := by
    have hap : a ≠ p := by
      rintro rfl
      exact hbn (hab.forw_inj hp)
    exact (hab.join hap hb).join ha hbn
  have hsides := h.linked
  rw [List.append_assoc, hrest, ← List.cons_append, hds', List.append_assoc, List.singleton_append,
    List.isChain_append_cons_cons, ← hds'] at hsides
  obtain ⟨hbefore, -, hbehind⟩ := hsides
  refine ⟨?_, ?_⟩
  · rw [List.append_assoc, List.cons_append, hrest, ← List.cons_append, hds', List.append_assoc,
      List.singleton_append, List.isChain_append_cons_cons, List.isChain_cons_cons, ← hds']
    refine ⟨?_, (Cells.join_linked p y m).join hpy hny.symm, Cells.join_linked y n _, ?_⟩
    · refine hbefore.imp_of_mem_tail_imp (fun a b ha hb hab => ?_)
      have hbds : b ∈ ds := hb
      refine hkeep hab (hne (hfront ha)) (hne (hfront (List.mem_cons_of_mem hd hbds))) ?_
      rintro rfl
      have hnts : b ∈ ts ∨ b = hd := by
        have hb' : b ∈ ts ++ [hd] := hrest ▸ List.mem_cons_self
        exact (List.mem_append.mp hb').imp_right List.mem_singleton.mp
      rcases hnts with hbts | rfl
      · exact List.disjoint_of_nodup_append hdist hbds hbts
      · exact hhd (List.mem_append_left ts hbds)
    · refine hbehind.imp_of_mem_tail_imp (fun a b ha hb hab => ?_)
      have hbrest : b ∈ rest := hb
      refine hkeep hab (hne (hmem ha)) (hne (hmem (List.mem_cons_of_mem n hbrest))) ?_
      rintro rfl
      have hnodup : (b :: rest).Nodup := by
        rw [← hrest]
        have hperm : (ts ++ [hd]).Perm (hd :: ts) := List.perm_append_singleton hd ts
        refine hperm.nodup_iff.mpr (List.nodup_cons.mpr ⟨?_, ?_⟩)
        · exact fun hts => hhd (List.mem_append_right ds hts)
        · exact hdist.of_append_right
      exact (List.nodup_cons.mp hnodup).1 hbrest
  · have hperm : ((hd :: ds) ++ y :: ts).Perm (y :: ((hd :: ds) ++ ts)) := List.perm_middle
    exact hperm.nodup_iff.mpr (List.nodup_cons.mpr ⟨hy, h.distinct⟩)

end Ring

end Netkit.Foundations

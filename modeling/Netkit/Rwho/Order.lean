import Mathlib.Data.List.Lex
import Mathlib.Data.List.Sort
import Mathlib.Order.OrderDual
import Netkit.Rwho.Spool

/-!
# The orders of ruptime

The comparisons are differences that are returned as `int`. Whether they are those of an order
depends on how far the values are apart.

* `orders_iff`: the values for which the comparisons are orders.
-/

namespace Netkit.Rwho

open Netkit.Foundations

/-! ## The functions -/

/-- `struct hs`, as far as it is compared. The name is a string. -/
structure Hs where
  hostname : Bytes
  string : 0 ∉ hostname
  sendtime : ℤ
  recvtime : ℤ
  boottime : ℤ
  loadav : Int32
  nusers : Int32

def isdown (now : ℤ) (h : Hs) : Bool := now - h.recvtime > 11 * 60

def strcmp : Bytes → Bytes → ℤ
  | [], [] => 0
  | [], d :: _ => -d.toNat
  | c :: _, [] => c.toNat
  | c :: a, d :: b => if c = d then strcmp a b else c.toNat - d.toNat

/-- `rflg`, with or without `-r`. -/
def rflg (reverse : Bool) : ℤ := if reverse then -1 else 1

section
variable (reverse : Bool) (now : ℤ) (h₁ h₂ : Hs)

def hscmp : ℤ := rflg reverse * strcmp h₁.hostname h₂.hostname

def time (h : Hs) : ℤ := if isdown now h then h.recvtime - now else h.sendtime - h.boottime

def tcmp : ℤ := int (rflg reverse * (time now h₂ - time now h₁))

def upcmp (field : Hs → Int32) : ℤ :=
  if isdown now h₁ then
    if isdown now h₂ then tcmp reverse now h₁ h₂ else rflg reverse
  else if isdown now h₂ then -rflg reverse
  else int (rflg reverse * int ((field h₂).toInt - (field h₁).toInt))

def lcmp : ℤ := upcmp reverse now h₁ h₂ Hs.loadav

def ucmp : ℤ := upcmp reverse now h₁ h₂ Hs.nusers

end

/-! ## Orders -/

/-- What `-l`, `-u` and `-t` choose. -/
inductive Cmp where
  | hscmp
  | lcmp
  | ucmp
  | tcmp

def Cmp.apply (reverse : Bool) (now : ℤ) : Cmp → Hs → Hs → ℤ
  | .hscmp => Rwho.hscmp reverse
  | .lcmp => Rwho.lcmp reverse now
  | .ucmp => Rwho.ucmp reverse now
  | .tcmp => Rwho.tcmp reverse now

section
variable {α : Type} (cmp : α → α → ℤ) (s : List α)

/-- A three-way comparison of the elements. -/
structure ThreeWay : Prop where
  antisymm : ∀ a ∈ s, ∀ b ∈ s, cmp a b < 0 ↔ 0 < cmp b a
  trans : ∀ a ∈ s, ∀ b ∈ s, ∀ c ∈ s, cmp a b ≤ 0 → cmp b c ≤ 0 → cmp a c ≤ 0

structure IsSorted (r : List α) : Prop where
  perm : r.Perm s
  sorted : r.Pairwise fun a b => cmp a b ≤ 0

def Settled : Prop :=
  ∀ r₁ r₂, IsSorted cmp s r₁ → IsSorted cmp s r₂ →
    ∀ i (h₁ : i < r₁.length) (h₂ : i < r₂.length), cmp r₁[i] r₂[i] = 0

end

def UpFirst (now : ℤ) (cmp : Hs → Hs → ℤ) (hosts : List Hs) : Prop :=
  ∀ r, IsSorted cmp hosts r → r.Pairwise fun a b => isdown now a = true → isdown now b = true

/-- What the orders are for. -/
structure Orders (reverse : Bool) (now : ℤ) (c : Cmp) (hosts : List Hs) : Prop where
  threeWay : ThreeWay (c.apply reverse now) hosts
  settled : Settled (c.apply reverse now) hosts
  upFirst : reverse = false → c = .lcmp ∨ c = .ucmp → UpFirst now (c.apply reverse now) hosts

def HalfTurn (values : List ℤ) : Prop := ∃ base, ∀ v ∈ values, (v - base) % 2 ^ 32 < 2 ^ 31

/-- The hosts that are up are compared by one value, and those that are down by their times. -/
def InRange (now : ℤ) (hosts : List Hs) : Cmp → Prop
  | .hscmp => True
  | .lcmp => HalfTurn ((hosts.filter fun h => !isdown now h).map fun h => h.loadav.toInt) ∧
      HalfTurn ((hosts.filter (isdown now)).map (time now))
  | .ucmp => HalfTurn ((hosts.filter fun h => !isdown now h).map fun h => h.nusers.toInt) ∧
      HalfTurn ((hosts.filter (isdown now)).map (time now))
  | .tcmp => HalfTurn (hosts.map (time now))

/-! ## Comparisons by a key -/

section
variable {α : Type} {cmp : α → α → ℤ} {s : List α}

/-- The comparison is that of the keys. -/
structure Keyed {κ : Type} [LinearOrder κ] (cmp : α → α → ℤ) (s : List α) (key : α → κ) : Prop where
  lt : ∀ a ∈ s, ∀ b ∈ s, cmp a b < 0 ↔ key a < key b
  gt : ∀ a ∈ s, ∀ b ∈ s, 0 < cmp a b ↔ key b < key a

variable {κ : Type} [LinearOrder κ] {key : α → κ}

theorem Keyed.le (K : Keyed cmp s key) {a b : α} (ha : a ∈ s) (hb : b ∈ s) :
    cmp a b ≤ 0 ↔ key a ≤ key b := by
  rw [← not_lt, ← not_lt, K.gt a ha b hb]

theorem Keyed.threeWay (K : Keyed cmp s key) : ThreeWay cmp s := by
  constructor
  · intro a ha b hb
    rw [K.lt a ha b hb, K.gt b hb a ha]
  · intro a ha b hb c hc hab hbc
    rw [K.le ha hb] at hab
    rw [K.le hb hc] at hbc
    exact (K.le ha hc).mpr (hab.trans hbc)

theorem Keyed.settled (K : Keyed cmp s key) : Settled cmp s := by
  have hsorted {r : List α} (hr : IsSorted cmp s r) : (r.map key).Pairwise (· ≤ ·) := by
    apply List.pairwise_map.mpr
    apply hr.sorted.imp_of_mem
    intro a b ha hb hab
    exact (K.le (hr.perm.mem_iff.mp ha) (hr.perm.mem_iff.mp hb)).mp hab
  intro r₁ r₂ hr₁ hr₂ i h₁ h₂
  have hperm : (r₁.map key).Perm (r₂.map key) := (hr₁.perm.trans hr₂.perm.symm).map key
  have hmap : r₁.map key = r₂.map key := hperm.eq_of_pairwise' (hsorted hr₁) (hsorted hr₂)
  have hkey : key r₁[i] = key r₂[i] := by
    have hget := List.getElem_of_eq hmap (by rwa [List.length_map])
    simpa only [List.getElem_map] using hget
  have hmem₁ := hr₁.perm.mem_iff.mp (List.getElem_mem h₁)
  have hmem₂ := hr₂.perm.mem_iff.mp (List.getElem_mem h₂)
  have hlt := (K.lt _ hmem₁ _ hmem₂).not.mpr hkey.not_lt
  have hgt := (K.gt _ hmem₁ _ hmem₂).not.mpr hkey.not_gt
  omega

theorem exists_last (le : α → α → Prop) (hs : s ≠ []) (total : ∀ a ∈ s, ∀ b ∈ s, le a b ∨ le b a)
    (trans : ∀ a ∈ s, ∀ b ∈ s, ∀ c ∈ s, le a b → le b c → le a c) :
    ∃ m ∈ s, ∀ a ∈ s, le a m := by
  induction s with
  | nil => exact absurd rfl hs
  | cons x xs ih =>
    have hx : x ∈ x :: xs := List.mem_cons_self
    have hself : le x x := (total x hx x hx).elim id id
    by_cases hxs : xs = []
    · subst hxs
      exact ⟨x, hx, fun a ha => List.mem_singleton.mp ha ▸ hself⟩
    · have hsub {a : α} (ha : a ∈ xs) : a ∈ x :: xs := List.mem_cons_of_mem x ha
      obtain ⟨m, hm, hlast⟩ := ih hxs (fun a ha b hb => total a (hsub ha) b (hsub hb))
        fun a ha b hb c hc => trans a (hsub ha) b (hsub hb) c (hsub hc)
      rcases total x hx m (hsub hm) with hxm | hmx
      · refine ⟨m, hsub hm, fun a ha => ?_⟩
        rcases List.mem_cons.mp ha with rfl | ha
        · exact hxm
        · exact hlast a ha
      · refine ⟨x, hx, fun a ha => ?_⟩
        rcases List.mem_cons.mp ha with rfl | ha
        · exact hself
        · exact trans a (hsub ha) m (hsub hm) x hx (hlast a ha) hmx

theorem rflg_eq (reverse : Bool) : rflg reverse = 1 ∨ rflg reverse = -1 := by
  cases reverse
  · exact .inl rfl
  · exact .inr rfl

theorem ThreeWay.halfTurn (reverse : Bool) {value : α → ℤ} (H : ThreeWay cmp s)
    (hcmp : ∀ a ∈ s, ∀ b ∈ s, cmp a b = int (rflg reverse * (value b - value a))) :
    HalfTurn (s.map value) := by
  by_cases hs : s = []
  · exact ⟨0, by simp [hs]⟩
  have hsigns (a : α) (ha : a ∈ s) (b : α) (hb : b ∈ s) :=
    And.intro (H.antisymm a ha b hb) (H.antisymm b hb a ha)
  obtain ⟨m, hm, hlast⟩ := exists_last (fun a b => rflg reverse * cmp a b ≤ 0) hs
    (fun a ha b hb => by
      have := hsigns a ha b hb
      rcases rflg_eq reverse with hr | hr <;> rw [hr] <;> omega)
    (fun a ha b hb c hc hab hbc => by
      have := hsigns a ha b hb
      have := hsigns b hb c hc
      have := hsigns a ha c hc
      have := H.trans a ha b hb c hc
      have := H.trans c hc b hb a ha
      rcases rflg_eq reverse with hr | hr <;> rw [hr] at hab hbc ⊢ <;> omega)
  refine ⟨value m, fun v hv => ?_⟩
  obtain ⟨a, ha, rfl⟩ := List.mem_map.mp hv
  have hle := hlast a ha
  have hanti := H.antisymm a ha m hm
  rw [hcmp a ha m hm] at hle
  rw [hcmp a ha m hm, hcmp m hm a ha] at hanti
  simp only [int, Int.bmod_eq_emod] at hle hanti
  rcases rflg_eq reverse with hr | hr <;> rw [hr] at hle hanti <;> split_ifs at hle hanti <;> omega

end

/-! ## The comparisons of ruptime -/

variable {reverse : Bool} {now : ℤ} {hosts : List Hs}

theorem strcmp_swap (a b : Bytes) : strcmp b a = -strcmp a b := by
  induction a, b using strcmp.induct with
  | case1 => rfl
  | case2 d b => simp [strcmp]
  | case3 c a => simp [strcmp]
  | case4 c a b ih => simpa [strcmp] using ih
  | case5 c a d b hcd =>
    rw [strcmp, strcmp, if_neg hcd, if_neg (Ne.symm hcd)]
    omega

theorem strcmp_lt {a b : Bytes} (hb : 0 ∉ b) :
    strcmp a b < 0 ↔ a.map UInt8.toNat < b.map UInt8.toNat := by
  induction a, b using strcmp.induct with
  | case1 => simp [strcmp]
  | case2 d b =>
    have hd : d.toNat ≠ 0 := by
      intro h
      have hzero : d = 0 := UInt8.toNat_inj.mp h
      exact hb (hzero ▸ List.mem_cons_self)
    simp only [strcmp, List.map_nil, List.map_cons, List.nil_lt_cons, iff_true]
    omega
  | case3 c a => simp [strcmp]
  | case4 a c b ih =>
    simpa [strcmp, List.cons_lt_cons_iff] using ih fun h => hb (List.mem_cons_of_mem c h)
  | case5 c a d b hcd =>
    have hne : c.toNat ≠ d.toNat := fun h => hcd (UInt8.toNat_inj.mp h)
    rw [strcmp, if_neg hcd, List.map_cons, List.map_cons, List.cons_lt_cons_iff]
    omega

theorem strcmp_gt {a b : Bytes} (ha : 0 ∉ a) :
    0 < strcmp a b ↔ b.map UInt8.toNat < a.map UInt8.toNat := by
  rw [← strcmp_lt ha, strcmp_swap a b]
  omega

theorem hscmp_orders :
    ThreeWay (hscmp reverse) hosts ∧ Settled (hscmp reverse) hosts := by
  let key (h : Hs) : List ℕ := h.hostname.map UInt8.toNat
  cases reverse with
  | false =>
    have K : Keyed (hscmp false) hosts key :=
      ⟨fun a _ b _ => by simpa [hscmp, rflg] using strcmp_lt b.string,
        fun a _ b _ => by simpa [hscmp, rflg] using strcmp_gt a.string⟩
    exact ⟨K.threeWay, K.settled⟩
  | true =>
    have K : Keyed (hscmp true) hosts fun h => OrderDual.toDual (key h) :=
      ⟨fun a _ b _ => by simpa [hscmp, rflg] using strcmp_gt a.string,
        fun a _ b _ => by simpa [hscmp, rflg] using strcmp_lt b.string⟩
    exact ⟨K.threeWay, K.settled⟩

/-- The place of a value in the half circle, in the direction of the order. -/
def place (reverse : Bool) (base v : ℤ) : ℤ := -(rflg reverse * ((v - base) % 2 ^ 32))

theorem int_place (reverse : Bool) {base a b : ℤ} (ha : (a - base) % 2 ^ 32 < 2 ^ 31)
    (hb : (b - base) % 2 ^ 32 < 2 ^ 31) :
    int (rflg reverse * (b - a)) = place reverse base a - place reverse base b := by
  unfold int place
  rw [Int.bmod_eq_emod]
  rcases rflg_eq reverse with hr | hr <;> rw [hr] <;> split_ifs <;> omega

theorem tcmp_keyed (reverse : Bool) {base : ℤ}
    (h : ∀ v ∈ hosts.map (time now), (v - base) % 2 ^ 32 < 2 ^ 31) :
    Keyed (tcmp reverse now) hosts fun a => place reverse base (time now a) := by
  have hplace (a : Hs) (ha : a ∈ hosts) (b : Hs) (hb : b ∈ hosts) :=
    int_place reverse (h _ (List.mem_map_of_mem ha)) (h _ (List.mem_map_of_mem hb))
  constructor
  · intro a ha b hb
    rw [tcmp, hplace a ha b hb]
    omega
  · intro a ha b hb
    rw [tcmp, hplace a ha b hb]
    omega

theorem tcmp_iff : ThreeWay (tcmp reverse now) hosts ∧ Settled (tcmp reverse now) hosts ↔
    HalfTurn (hosts.map (time now)) := by
  constructor
  · rintro ⟨H, -⟩
    exact H.halfTurn reverse fun _ _ _ _ => rfl
  · rintro ⟨base, h⟩
    have K := tcmp_keyed reverse h
    exact ⟨K.threeWay, K.settled⟩

theorem ThreeWay.mono {α : Type} {cmp : α → α → ℤ} {s t : List α} (H : ThreeWay cmp s)
    (hsub : t ⊆ s) : ThreeWay cmp t :=
  ⟨fun a ha b hb => H.antisymm a (hsub ha) b (hsub hb),
    fun a ha b hb c hc => H.trans a (hsub ha) b (hsub hb) c (hsub hc)⟩

theorem upcmp_iff (field : Hs → Int32) :
    ThreeWay (fun a b => upcmp reverse now a b field) hosts ∧
        Settled (fun a b => upcmp reverse now a b field) hosts ↔
      HalfTurn ((hosts.filter fun h => !isdown now h).map fun h => (field h).toInt) ∧
        HalfTurn ((hosts.filter (isdown now)).map (time now)) := by
  constructor
  · rintro ⟨H, -⟩
    constructor
    · apply (H.mono (List.filter_subset_self _)).halfTurn reverse
      intro a ha b hb
      have hda : isdown now a = false := by simpa using (List.mem_filter.mp ha).2
      have hdb : isdown now b = false := by simpa using (List.mem_filter.mp hb).2
      simp [upcmp, hda, hdb, int, Int.mul_bmod_bmod]
    · apply (H.mono (List.filter_subset_self _)).halfTurn reverse
      intro a ha b hb
      have hda := (List.mem_filter.mp ha).2
      have hdb := (List.mem_filter.mp hb).2
      simp [upcmp, hda, hdb, tcmp]
  · rintro ⟨⟨base, hup⟩, base', hdown⟩
    have hup' {a : Hs} (ha : a ∈ hosts) (hd : isdown now a = false) :=
      hup _ (List.mem_map_of_mem (List.mem_filter.mpr ⟨ha, by simp [hd]⟩))
    have hdown' {a : Hs} (ha : a ∈ hosts) (hd : isdown now a = true) :=
      hdown _ (List.mem_map_of_mem (List.mem_filter.mpr ⟨ha, hd⟩))
    -- The hosts that are down are behind all that are up.
    let key (a : Hs) : ℤ :=
      if isdown now a then rflg reverse * 2 ^ 33 + place reverse base' (time now a)
      else place reverse base (field a).toInt
    have hdiff : ∀ a ∈ hosts, ∀ b ∈ hosts,
        (upcmp reverse now a b field < 0 ↔ key a < key b) ∧
          (0 < upcmp reverse now a b field ↔ key b < key a) := by
      intro a ha b hb
      cases hda : isdown now a <;> cases hdb : isdown now b
      · have hint := int_place reverse (hup' ha hda) (hup' hb hdb)
        simp only [upcmp, key, hda, hdb, Bool.false_eq_true, if_false, int,
          Int.mul_bmod_bmod] at hint ⊢
        rw [hint]
        omega
      · have h := hup' ha hda
        have h' := hdown' hb hdb
        simp only [upcmp, key, hda, hdb, Bool.false_eq_true, if_false, if_true, place]
        rcases rflg_eq reverse with hr | hr <;> rw [hr] <;> omega
      · have h := hdown' ha hda
        have h' := hup' hb hdb
        simp only [upcmp, key, hda, hdb, Bool.false_eq_true, if_false, if_true, place]
        rcases rflg_eq reverse with hr | hr <;> rw [hr] <;> omega
      · have hint := int_place reverse (hdown' ha hda) (hdown' hb hdb)
        simp only [upcmp, key, hda, hdb, if_true, tcmp, hint]
        omega
    have K : Keyed (fun a b => upcmp reverse now a b field) hosts key :=
      ⟨fun a ha b hb => (hdiff a ha b hb).1, fun a ha b hb => (hdiff a ha b hb).2⟩
    exact ⟨K.threeWay, K.settled⟩

theorem upcmp_upFirst (field : Hs → Int32) :
    UpFirst now (fun a b => upcmp false now a b field) hosts := by
  intro r hr
  apply hr.sorted.imp
  intro a b hab hda
  by_contra hdb
  simp [upcmp, hda, hdb, rflg] at hab

theorem orders_of_iff {c : Cmp} {p : Prop}
    (h : ThreeWay (c.apply reverse now) hosts ∧ Settled (c.apply reverse now) hosts ↔ p)
    (hup : reverse = false → c = .lcmp ∨ c = .ucmp → UpFirst now (c.apply reverse now) hosts) :
    Orders reverse now c hosts ↔ p := by
  rw [← h]
  constructor
  · intro H
    exact ⟨H.threeWay, H.settled⟩
  · intro H
    exact ⟨H.1, H.2, hup⟩

/-- The comparisons are orders exactly for the values in a half of the circle. -/
theorem orders_iff (reverse : Bool) (now : ℤ) (c : Cmp) (hosts : List Hs) :
    Orders reverse now c hosts ↔ InRange now hosts c := by
  cases c with
  | hscmp => exact orders_of_iff (iff_of_true hscmp_orders trivial) nofun
  | lcmp => exact orders_of_iff (upcmp_iff Hs.loadav) fun hr _ => hr ▸ upcmp_upFirst Hs.loadav
  | ucmp => exact orders_of_iff (upcmp_iff Hs.nusers) fun hr _ => hr ▸ upcmp_upFirst Hs.nusers
  | tcmp => exact orders_of_iff tcmp_iff nofun

/-- Two hosts whose loads are `2 ^ 31` apart. -/
theorem not_orders :
    ¬ ∀ (reverse : Bool) (now : ℤ) (c : Cmp) (hosts : List Hs), Orders reverse now c hosts := by
  intro h
  have hanti := (h false 0 .lcmp [⟨[97], by decide, 0, 0, 0, 0, 1⟩,
    ⟨[98], by decide, 0, 0, 0, -2 ^ 31, 1⟩]).threeWay.antisymm
    _ List.mem_cons_self _ (List.mem_cons_of_mem _ List.mem_cons_self)
  exact absurd (hanti.mp (by decide)) (by decide)

end Netkit.Rwho

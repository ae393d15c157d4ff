import Netkit.Timed.Hosttbl

/-!
# The hosts of timed

What `addmach`, `remmach` and `rmnetmachs` do to the table of hosts.

* `Integrity`, `integrity`: the table has exactly the hosts that have been added and not removed.
-/

namespace Netkit.Timed.Hosttbl

open Netkit.Foundations

variable {t : Table} {p n p' n' x ret : ℕ}

/-! ## Adding a host -/

/-- The table is ready for the host `name` to be entered into the slot `ret`. -/
structure Ready (hostname name : Bytes) (t : Table) (order : List ℕ) (ret : ℕ) : Prop where
  rings : ∀ p, t.view.list.Linked p 0 → ClosedHash Hosttbl.home 0
    (t.view.enter t.view.chain 0 p ret name (t.view.head ret)) (order ++ [ret])
  list : Ring t.view.list 0 order
  fresh : ret ∉ 0 :: order
  self : (t.slot 0).name = hostname
  free : t.lasthfree ≤ NHOSTS
  count : t.slvcount = order.length
  range : ∀ i ∈ order ++ [ret], i ≤ NHOSTS
  taken : ∀ i ∈ order, (t.slot i).name ≠ []
  empty : ∀ i ∉ 0 :: (order ++ [ret]), i ≤ NHOSTS → (t.slot i).name = []

variable {hostname name : Bytes} {order : List ℕ} {k : ℕ}

theorem prepared_enter {S S' : Slots ℕ Bytes} {c : Cells ℕ Unit} {b : Bool}
    (h : S' = { S with chain := c, head := Function.update S.head ret b }) (p : ℕ) :
    S'.enter S'.chain 0 p ret name (S'.head ret) = S.enter c 0 p ret name b := by
  subst h
  simp [Slots.enter]

theorem Inv.ready_home (H : Inv hostname t order) (hk : Hosttbl.home name = some k)
    (hnew : ∀ i ∈ order, (t.slot i).name ≠ name) (hfree : k ∉ 0 :: order) :
    Ready hostname name (((t.setHead k true).setHFwd k k).setHBak k k) order k := by
  generalize hu : ((t.setHead k true).setHFwd k k).setHBak k k = u
  have hhost : u.host = t.host := by simp [← hu]
  have hname (i : ℕ) : (u.slot i).name = (t.slot i).name := congrArg (fun f => (f i).1) hhost
  have hview : u.view = { t.view with
      chain := t.view.chain.join k k, head := Function.update t.view.head k true } := by
    rw [← hu, Table.setHBak_view, Table.setHFwd_view, Table.setHead_view]
    rfl
  refine ⟨fun p hp => ?_, ?_, hfree, ?_, ?_, ?_, fun i hi => ?_, fun i hi => ?_, fun i hi => ?_⟩
  · rw [prepared_enter hview]
    rw [hview] at hp
    refine H.rings.enterHead hfree ?_ hk hp
    intro hmem
    obtain ⟨i, hi, heq⟩ := List.mem_map.mp hmem
    exact hnew i hi heq
  · rw [hview]
    exact H.rings.list
  · rw [hname, H.self]
  · exact hu ▸ H.free
  · exact hu ▸ H.count
  · rcases List.mem_append.mp hi with hi | hi
    · exact H.range i hi
    · exact List.mem_singleton.mp hi ▸ (home_lt hk).le
  · rw [hname]
    exact H.taken i hi
  · rw [hname]
    exact H.empty i (fun hmem => hi (ClosedHash.mem_snoc hmem k))

theorem Inv.ready_chain (H : Inv hostname t order) (hk : Hosttbl.home name = some k)
    (hnew : ∀ i ∈ order, (t.slot i).name ≠ name) (hmem : k ∈ 0 :: order)
    (hhead : (t.slot k).head = true) (hret : ret ∉ 0 :: order) (hretN : ret ≤ NHOSTS) :
    ∃ t', linkChain k ret t = some t' ∧ Ready hostname name t' order ret ∧ t'.host = t.host := by
  obtain ⟨ys, hring, hsub, -⟩ := H.rings.walk hmem
  obtain ⟨p, hpmem, -, -, hp, -⟩ := hring.neighbours List.mem_cons_self
  have hpret : p ≠ ret := ClosedHash.ne_of_free hret (hsub p hpmem)
  obtain ⟨u, hlink, hview, hhost, hcount, hfree⟩ := linkChain_eq hp hpret
  have hname (i : ℕ) : (u.slot i).name = (t.slot i).name := congrArg (fun f => (f i).1) hhost
  refine ⟨u, hlink, ⟨fun q hq => ?_, ?_, hret, ?_, ?_, ?_, fun i hi => ?_, fun i hi => ?_,
    fun i hi => ?_⟩, hhost⟩
  · rw [prepared_enter hview]
    rw [hview] at hq
    refine H.rings.enterMember hret ?_ hmem hhead hk hq hp
    intro hmem
    obtain ⟨i, hi, heq⟩ := List.mem_map.mp hmem
    exact hnew i hi heq
  · rw [hview]
    exact H.rings.list
  · rw [hname, H.self]
  · exact hfree ▸ H.free
  · exact hcount ▸ H.count
  · rcases List.mem_append.mp hi with hi | hi
    · exact H.range i hi
    · exact List.mem_singleton.mp hi ▸ hretN
  · rw [hname]
    exact H.taken i hi
  · rw [hname]
    exact H.empty i (fun hmem => hi (ClosedHash.mem_snoc hmem ret))

theorem Inv.ready_moved (H : Inv hostname t order) (hk : Hosttbl.home name = some k)
    (hnew : ∀ i ∈ order, (t.slot i).name ≠ name) (hmem : k ∈ 0 :: order)
    (hhead : (t.slot k).head = false) (hret : ret ∉ 0 :: order) (hretN : ret ≤ NHOSTS) :
    ∃ t' order', moveInterloper k ret t = some t' ∧ Ready hostname name t' order' k ∧
      order'.map t'.host = order.map t.host := by
  have hkorder : k ∈ order := by
    rcases List.mem_cons.mp hmem with rfl | hmem
    · exact absurd (hhead.symm.trans H.rings.first) Bool.false_ne_true
    · exact hmem
  obtain ⟨ys, hring, -, -⟩ := H.rings.walk hmem
  obtain ⟨p, -, n, -, hp, hn⟩ := hring.neighbours List.mem_cons_self
  obtain ⟨p', -, n', -, hp', hn'⟩ := H.rings.list.neighbours hmem
  obtain ⟨u, hmove, hview, hhost, hcount, hfree⟩ := moveInterloper_eq (y := ret) hp hn hp' hn'
  have hmoved := H.rings.relocated hkorder hhead hret hp hn hp' hn'
  have hhosts {i : ℕ} (hi : i ∈ 0 :: order) : u.host (relabel k ret i) = t.host i := by
    rw [hhost]
    by_cases hik : i = k
    · rw [hik, relabel_self, Function.update_self]
    · rw [relabel_of_ne hik, Function.update_of_ne (ClosedHash.ne_of_free hret hi)]
  have hname {i : ℕ} (hi : i ∈ 0 :: order) :
      (u.slot (relabel k ret i)).name = (t.slot i).name := congrArg Prod.fst (hhosts hi)
  have h0 : relabel k ret 0 = 0 := relabel_of_ne (H.rings.ne_first hkorder) ret
  have hkfree : k ∉ 0 :: order.map (relabel k ret) := by
    intro hkmem
    rcases List.mem_cons.mp hkmem with heq | hkmem
    · exact H.rings.ne_first hkorder heq.symm
    · obtain ⟨i, hi, heq⟩ := List.mem_map.mp hkmem
      by_cases hik : i = k
      · rw [hik, relabel_self] at heq
        exact hret (heq ▸ hmem)
      · rw [relabel_of_ne hik] at heq
        exact hik heq
  refine ⟨u, order.map (relabel k ret), hmove, ⟨fun q hq => ?_, ?_, hkfree, ?_, ?_, ?_,
    fun i hi => ?_, fun i hi => ?_, fun i hi hiN => ?_⟩, ?_⟩
  · rw [prepared_enter hview]
    rw [hview] at hq
    refine hmoved.enterHead hkfree ?_ hk hq
    intro hkeys
    obtain ⟨i', hi', heq⟩ := List.mem_map.mp hkeys
    obtain ⟨i, hi, rfl⟩ := List.mem_map.mp hi'
    rw [ClosedHash.move_key hret hi] at heq
    exact hnew i hi heq
  · rw [hview]
    exact hmoved.list
  · have hself := hname (i := 0) List.mem_cons_self
    rwa [h0, H.self] at hself
  · exact hfree ▸ H.free
  · rw [hcount, H.count, List.length_map]
  · rcases List.mem_append.mp hi with hi | hi
    · obtain ⟨j, hj, rfl⟩ := List.mem_map.mp hi
      by_cases hjk : j = k
      · rwa [hjk, relabel_self]
      · rw [relabel_of_ne hjk]
        exact H.range j hj
    · exact List.mem_singleton.mp hi ▸ (home_lt hk).le
  · obtain ⟨j, hj, rfl⟩ := List.mem_map.mp hi
    rw [hname (List.mem_cons_of_mem 0 hj)]
    exact H.taken j hj
  · -- A slot that is free now has been free.
    have hik : i ≠ k := by
      rintro rfl
      exact hi (List.mem_cons_of_mem 0 (List.mem_append_right _ List.mem_cons_self))
    have hiret : i ≠ ret := by
      rintro rfl
      have himage : i ∈ order.map (relabel k i) := by
        have himage := List.mem_map_of_mem (f := relabel k i) hkorder
        rwa [relabel_self] at himage
      exact hi (List.mem_cons_of_mem 0 (List.mem_append_left _ himage))
    have hiorder : i ∉ 0 :: order := by
      intro hiorder
      have himage := List.mem_map_of_mem (f := relabel k ret) hiorder
      rw [relabel_of_ne hik, List.map_cons, h0] at himage
      exact hi (ClosedHash.mem_snoc himage k)
    have hsame : u.host i = t.host i := by
      rw [hhost, Function.update_of_ne hiret]
    exact (congrArg Prod.fst hsame).trans (H.empty i hiorder hiN)
  · rw [List.map_map]
    exact List.map_congr_left fun i hi => hhosts (List.mem_cons_of_mem 0 hi)

theorem Inv.newSlot_spec (H : Inv hostname t order) (hhost : hostname ≠ [])
    (hk : Hosttbl.home name = some k) (hnew : ∀ i ∈ order, (t.slot i).name ≠ name)
    (hroom : order.length < NHOSTS) :
    ∃ ret t' order', newSlot k t = some (ret, t') ∧ Ready hostname name t' order' ret ∧
      order'.map t'.host = order.map t.host := by
  unfold newSlot
  by_cases hempty : (t.slot k).name = []
  · have hkfree : k ∉ 0 :: order := by
      intro hmem
      rcases List.mem_cons.mp hmem with rfl | hmem
      · exact hhost (H.self.symm.trans hempty)
      · exact H.taken k hmem hempty
    refine ⟨k, _, order, if_neg (not_not_intro hempty), H.ready_home hk hnew hkfree, ?_⟩
    simp
  · have hmem := H.mem_of_name (home_lt hk).le hempty
    obtain ⟨ret, lasthfree, hslot, hret, hretN, hfree⟩ := H.freeSlot_spec hhost hroom
    have H' : Inv hostname { t with lasthfree := lasthfree } order :=
      ⟨H.rings, H.self, hfree, H.count, H.range, H.taken, H.empty⟩
    simp only [if_pos hempty, hslot, Option.bind_eq_bind, Option.bind_some]
    cases hhead : (t.slot k).head with
    | false =>
      obtain ⟨u, order', hmove, hready, hhosts⟩ :=
        H'.ready_moved hk hnew hmem hhead hret hretN
      exact ⟨k, u, order', by simp [hmove], hready, hhosts⟩
    | true =>
      obtain ⟨u, hlink, hready, hhosts⟩ := H'.ready_chain hk hnew hmem hhead hret hretN
      exact ⟨ret, u, order, by simp [hlink], hready, congrArg order.map hhosts⟩

theorem Ready.enter_spec (R : Ready hostname name t order ret) (good : Bytes → Bool)
    {hname : HostName} (hval : hname.val = name) (hne : name ≠ []) (ntp : ℕ) :
    ∃ t', enter good hname ntp ret t = some t' ∧ Inv hostname t' (order ++ [ret]) ∧
      (order ++ [ret]).map t'.host = order.map t.host ++ [(name, ntp)] := by
  subst hval
  obtain ⟨p, hpmem, -, -, hp, -⟩ := R.list.neighbours List.mem_cons_self
  have hret0 : ret ≠ 0 := fun heq => R.fresh (heq ▸ List.mem_cons_self)
  obtain ⟨u, henter, hview, hhost, hcount, hfree⟩ :=
    enter_eq good hname ntp hp (ClosedHash.ne_of_free R.fresh hpmem) hret0
  have hold {i : ℕ} (hi : i ≠ ret) : u.host i = t.host i := by
    rw [hhost, Function.update_of_ne hi]
  have hnew : u.host ret = (hname.val, ntp) := by
    rw [hhost, Function.update_self]
  have hfresh {i : ℕ} (hi : i ∈ order) : i ≠ ret :=
    ClosedHash.ne_of_free R.fresh (List.mem_cons_of_mem 0 hi)
  refine ⟨u, henter, ⟨?_, ?_, ?_, ?_, R.range, fun i hi => ?_, fun i hi hiN => ?_⟩, ?_⟩
  · rw [hview]
    exact R.rings p hp
  · exact (congrArg Prod.fst (hold hret0.symm)).trans R.self
  · exact hfree ▸ R.free
  · rw [hcount, R.count, List.length_append, List.length_singleton]
  · rcases List.mem_append.mp hi with hi | hi
    · exact fun heq => R.taken i hi ((congrArg Prod.fst (hold (hfresh hi))).symm.trans heq)
    · rw [List.mem_singleton.mp hi]
      exact fun heq => hne ((congrArg Prod.fst hnew).symm.trans heq)
  · have hiret : i ≠ ret := by
      rintro rfl
      exact hi (List.mem_cons_of_mem 0 (List.mem_append_right order List.mem_cons_self))
    exact (congrArg Prod.fst (hold hiret)).trans (R.empty i hi hiN)
  · rw [List.map_append, List.map_singleton, hnew,
      List.map_congr_left fun i hi => hold (hfresh hi)]

theorem Inv.congr {t' : Table} (H : Inv hostname t order) (hview : t'.view = t.view)
    (hcount : t'.slvcount = t.slvcount) (hfree : t'.lasthfree = t.lasthfree) :
    Inv hostname t' order := by
  have hname (i : ℕ) : (t'.slot i).name = (t.slot i).name := congrArg (fun S => S.key i) hview
  refine ⟨hview ▸ H.rings, (hname 0).trans H.self, hfree ▸ H.free, hcount ▸ H.count, H.range,
    fun i hi => ?_, fun i hi hiN => ?_⟩
  · rw [hname]
    exact H.taken i hi
  · rw [hname]
    exact H.empty i hi hiN

theorem Inv.addmach_spec (H : Inv hostname t order) (hhost : hostname ≠ []) (good : Bytes → Bool)
    {hname : HostName} (hproper : Proper hostname hname) (ntp : ℕ) :
    ∃ t' order', addmach good hname ntp t = some t' ∧ Inv hostname t' order' ∧
      order'.map t'.host = register (order.map t.host) (.addmach hname ntp) := by
  obtain ⟨k, found, hfind, hk, hfound⟩ := H.findhost_eq hhost hproper
  unfold addmach
  simp only [hfind, Option.bind_eq_bind, Option.bind_some]
  cases found with
  | some i =>
    obtain ⟨hi, hname'⟩ := (hfound i).mp rfl
    have hmem : hname.val ∈ (order.map t.host).map Prod.fst :=
      List.mem_map.mpr ⟨t.host i, List.mem_map_of_mem hi, hname'⟩
    refine ⟨_, order, rfl, H.congr ?_ rfl rfl, ?_⟩
    · refine Table.modify_view _ ?_ ?_ ?_ ?_ ?_ ?_ <;> exact fun _ => rfl
    · rw [register, if_pos (Or.inl hmem)]
      refine congrArg order.map (Table.modify_host _ ?_ ?_) <;> exact fun _ => rfl
  | none =>
    have hnew : ∀ i ∈ order, (t.slot i).name ≠ hname := fun i hi heq =>
      Option.some_ne_none i ((hfound i).mpr ⟨hi, heq⟩).symm
    have hmem : hname.val ∉ (order.map t.host).map Prod.fst := by
      intro hmem
      obtain ⟨x, hx, heq⟩ := List.mem_map.mp hmem
      obtain ⟨i, hi, rfl⟩ := List.mem_map.mp hx
      exact hnew i hi heq
    simp only [register, hmem, false_or, List.length_map, ← H.count]
    by_cases hfull : NHOSTS ≤ t.slvcount
    · exact ⟨t, order, by simp [hfull], H, by simp [hfull]⟩
    · have hroom : order.length < NHOSTS := H.count ▸ not_le.mp hfull
      obtain ⟨ret, u, order', hslot, hready, hhosts⟩ := H.newSlot_spec hhost hk hnew hroom
      obtain ⟨v, henter, hinv, hhosts'⟩ := hready.enter_spec good rfl hproper.nonempty ntp
      refine ⟨v, order' ++ [ret], ?_, hinv, ?_⟩
      · simp [hfull, hslot, henter]
      · rw [if_neg hfull, hhosts', hhosts]

/-! ## Removing a host -/

theorem Inv.released {i : ℕ} (hrings : ClosedHash Hosttbl.home 0 t.view order)
    (hi : i ∉ 0 :: order) (hiN : i ≤ NHOSTS) (hself : (t.slot 0).name = hostname)
    (hcount : t.slvcount = order.length + 1) (hrange : ∀ j ∈ order, j ≤ NHOSTS)
    (htaken : ∀ j ∈ order, (t.slot j).name ≠ [])
    (hempty : ∀ j ∉ 0 :: order, j ≠ i → j ≤ NHOSTS → (t.slot j).name = []) :
    Inv hostname (t.release i) order := by
  have hslot {j : ℕ} (hj : j ∈ 0 :: order) : (t.release i).slot j = t.slot j :=
    release_slot t (ClosedHash.ne_of_free hi hj)
  refine ⟨?_, ?_, hiN, ?_, hrange, fun j hj => ?_, fun j hj hjN => ?_⟩
  · exact hrings.congr fun j hj => release_same t (ClosedHash.ne_of_free hi hj)
  · rw [hslot List.mem_cons_self, hself]
  · exact (congrArg (· - 1) hcount).trans (Nat.add_sub_cancel order.length 1)
  · rw [hslot (List.mem_cons_of_mem 0 hj)]
    exact htaken j hj
  · by_cases hji : j = i
    · rw [hji, release_name]
    · rw [release_slot t hji]
      exact hempty j hj hji hjN

theorem Inv.erase_eq {ds ts : List ℕ} (H : Inv hostname t (ds ++ x :: ts)) :
    (ds ++ x :: ts).erase x = ds ++ ts := by
  have hxds : x ∉ ds := fun hxds =>
    List.disjoint_of_nodup_append H.rings.nodup hxds List.mem_cons_self
  rw [List.erase_append_right _ hxds, List.erase_cons_head]

theorem Inv.mem_others {ds ts : List ℕ} (H : Inv hostname t (ds ++ x :: ts)) {i : ℕ} :
    i ∈ ds ++ ts ↔ i ≠ x ∧ i ∈ ds ++ x :: ts := by
  rw [← H.erase_eq, H.rings.mem_erase]

theorem Inv.mem_cons_others {ds ts : List ℕ} (H : Inv hostname t (ds ++ x :: ts)) {i : ℕ}
    (hix : i ≠ x) (hi : i ∈ 0 :: (ds ++ x :: ts)) : i ∈ 0 :: (ds ++ ts) := by
  rcases List.mem_cons.mp hi with rfl | hi
  · exact List.mem_cons_self
  · exact List.mem_cons_of_mem 0 (H.mem_others.mpr ⟨hix, hi⟩)

theorem Inv.count_others {ds ts : List ℕ} (H : Inv hostname t (ds ++ x :: ts)) :
    t.slvcount = (ds ++ ts).length + 1 := by
  rw [H.count]
  simp only [List.length_append, List.length_cons]
  omega

theorem Inv.not_mem_others {ds ts : List ℕ} (H : Inv hostname t (ds ++ x :: ts)) :
    x ∉ 0 :: (ds ++ ts) := by
  intro hx
  rcases List.mem_cons.mp hx with rfl | hx
  · exact H.rings.ne_first (List.mem_append_right ds List.mem_cons_self) rfl
  · exact (H.mem_others.mp hx).1 rfl

theorem Inv.dropped_spec {ds ts : List ℕ} {u : Table} (H : Inv hostname t (ds ++ x :: ts))
    (hlone : (t.slot x).head = true → n = x) (hp : t.view.chain.Linked p x)
    (hn : t.view.chain.Linked x n) (hp' : t.view.list.Linked p' x) (hn' : t.view.list.Linked x n')
    (hview : u.view = t.view.unlink p n p' n') (hhost : u.host = t.host)
    (hcount : u.slvcount = t.slvcount) :
    Inv hostname (u.release x) (ds ++ ts) ∧ ∀ i ∈ ds ++ ts, (u.release x).host i = t.host i := by
  have hx : x ∈ ds ++ x :: ts := List.mem_append_right ds List.mem_cons_self
  have hname (i : ℕ) : (u.slot i).name = (t.slot i).name := congrArg (fun f => (f i).1) hhost
  have hdropped := H.rings.dropped hx hlone hp hn hp' hn'
  rw [H.erase_eq, ← hview] at hdropped
  refine ⟨Inv.released hdropped H.not_mem_others (H.range x hx) ((hname 0).trans H.self)
    (hcount.trans H.count_others) (fun j hj => H.range j (H.mem_others.mp hj).2)
    (fun j hj => ?_) (fun j hj hjx hjN => ?_), fun i hi => ?_⟩
  · rw [hname]
    exact H.taken j (H.mem_others.mp hj).2
  · rw [hname]
    exact H.empty j (fun hjmem => hj (H.mem_cons_others hjx hjmem)) hjN
  · rw [release_host u (H.mem_others.mp hi).1, hhost]

theorem Inv.pulled_spec {ds ts : List ℕ} {u : Table} (H : Inv hostname t (ds ++ x :: ts))
    (hhead : (t.slot x).head = true) (hnx : n ≠ x) (hp : t.view.chain.Linked p x)
    (hn : t.view.chain.Linked x n) (hp' : t.view.list.Linked p' x) (hn' : t.view.list.Linked x n')
    (hview : u.view = t.view.unlink p n p' n') (hhost : u.host = t.host)
    (hcount : u.slvcount = t.slvcount) :
    ∃ v, pullUp x n u = some v ∧ Inv hostname (v.release n) ((ds ++ ts).map (relabel n x)) ∧
      relabel n x 0 = 0 ∧
      ∀ i ∈ ds ++ ts, (v.release n).host (relabel n x i) = t.host i := by
  have hx : x ∈ ds ++ x :: ts := List.mem_append_right ds List.mem_cons_self
  obtain ⟨zs, hzs⟩ := H.rings.chain_cons hx hhead hnx hn
  have hnorder : n ∈ ds ++ x :: ts := ((hzs.mem n).mp List.mem_cons_self).1
  have hnothers : n ∈ ds ++ ts := H.mem_others.mpr ⟨hnx, hnorder⟩
  have hncons : n ∈ 0 :: (ds ++ x :: ts).erase x :=
    List.mem_cons_of_mem 0 (H.erase_eq.symm ▸ hnothers)
  -- The links of the next one, after the host has been taken out.
  have hpromoted := H.rings.promoted hx hhead hnx hp hn hp' hn'
  obtain ⟨ws, hwring, -, -⟩ := hpromoted.walk hncons
  obtain ⟨q, -, m, -, hq, hm⟩ := hwring.neighbours List.mem_cons_self
  obtain ⟨q', -, m', -, hq', hm'⟩ := hpromoted.list.neighbours hncons
  have hpulled := H.rings.pulled hx hhead hnx hp hn hp' hn' hq hm hq' hm'
  obtain ⟨v, hpullUp, hvview, hvhost, hvcount⟩ := pullUp_eq (t := u) (x := x) (y := n)
    (hview ▸ hq) (hview ▸ hm) (hview ▸ hq') (hview ▸ hm')
  rw [H.erase_eq, ← hview, ← hvview] at hpulled
  have hhosts {i : ℕ} (hi : i ∈ 0 :: (ds ++ ts)) : v.host (relabel n x i) = t.host i := by
    rw [hvhost, hhost]
    by_cases hin : i = n
    · rw [hin, relabel_self, Function.update_self]
    · rw [relabel_of_ne hin, Function.update_of_ne (ClosedHash.ne_of_free H.not_mem_others hi)]
  have hname {i : ℕ} (hi : i ∈ 0 :: (ds ++ ts)) :
      (v.slot (relabel n x i)).name = (t.slot i).name := congrArg Prod.fst (hhosts hi)
  have h0 : relabel n x 0 = 0 := relabel_of_ne (H.rings.ne_first hnorder) x
  have hmoved {i : ℕ} : relabel n x i ≠ n := by
    by_cases hin : i = n
    · rw [hin, relabel_self]
      exact hnx.symm
    · rwa [relabel_of_ne hin]
  have hnfree : n ∉ 0 :: (ds ++ ts).map (relabel n x) := by
    intro hnmem
    rcases List.mem_cons.mp hnmem with heq | hnmem
    · exact H.rings.ne_first hnorder heq.symm
    · obtain ⟨i, -, heq⟩ := List.mem_map.mp hnmem
      exact hmoved heq
  refine ⟨v, hpullUp, Inv.released hpulled hnfree (H.range n hnorder) ?_ ?_ (fun j hj => ?_)
    (fun j hj => ?_) (fun j hj hjn hjN => ?_), h0, fun i hi => ?_⟩
  · have hself := hname (i := 0) List.mem_cons_self
    rwa [h0, H.self] at hself
  · rw [hvcount, hcount, H.count_others, List.length_map]
  · obtain ⟨i, hi, rfl⟩ := List.mem_map.mp hj
    by_cases hin : i = n
    · rw [hin, relabel_self]
      exact H.range x hx
    · rw [relabel_of_ne hin]
      exact H.range i (H.mem_others.mp hi).2
  · obtain ⟨i, hi, rfl⟩ := List.mem_map.mp hj
    rw [hname (List.mem_cons_of_mem 0 hi)]
    exact H.taken i (H.mem_others.mp hi).2
  · have hjx : j ≠ x := by
      rintro rfl
      have himage := List.mem_map_of_mem (f := relabel n j) hnothers
      rw [relabel_self] at himage
      exact hj (List.mem_cons_of_mem 0 himage)
    have hsame : v.host j = t.host j := by
      rw [hvhost, Function.update_of_ne hjx, hhost]
    refine (congrArg Prod.fst hsame).trans (H.empty j (fun hjmem => hj ?_) hjN)
    have himage := List.mem_map_of_mem (f := relabel n x) (H.mem_cons_others hjx hjmem)
    rwa [relabel_of_ne hjn, List.map_cons, h0] at himage
  · rw [release_host v hmoved]
    exact hhosts (List.mem_cons_of_mem 0 hi)

/-- What `remmach` does: `r` says where the other hosts are afterwards. -/
theorem Inv.remmach_spec {ds ts : List ℕ} (H : Inv hostname t (ds ++ x :: ts)) :
    ∃ r t' p, remmach x t = some (r p, t') ∧ (0 :: ds).getLast? = some p ∧
      Inv hostname t' ((ds ++ ts).map r) ∧ r 0 = 0 ∧ ∀ i ∈ ds ++ ts, t'.host (r i) = t.host i := by
  have hx : x ∈ 0 :: (ds ++ x :: ts) :=
    List.mem_cons_of_mem 0 (List.mem_append_right ds List.mem_cons_self)
  obtain ⟨ys, hring, -, -⟩ := H.rings.walk hx
  obtain ⟨p, -, n, -, hp, hn⟩ := hring.neighbours List.mem_cons_self
  obtain ⟨p', hlast, hp', hn'⟩ := H.rings.list.around
  obtain ⟨u, hout, hview, hhost, hcount⟩ := getOut_eq hp hn hp' hn'
  have hlb : (t.slot x).lBak = some p' := hp'.2
  have hhf : (t.slot x).hFwd = some n := hn.1
  have hhead : (u.slot x).head = (t.slot x).head := congrArg (fun S => S.head x) hview
  simp only [remmach, hlb, hhf, hout, Option.bind_eq_bind, Option.bind_some, hhead]
  by_cases hpull : (t.slot x).head = true ∧ n ≠ x
  · obtain ⟨v, hpullUp, hinv, h0, hhosts⟩ :=
      H.pulled_spec hpull.1 hpull.2 hp hn hp' hn' hview hhost hcount
    refine ⟨relabel n x, v.release n, p', ?_, hlast, hinv, h0, hhosts⟩
    simp [hpull, hpullUp, relabel, Function.update_apply]
  · have hlone : (t.slot x).head = true → n = x := fun hheadx => by
      by_contra hnx
      exact hpull ⟨hheadx, hnx⟩
    obtain ⟨hinv, hhosts⟩ := H.dropped_spec hlone hp hn hp' hn' hview hhost hcount
    exact ⟨id, u.release x, p', by simp [hpull], hlast, (List.map_id _).symm ▸ hinv, rfl, hhosts⟩

/-- The loop of `rmnetmachs` is at the host after those in `ds`, that stay. -/
theorem Inv.rmnetmachsFrom_spec (ntp : ℕ) {ds ts : List ℕ} {fuel : ℕ}
    (H : Inv hostname t (ds ++ ts)) (hfuel : ts.length < fuel) :
    ∃ t' order', rmnetmachsFrom ntp fuel (ts.headD 0) t = some t' ∧ Inv hostname t' order' ∧
      order'.map t'.host = ds.map t.host ++ (ts.map t.host).filter fun x => x.2 != ntp := by
  induction fuel generalizing ds ts t with
  | zero => exact absurd hfuel (Nat.not_lt_zero _)
  | succ fuel ih =>
    cases ts with
    | nil =>
      refine ⟨t, ds ++ [], rfl, H, ?_⟩
      rw [List.map_append, List.map_nil, List.filter_nil]
    | cons x ts =>
      have hx : x ∈ ds ++ x :: ts := List.mem_append_right ds List.mem_cons_self
      have hx0 : x ≠ 0 := (H.rings.ne_first hx).symm
      have hfuel' : ts.length < fuel := Nat.lt_of_succ_lt_succ hfuel
      rw [List.headD_cons, rmnetmachsFrom, if_neg hx0]
      by_cases hntp : ntp = (t.slot x).ntp
      · obtain ⟨r, u, p, hrem, hlast, hinv, hr0, hhosts⟩ := H.remmach_spec
        rw [List.map_append] at hinv
        -- The loop goes on behind the host before.
        have hnext : (u.slot (r p)).lFwd = some ((ts.map r).headD 0) := by
          obtain ⟨q, hq, hlinked⟩ := hinv.rings.list.between
          have hmap := congrArg (Option.map r) hlast
          rw [← List.getLast?_map, List.map_cons, hr0, Option.map_some] at hmap
          exact Option.some.inj (hq.symm.trans hmap) ▸ hlinked.1
        obtain ⟨v, order', hloop, hinv', hhosts'⟩ := ih hinv ((List.length_map r).symm ▸ hfuel')
        refine ⟨v, order', ?_, hinv', ?_⟩
        · simp only [if_pos hntp, hrem, hnext, hloop, Option.bind_eq_bind, Option.bind_some]
        · have hold {zs : List ℕ} (hzs : zs ⊆ ds ++ ts) :
              (zs.map r).map u.host = zs.map t.host := by
            rw [List.map_map]
            exact List.map_congr_left fun i hi => hhosts i (hzs hi)
          rw [hhosts', hold (List.subset_append_left ds ts),
            hold (List.subset_append_right ds ts), List.map_cons, List.filter_cons_of_neg]
          simp [Table.host, hntp]
      · have hnext : (t.slot x).lFwd = some (ts.headD 0) := H.rings.list.next
        have hinv : Inv hostname t ((ds ++ [x]) ++ ts) := by
          rwa [List.append_assoc, List.singleton_append]
        obtain ⟨v, order', hloop, hinv', hhosts'⟩ := ih hinv hfuel'
        refine ⟨v, order', ?_, hinv', ?_⟩
        · simp only [if_neg hntp, hnext, hloop, Option.bind_eq_bind, Option.bind_some]
        · rw [hhosts', List.map_append, List.append_assoc, List.map_singleton,
            List.singleton_append, List.map_cons, List.filter_cons_of_pos]
          simp [Table.host, Ne.symm hntp]

theorem Inv.rmnetmachs_spec (H : Inv hostname t order) (ntp : ℕ) :
    ∃ t' order', rmnetmachs ntp t = some t' ∧ Inv hostname t' order' ∧
      order'.map t'.host = register (order.map t.host) (.rmnetmachs ntp) := by
  have hfirst : (t.slot 0).lFwd = some (order.headD 0) := H.rings.list.start
  have hlength := H.length_le H.nodup (fun i hi => hi)
  rw [List.length_cons] at hlength
  have H' : Inv hostname t ([] ++ order) := H
  obtain ⟨u, order', hloop, hinv, hhosts⟩ :=
    H'.rmnetmachsFrom_spec ntp (Nat.lt_of_succ_le hlength)
  refine ⟨u, order', ?_, hinv, hhosts⟩
  rw [rmnetmachs, hfirst, Option.bind_eq_bind, Option.bind_some, hloop]

theorem Inv.filter_hosts {ds ts : List ℕ} (H : Inv hostname t (ds ++ x :: ts)) :
    ((ds ++ x :: ts).map t.host).filter (fun y => y.1 != (t.slot x).name) =
      (ds ++ ts).map t.host := by
  have hkeep {zs : List ℕ} (hzs : zs ⊆ ds ++ x :: ts) (hxzs : x ∉ zs) :
      (zs.map t.host).filter (fun y => y.1 != (t.slot x).name) = zs.map t.host := by
    refine List.filter_eq_self.mpr (fun y hy => ?_)
    obtain ⟨i, hi, rfl⟩ := List.mem_map.mp hy
    refine bne_iff_ne.mpr (fun heq => hxzs ?_)
    exact H.name_inj (hzs hi) (List.mem_append_right ds List.mem_cons_self) heq ▸ hi
  obtain ⟨-, hxts, hdisjoint⟩ := List.nodup_append.mp (List.nodup_cons.mp H.nodup).2
  have hds := hkeep (List.subset_append_left ds _) fun hxds =>
    hdisjoint x hxds x List.mem_cons_self rfl
  have hsub := List.Subset.trans (List.subset_cons_self x ts) (List.subset_append_right ds _)
  have hts := hkeep hsub (List.nodup_cons.mp hxts).1
  rw [List.map_append, List.filter_append, hds, List.map_cons, List.filter_cons_of_neg, hts,
    List.map_append]
  simp [Table.host]

theorem Inv.step_remmach (H : Inv hostname t order) (hhost : hostname ≠ []) (good : Bytes → Bool)
    {hname : HostName} (hproper : Proper hostname hname) :
    ∃ t' order', step good t (.remmach hname) = some t' ∧ Inv hostname t' order' ∧
      order'.map t'.host = register (order.map t.host) (.remmach hname) := by
  obtain ⟨k, found, hfind, -, hfound⟩ := H.findhost_eq hhost hproper
  simp only [step, hfind, Option.bind_eq_bind, Option.bind_some]
  cases found with
  | none =>
    refine ⟨t, order, rfl, H, (List.filter_eq_self.mpr fun y hy => ?_).symm⟩
    obtain ⟨i, hi, rfl⟩ := List.mem_map.mp hy
    refine bne_iff_ne.mpr (fun heq => ?_)
    exact Option.some_ne_none i ((hfound i).mpr ⟨hi, heq⟩).symm
  | some x =>
    obtain ⟨hx, hslot⟩ := (hfound x).mp rfl
    obtain ⟨ds, ts, rfl⟩ := List.append_of_mem hx
    obtain ⟨r, u, p, hrem, -, hinv, -, hhosts⟩ := H.remmach_spec
    refine ⟨u, (ds ++ ts).map r, ?_, hinv, ?_⟩
    · simp only [hrem, Option.map_some]
    · rw [register, ← hslot, H.filter_hosts, List.map_map]
      exact List.map_congr_left hhosts

/-! ## Runs -/

def Op.Proper (hostname : Bytes) : Op → Prop
  | .addmach name _ => Hosttbl.Proper hostname name
  | .remmach name => Hosttbl.Proper hostname name
  | .rmnetmachs _ => True

theorem Inv.step_spec (H : Inv hostname t order) (hhost : hostname ≠ []) (good : Bytes → Bool)
    {op : Op} (hproper : op.Proper hostname) :
    ∃ t' order', step good t op = some t' ∧ Inv hostname t' order' ∧
      order'.map t'.host = register (order.map t.host) op := by
  cases op with
  | addmach name ntp => exact H.addmach_spec hhost good hproper ntp
  | remmach name => exact H.step_remmach hhost good hproper
  | rmnetmachs ntp => exact H.rmnetmachs_spec ntp

theorem start_inv (hostname : Bytes) : Inv hostname (Table.start hostname) [] := by
  refine ⟨⟨?_, rfl, ?_, ?_, List.nodup_nil⟩, rfl, Nat.zero_le _, rfl, ?_, ?_, ?_⟩
  · exact ⟨List.isChain_pair.mpr ⟨rfl, rfl⟩, List.nodup_singleton 0⟩
  · intro k hk _
    obtain rfl := List.mem_singleton.mp hk
    refine ⟨[], ⟨List.isChain_pair.mpr ⟨rfl, rfl⟩, List.nodup_singleton 0⟩, fun i => ?_⟩
    exact iff_of_false List.not_mem_nil fun h => List.not_mem_nil h.1
  · exact fun i hi => absurd hi List.not_mem_nil
  · exact fun i hi => absurd hi List.not_mem_nil
  · exact fun i hi => absurd hi List.not_mem_nil
  · intro i hi _
    exact congrArg Slot.name (if_neg fun heq => hi (List.mem_singleton.mpr heq))

theorem run_inv {hosts : List Host} (H : Inv hostname t order) (hhosts : order.map t.host = hosts)
    (hhost : hostname ≠ []) (good : Bytes → Bool) (ops : List Op)
    (hproper : ∀ op ∈ ops, op.Proper hostname) :
    ∃ t' order', run (step good) t ops = some t' ∧ Inv hostname t' order' ∧
      order'.map t'.host = ops.foldl register hosts := by
  induction ops generalizing t order hosts with
  | nil => exact ⟨t, order, rfl, H, hhosts⟩
  | cons op ops ih =>
    obtain ⟨u, order', hstep, hinv, hhosts'⟩ :=
      H.step_spec hhost good (hproper op List.mem_cons_self)
    obtain ⟨v, order'', hrun, hinv', hhosts''⟩ := ih hinv hhosts'
      fun op' hop' => hproper op' (List.mem_cons_of_mem op hop')
    refine ⟨v, order'', run_cons_eq_some.mpr ⟨u, hstep, hrun⟩, hinv', ?_⟩
    rw [hhosts'', hhosts, List.foldl_cons]

/-- The rings of the table are as they are to be, the list goes through the given hosts, and a name
is found exactly if it is the name of one of them. -/
def Integrity (hostname : Bytes) (t : Table) (hosts : List Host) : Prop :=
  ∃ order, Inv hostname t order ∧ order.map t.host = hosts ∧
    ∀ name, Proper hostname name → ∃ k found, findhost t name = some (k, found) ∧
      ∀ i, found = some i ↔ i ∈ order ∧ (t.slot i).name = name

/-- After every sequence of operations, the hosts in the table are those that have been added and
not removed, as long as their names are not empty, not the own one, and have a home in the table. -/
theorem integrity (good : Bytes → Bool) (hostname : Bytes) (hhost : hostname ≠ []) (ops : List Op)
    (hproper : ∀ op ∈ ops, op.Proper hostname) :
    ∃ t, run (step good) (Table.start hostname) ops = some t ∧
      Integrity hostname t (ops.foldl register []) := by
  obtain ⟨t, order, hrun, hinv, hhosts⟩ :=
    run_inv (start_inv hostname) List.map_nil hhost good ops hproper
  exact ⟨t, hrun, order, hinv, hhosts, fun name hname => by
    obtain ⟨k, found, hfind, -, hfound⟩ := hinv.findhost_eq hhost hname
    exact ⟨k, found, hfind, hfound⟩⟩

/-- Two hosts with the same home, of which the first one is removed. -/
theorem integrity_pulled :
    ∃ t, run (step fun _ => true) (Table.start [109])
        [.addmach ⟨[97, 97], by decide⟩ 1, .addmach ⟨[98, 109], by decide⟩ 2,
          .remmach ⟨[97, 97], by decide⟩] = some t ∧ Integrity [109] t [([98, 109], 2)] := by
  have hfirst : Proper [109] [97, 97] := ⟨by decide, by decide, 485, by decide⟩
  have hsecond : Proper [109] [98, 109] := ⟨by decide, by decide, 485, by decide⟩
  refine integrity (fun _ => true) [109] (by decide) _ (fun op hop => ?_)
  rcases List.mem_cons.mp hop with rfl | hop
  · exact hfirst
  · rcases List.mem_cons.mp hop with rfl | hop
    · exact hsecond
    · exact List.mem_singleton.mp hop ▸ hfirst

/-- A byte with the sign bit: the index is negative. -/
theorem not_integrity :
    ¬ ∀ (good : Bytes → Bool) (hostname : Bytes) (ops : List Op), hostname ≠ [] →
      ∃ t, run (step good) (Table.start hostname) ops = some t ∧
        Integrity hostname t (ops.foldl register []) := by
  intro h
  obtain ⟨t, hrun, -⟩ := h (fun _ => true) [109] [.addmach ⟨[200], by decide⟩ 1] (by decide)
  have hhome : home [200] = none := by decide
  simp [step, addmach, findhost, hhome] at hrun

end Netkit.Timed.Hosttbl

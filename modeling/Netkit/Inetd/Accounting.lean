import Mathlib.Data.List.Perm.Basic
import Mathlib.Data.Finset.Dedup
import Netkit.Foundations.Loops
import Netkit.Inetd.Main

/-!
# The books on the sockets

What the counters and descriptor sets say about the entries of the table, and what each change
of one entry does to them. The order of the entries plays no part, so a change is described
for the entry at the head of the list.
-/

namespace Netkit.Inetd

/-! ## The invariant -/

def Free (e : Servtab) : Prop := (e.wait = 0 ∨ e.wait = 1) ∧ e.daemon = none

/-- The wait-server `pid` holds the socket of the entry. -/
def HeldBy (pid : Nat) (e : Servtab) : Prop :=
  1 < pid ∧ e.wait = pid ∧ e.daemon = some pid ∧ e.fd ≠ -1

structure EntryOk (children : List Nat) (opened : Finset Nat) (e : Servtab) : Prop where
  fd : e.fd = -1 ∨ ∃ n : Nat, e.fd = n ∧ n < FD_SETSIZE ∧ n ∈ opened
  server : Free e ∨ ∃ pid ∈ children, HeldBy pid e

def fdOf (e : Servtab) : List Nat := if e.fd = -1 then [] else [e.fd.toNat]

def selOf (e : Servtab) : List Nat := if 1 < e.wait then [] else fdOf e

structure NetOk (children : List Nat) (T : List Servtab) (net : Net) : Prop where
  entries : ∀ e ∈ T, EntryOk children net.opened e
  distinct : (T.flatMap fdOf).Nodup
  holders : (T.flatMap (fun e => e.daemon.toList)).Nodup
  nsock : net.nsock = (T.flatMap selOf).length
  allsock : net.allsock = (T.flatMap selOf).toFinset

theorem fdOf_of_eq {e : Servtab} {n : Nat} (h : e.fd = n) : fdOf e = [n] := by
  have hne : e.fd ≠ -1 := by omega
  rw [fdOf, if_neg hne, h]
  rfl

theorem fdOf_closed {e : Servtab} (h : e.fd = -1) : fdOf e = [] := if_pos h

theorem Free.wait_le {e : Servtab} (h : Free e) : ¬ 1 < e.wait := by
  rcases h.1 with h | h <;> omega

theorem selOf_free {e : Servtab} (h : ¬ 1 < e.wait) : selOf e = fdOf e := if_neg h

theorem selOf_held {e : Servtab} (h : 1 < e.wait) : selOf e = [] := if_pos h

theorem selOf_sublist (T : List Servtab) : (T.flatMap selOf).Sublist (T.flatMap fdOf) := by
  induction T with
  | nil => exact List.Sublist.refl _
  | cons e T ih =>
    rw [List.flatMap_cons, List.flatMap_cons]
    refine List.Sublist.append ?_ ih
    unfold selOf
    split
    · exact List.nil_sublist _
    · exact List.Sublist.refl _

variable {children : List Nat} {T R : List Servtab} {e e' : Servtab} {net net' : Net}

theorem NetOk.perm (h : NetOk children T net) (hp : T.Perm R) : NetOk children R net where
  entries e he := h.entries e (hp.mem_iff.mpr he)
  distinct := (hp.flatMap_right fdOf).nodup_iff.mp h.distinct
  holders := (hp.flatMap_right _).nodup_iff.mp h.holders
  nsock := by rw [h.nsock, (hp.flatMap_right selOf).length_eq]
  allsock := by rw [h.allsock, List.toFinset_eq_of_perm _ _ (hp.flatMap_right selOf)]

theorem NetOk.card (h : NetOk children T net) : net.nsock = net.allsock.card := by
  have hnodup := (selOf_sublist T).nodup h.distinct
  rw [h.nsock, h.allsock, List.toFinset_card_of_nodup hnodup]

theorem NetOk.mem_allsock (h : NetOk children T net) {n : Nat} :
    n ∈ net.allsock ↔ ∃ e ∈ T, e.fd = n ∧ e.wait ≤ 1 := by
  rw [h.allsock, List.mem_toFinset, List.mem_flatMap]
  constructor
  · rintro ⟨e, he, hn⟩
    refine ⟨e, he, ?_⟩
    unfold selOf fdOf at hn
    split at hn
    · cases hn
    · next hwait =>
      split at hn
      · cases hn
      · next hfd =>
        obtain rfl := List.mem_singleton.mp hn
        rcases (h.entries e he).fd with hclosed | ⟨m, hm, -⟩
        · exact absurd hclosed hfd
        · exact ⟨by omega, by omega⟩
  · rintro ⟨e, he, hfd, hwait⟩
    refine ⟨e, he, ?_⟩
    rw [selOf_free (by omega), fdOf_of_eq hfd]
    exact List.mem_singleton_self n

/-! ## Changes of one entry -/

theorem NetOk.replace (h : NetOk children (e :: R) net) (he : EntryOk children net.opened e')
    (hfd : fdOf e' = fdOf e) (hsel : selOf e' = selOf e) (hdaemon : e'.daemon = e.daemon) :
    NetOk children (e' :: R) net where
  entries := by
    intro x hx
    rcases List.mem_cons.mp hx with rfl | hx
    · exact he
    · exact h.entries x (List.mem_cons_of_mem e hx)
  distinct := by
    have hdistinct := h.distinct
    rw [List.flatMap_cons] at hdistinct ⊢
    rw [hfd]
    exact hdistinct
  holders := by
    have hholders := h.holders
    rw [List.flatMap_cons] at hholders ⊢
    rw [hdaemon]
    exact hholders
  nsock := by rw [h.nsock, List.flatMap_cons, List.flatMap_cons, hsel]
  allsock := by rw [h.allsock, List.flatMap_cons, List.flatMap_cons, hsel]

theorem NetOk.enter (h : NetOk children R net) (hfree : Free e) (hfd : e.fd = -1) :
    NetOk children (e :: R) net where
  entries := by
    intro x hx
    rcases List.mem_cons.mp hx with rfl | hx
    · exact ⟨Or.inl hfd, Or.inl hfree⟩
    · exact h.entries x hx
  distinct := by
    rw [List.flatMap_cons, fdOf_closed hfd]
    exact h.distinct
  holders := by
    rw [List.flatMap_cons, hfree.2]
    exact h.holders
  nsock := by
    rw [h.nsock, List.flatMap_cons, selOf_free hfree.wait_le, fdOf_closed hfd]
    rfl
  allsock := by
    rw [h.allsock, List.flatMap_cons, selOf_free hfree.wait_le, fdOf_closed hfd]
    rfl

theorem NetOk.leave (h : NetOk children (e :: R) net) (hfree : Free e) (hfd : e.fd = -1) :
    NetOk children R net where
  entries x hx := h.entries x (List.mem_cons_of_mem e hx)
  distinct := by
    have hdistinct := h.distinct
    rwa [List.flatMap_cons, fdOf_closed hfd] at hdistinct
  holders := by
    have hholders := h.holders
    rwa [List.flatMap_cons, hfree.2] at hholders
  nsock := by
    have hnsock := h.nsock
    rwa [List.flatMap_cons, selOf_free hfree.wait_le, fdOf_closed hfd] at hnsock
  allsock := by
    have hallsock := h.allsock
    rwa [List.flatMap_cons, selOf_free hfree.wait_le, fdOf_closed hfd] at hallsock

theorem NetOk.not_mem (h : NetOk children (e :: R) net) {n : Nat} (hn : e.fd = n) :
    n ∉ R.flatMap fdOf := by
  have hdistinct := h.distinct
  rw [List.flatMap_cons, fdOf_of_eq hn] at hdistinct
  exact (List.nodup_cons.mp hdistinct).1

theorem fd_mem_flatMap {x : Servtab} (hx : x ∈ R) {m : Nat} (hm : x.fd = m) :
    m ∈ R.flatMap fdOf :=
  List.mem_flatMap.mpr ⟨x, hx, by rw [fdOf_of_eq hm]; exact List.mem_singleton_self m⟩

theorem insert_erase_selOf {n : Nat} (hn : n ∉ R.flatMap fdOf) :
    (n :: R.flatMap selOf).toFinset.erase n = (R.flatMap selOf).toFinset := by
  have hsel : n ∉ (R.flatMap selOf).toFinset := by
    rw [List.mem_toFinset]
    exact fun hmem => hn ((selOf_sublist R).subset hmem)
  rw [List.toFinset_cons, Finset.erase_insert hsel]

theorem NetOk.close (h : NetOk children (e :: R) net) (hfree : Free e) {n : Nat} (hn : e.fd = n)
    (hnsock : net'.nsock = net.nsock - 1) (hallsock : net'.allsock = net.allsock.erase n)
    (hopened : net'.opened = net.opened.erase n) :
    NetOk children ({ e with fd := -1 } :: R) net' := by
  have hnot := h.not_mem hn
  have hsel : (e :: R).flatMap selOf = n :: R.flatMap selOf := by
    rw [List.flatMap_cons, selOf_free hfree.wait_le, fdOf_of_eq hn]
    rfl
  have hrest : NetOk children R net' :=
    { entries := by
        intro x hx
        have hok := h.entries x (List.mem_cons_of_mem e hx)
        refine ⟨hok.fd.imp_right ?_, hok.server⟩
        rintro ⟨m, hm, hlt, hmem⟩
        refine ⟨m, hm, hlt, ?_⟩
        rw [hopened, Finset.mem_erase]
        refine ⟨?_, hmem⟩
        rintro rfl
        exact hnot (fd_mem_flatMap hx hm)
      distinct := by
        have hdistinct := h.distinct
        rw [List.flatMap_cons] at hdistinct
        exact (List.nodup_append.mp hdistinct).2.1
      holders := by
        have hholders := h.holders
        rw [List.flatMap_cons] at hholders
        exact (List.nodup_append.mp hholders).2.1
      nsock := by
        rw [hnsock, h.nsock, hsel, List.length_cons]
        omega
      allsock := by rw [hallsock, h.allsock, hsel, insert_erase_selOf hnot] }
  exact hrest.enter hfree rfl

theorem NetOk.listen (h : NetOk children (e :: R) net) (hfree : Free e) (hfd : e.fd = -1)
    {n : Nat} (hlt : n < FD_SETSIZE) (hnew : n ∉ net.opened)
    (hnsock : net'.nsock = net.nsock + 1) (hallsock : net'.allsock = insert n net.allsock)
    (hopened : net'.opened = insert n net.opened) :
    NetOk children ({ e with fd := n } :: R) net' := by
  have hfdOf : fdOf { e with fd := (n : Int) } = [n] := fdOf_of_eq rfl
  have hselOf : selOf { e with fd := (n : Int) } = [n] :=
    (selOf_free (e := { e with fd := (n : Int) }) hfree.wait_le).trans hfdOf
  have hsel : (e :: R).flatMap selOf = R.flatMap selOf := by
    rw [List.flatMap_cons, selOf_free hfree.wait_le, fdOf_closed hfd]
    rfl
  have hnot : n ∉ R.flatMap fdOf := by
    intro hmem
    obtain ⟨x, hx, hn⟩ := List.mem_flatMap.mp hmem
    rcases (h.entries x (List.mem_cons_of_mem e hx)).fd with hclosed | ⟨m, hm, -, hopen⟩
    · rw [fdOf_closed hclosed] at hn
      cases hn
    · rw [fdOf_of_eq hm] at hn
      obtain rfl := List.mem_singleton.mp hn
      exact hnew hopen
  exact
    { entries := by
        intro x hx
        rw [hopened]
        rcases List.mem_cons.mp hx with rfl | hx
        · exact ⟨Or.inr ⟨n, rfl, hlt, Finset.mem_insert_self n _⟩, Or.inl hfree⟩
        · have hok := h.entries x (List.mem_cons_of_mem e hx)
          refine ⟨hok.fd.imp_right ?_, hok.server⟩
          rintro ⟨m, hm, hlt, hmem⟩
          exact ⟨m, hm, hlt, Finset.mem_insert_of_mem hmem⟩
      distinct := by
        have hdistinct := h.distinct
        rw [List.flatMap_cons, fdOf_closed hfd] at hdistinct
        rw [List.flatMap_cons, hfdOf]
        exact List.nodup_cons.mpr ⟨hnot, hdistinct⟩
      holders := h.holders
      nsock := by
        rw [hnsock, h.nsock, hsel, List.flatMap_cons, hselOf]
        simp
      allsock := by
        rw [hallsock, h.allsock, hsel, List.flatMap_cons, hselOf]
        simp }

theorem NetOk.hold (h : NetOk children (e :: R) net) (hfree : Free e) {n : Nat} (hn : e.fd = n)
    {pid : Nat} (hpid : 1 < pid) (hnew : pid ∉ children)
    (hnsock : net'.nsock = net.nsock - 1) (hallsock : net'.allsock = net.allsock.erase n)
    (hopened : net'.opened = net.opened) :
    NetOk (pid :: children) ({ e with wait := pid, daemon := some pid } :: R) net' := by
  have hwait : 1 < ({ e with wait := (pid : Int), daemon := some pid } : Servtab).wait := by
    show 1 < (pid : Int)
    omega
  have hselOf := selOf_held hwait
  have hsel : (e :: R).flatMap selOf = n :: R.flatMap selOf := by
    rw [List.flatMap_cons, selOf_free hfree.wait_le, fdOf_of_eq hn]
    rfl
  have hopen : n < FD_SETSIZE ∧ n ∈ net.opened := by
    rcases (h.entries e List.mem_cons_self).fd with hclosed | ⟨m, hm, hlt, hmem⟩
    · omega
    · obtain rfl : m = n := by omega
      exact ⟨hlt, hmem⟩
  exact
    { entries := by
        intro x hx
        rw [hopened]
        rcases List.mem_cons.mp hx with rfl | hx
        · refine ⟨Or.inr ⟨n, hn, hopen.1, hopen.2⟩, Or.inr ⟨pid, List.mem_cons_self, ?_⟩⟩
          refine ⟨hpid, rfl, rfl, ?_⟩
          show e.fd ≠ -1
          omega
        · have hok := h.entries x (List.mem_cons_of_mem e hx)
          refine ⟨hok.fd, hok.server.imp_right ?_⟩
          rintro ⟨p, hp, hheld⟩
          exact ⟨p, List.mem_cons_of_mem pid hp, hheld⟩
      distinct := h.distinct
      holders := by
        have hholders := h.holders
        rw [List.flatMap_cons, hfree.2] at hholders
        rw [List.flatMap_cons]
        refine List.nodup_cons.mpr ⟨?_, hholders⟩
        intro hmem
        obtain ⟨x, hx, hdaemon⟩ := List.mem_flatMap.mp hmem
        have hsome : x.daemon = some pid := by simpa using hdaemon
        rcases (h.entries x (List.mem_cons_of_mem e hx)).server with hf | ⟨p, hp, hheld⟩
        · rw [hf.2] at hsome
          cases hsome
        · rw [hheld.2.2.1] at hsome
          obtain rfl := Option.some.inj hsome
          exact hnew hp
      nsock := by
        rw [hnsock, h.nsock, hsel, List.flatMap_cons, hselOf, List.length_cons, List.nil_append]
        omega
      allsock := by
        rw [hallsock, h.allsock, hsel, insert_erase_selOf (h.not_mem hn), List.flatMap_cons, hselOf]
        rfl }

theorem NetOk.release (h : NetOk children (e :: R) net) {pid : Nat} (hheld : HeldBy pid e)
    {n : Nat} (hn : e.fd = n) (hnsock : net'.nsock = net.nsock + 1)
    (hallsock : net'.allsock = insert n net.allsock) (hopened : net'.opened = net.opened) :
    NetOk (children.erase pid) ({ e with wait := 1, daemon := none } :: R) net' := by
  have hfree : Free { e with wait := 1, daemon := none } := ⟨Or.inr rfl, rfl⟩
  have hselOf : selOf { e with wait := 1, daemon := none } = [n] :=
    (selOf_free hfree.wait_le).trans (fdOf_of_eq hn)
  have hwait : 1 < e.wait := by
    have hlt := hheld.1
    rw [hheld.2.1]
    omega
  have hsel : (e :: R).flatMap selOf = R.flatMap selOf := by
    rw [List.flatMap_cons, selOf_held hwait]
    rfl
  have hholders := h.holders
  rw [List.flatMap_cons, hheld.2.2.1] at hholders
  obtain ⟨hnotheld, hrest⟩ := List.nodup_cons.mp hholders
  exact
    { entries := by
        intro x hx
        rw [hopened]
        rcases List.mem_cons.mp hx with rfl | hx
        · exact ⟨(h.entries e List.mem_cons_self).fd, Or.inl hfree⟩
        · have hok := h.entries x (List.mem_cons_of_mem e hx)
          refine ⟨hok.fd, hok.server.imp_right ?_⟩
          rintro ⟨p, hp, hx'⟩
          refine ⟨p, (List.mem_erase_of_ne ?_).mpr hp, hx'⟩
          rintro rfl
          refine hnotheld (List.mem_flatMap.mpr ⟨x, hx, ?_⟩)
          rw [hx'.2.2.1]
          exact List.mem_singleton_self p
      distinct := h.distinct
      holders := by
        rw [List.flatMap_cons]
        exact hrest
      nsock := by
        rw [hnsock, h.nsock, hsel, List.flatMap_cons, hselOf]
        simp
      allsock := by
        rw [hallsock, h.allsock, hsel, List.flatMap_cons, hselOf]
        simp }

end Netkit.Inetd

import Netkit.Foundations.Runs
import Netkit.Inetd.Load

/-!
# The selected sockets

Whether the main loop selects on the sockets that it should, over every run.

* `accounted_of_careful`: when every step is careful, the books are right in every state.
* `not_accounted_reload`: a reload that drops the service of a running wait-server counts its
  socket twice.
-/

namespace Netkit.Inetd

open Netkit.Foundations

/-! ## What must hold -/

/-- The counter is the size of the set, the set has the descriptors of the entries that no
server holds, and an entry whose wait-server has exited is selected again. -/
structure Accounted (s : State) : Prop where
  lost : s.lost = false
  nsock : s.net.nsock = s.net.allsock.card
  allsock : ∀ n, n ∈ s.net.allsock ↔ ∃ e ∈ s.servtab, e.fd = n ∧ e.wait ≤ 1
  again : ∀ e ∈ s.servtab, e.daemon = none → 0 ≤ e.fd → e.fd.toNat ∈ s.net.allsock

/-- The file keeps the service whose server runs, as a service to wait for, and does not give
it another port. -/
def KeepsServer (hosts : Hosts) (cs : List Conf) (e : Servtab) : Prop :=
  ∃ c ∈ firstConf cs e.key, (c.bi.isSome ∨ c.wait = 1) ∧
    KeepsPort hosts { e with rpcversl := c.rpcversl }

instance (hosts : Hosts) (cs : List Conf) (e : Servtab) : Decidable (KeepsServer hosts cs e) :=
  inferInstanceAs (Decidable (∃ c ∈ firstConf cs e.key, _ ∧ KeepsPort hosts _))

def Careful (s : State) : Event → Prop
  | .config file hosts calls =>
    ∀ text ∈ file, FileOk hosts text ∧ CallsOk calls ∧
      ∀ e ∈ s.servtab, 1 < e.wait → KeepsServer hosts (confs hosts text) e
  | .ready fd c =>
    ∀ e ∈ s.servtab, e.fd = fd →
      (e.wait = 0 → e.socktype = .SOCK_STREAM → c.accepted = .emfile → c.execs = true) ∧
      (e.wait ≠ 0 → ∀ pid, c.fork = some pid → pid ≤ 32767)
  | .exit _ => True
  | .alarm calls => CallsOk calls

/-! ## The invariant -/

structure Balanced (s : State) : Prop where
  net : NetOk s.children s.servtab s.net
  keys : (s.servtab.map Servtab.key).Nodup
  processes : ∀ pid ∈ s.children, 1 < pid
  lost : s.lost = false

variable {s t : State} {hosts : Hosts} {calls : Calls}

theorem Balanced.accounted (h : Balanced s) : Accounted s where
  lost := h.lost
  nsock := h.net.card
  allsock _ := h.net.mem_allsock
  again e he hdaemon hfd := by
    refine h.net.mem_allsock.mpr ⟨e, he, (Int.toNat_of_nonneg hfd).symm, ?_⟩
    rcases (h.net.entries e he).server with hfree | ⟨pid, -, hheld⟩
    · exact not_lt.mp hfree.wait_le
    · rw [hheld.2.2.1] at hdaemon
      cases hdaemon

theorem balanced_empty {children : List Nat} (h : ∀ pid ∈ children, 1 < pid) :
    Balanced { init with children } where
  net :=
    { entries := fun _ he => absurd he List.not_mem_nil
      distinct := List.nodup_nil
      holders := List.nodup_nil
      nsock := rfl
      allsock := rfl }
  keys := List.nodup_nil
  processes := h
  lost := rfl

theorem balanced_init : Balanced init :=
  balanced_empty (fun _ h => absurd h List.not_mem_nil)

theorem balanced_ended {execs : Bool} {x : Except Stop State} (hs : Balanced s)
    (h : Post (Again execs) Balanced x) : Balanced (ended s execs x) := by
  cases x with
  | ok t => exact h
  | error stop =>
    obtain ⟨rfl, hexecs⟩ := h
    show Balanced (if execs = true then _ else _)
    rw [if_pos hexecs]
    exact balanced_empty hs.processes

/-! ## A reload -/

/-- What holds while the entries `cs` of the file are still to come. -/
structure Loading (hosts : Hosts) (cs : List Conf) (s : State) : Prop where
  balanced : Balanced s
  held : ∀ e ∈ s.servtab, e.checked = false → 1 < e.wait → KeepsServer hosts cs e

theorem KeepsServer.tail {c : Conf} {cs : List Conf} {e : Servtab}
    (h : KeepsServer hosts (c :: cs) e) (hkey : e.key ≠ c.key) : KeepsServer hosts cs e := by
  obtain ⟨c', hfind, hc'⟩ := h
  rw [firstConf_tail hkey.symm] at hfind
  exact ⟨c', hfind, hc'⟩

theorem KeepsServer.head {c : Conf} {cs : List Conf} {e : Servtab}
    (h : KeepsServer hosts (c :: cs) e) (hkey : e.key = c.key) :
    (c.bi.isSome ∨ c.wait = 1) ∧ KeepsPort hosts { e with rpcversl := c.rpcversl } := by
  obtain ⟨c', hfind, hc'⟩ := h
  rw [firstConf_head hkey.symm] at hfind
  exact Option.some.inj hfind ▸ hc'

theorem merge_wait {c : Conf} (old : Conf) (hold : old.wait = 0 ∨ old.wait = 1)
    (hc : c.wait = 0 ∨ c.wait = 1) : (old.merge c).wait = 0 ∨ (old.merge c).wait = 1 := by
  show (if _ then c.wait else old.wait) = 0 ∨ (if _ then c.wait else old.wait) = 1
  split
  · exact hc
  · exact hold

theorem merge_wait_held {c : Conf} (old : Conf) (hold : 1 < old.wait)
    (hc : c.bi.isSome ∨ c.wait = 1) :
    (old.merge c).wait = old.wait := by
  refine if_neg ?_
  rintro ⟨hbi, hwait⟩
  rcases hc with hc | hc
  · rw [hbi] at hc
    cases hc
  · omega

theorem merge_post {children : List Nat} {R : List Servtab} {e cp : Servtab} {net : Net}
    {cs : List Conf} (hcalls : CallsOk calls) (hcp : cp.wait = 0 ∨ cp.wait = 1)
    (hkey : e.key = cp.key) (h : NetOk children (e :: R) net)
    (hheld : 1 < e.wait → KeepsServer hosts (cp.conf :: cs) e) :
    Post (Again calls.execs) (fun r => NetOk children (r.1 :: R) r.2)
      (activate hosts calls { (merge e cp).1 with checked := true } net) := by
  have hconf := merge_conf hkey
  have hwait : (merge e cp).1.wait = (e.conf.merge cp.conf).wait := congrArg Conf.wait hconf
  have hok := h.entries e List.mem_cons_self
  rcases hok.server with hfree | ⟨pid, hpid, hserver⟩
  · have hfree' : Free { (merge e cp).1 with checked := true } := by
      refine ⟨?_, hfree.2⟩
      show (merge e cp).1.wait = 0 ∨ (merge e cp).1.wait = 1
      rw [hwait]
      exact merge_wait e.conf hfree.1 hcp
    have hnet : NetOk children ({ (merge e cp).1 with checked := true } :: R) net := by
      refine h.replace ⟨hok.fd, Or.inl hfree'⟩ rfl ?_ rfl
      rw [selOf_free hfree'.wait_le, selOf_free hfree.wait_le]
      rfl
    exact activate_post hcalls hnet (Or.inl hfree')
  · have hlt : 1 < e.wait := by
      have hone := hserver.1
      rw [hserver.2.1]
      omega
    obtain ⟨hkeep, hport⟩ := (hheld hlt).head hkey
    have hwait' : (merge e cp).1.wait = e.wait :=
      hwait.trans (merge_wait_held e.conf hlt hkeep)
    have hserver' : HeldBy pid { (merge e cp).1 with checked := true } :=
      ⟨hserver.1, hwait'.trans hserver.2.1, hserver.2.2.1, hserver.2.2.2⟩
    have hlt' : 1 < ({ (merge e cp).1 with checked := true } : Servtab).wait := by
      rw [← hwait'] at hlt
      exact hlt
    have hnet : NetOk children ({ (merge e cp).1 with checked := true } :: R) net := by
      refine h.replace ⟨hok.fd, Or.inr ⟨pid, hpid, hserver'⟩⟩ rfl ?_ rfl
      rw [selOf_held hlt', selOf_held hlt]
    refine activate_post hcalls hnet (Or.inr ⟨hserver.2.2.2, ?_⟩)
    intro hfamily hversl port hservice
    refine hport hfamily hversl port ?_
    have hname : (merge e cp).1.service.text = e.service.text := congrArg Conf.service hconf
    change port ∈ servicePort hosts (merge e cp).1.service.text e.proto.text at hservice
    rwa [hname] at hservice

theorem Loading.enter {c : Conf} {cs : List Conf} {e : Servtab} {heap : Heap} {net : Net}
    (h : Loading hosts (c :: cs) s) (hnone : ∀ x ∈ s.servtab, x.key ≠ c.key)
    (hkey : e.key = c.key) (hchecked : e.checked = true)
    (hnet : NetOk s.children (e :: s.servtab) net) :
    Loading hosts cs { s with servtab := e :: s.servtab, heap := heap, net := net } := by
  refine ⟨⟨hnet, ?_, h.balanced.processes, h.balanced.lost⟩, ?_⟩
  · rw [List.map_cons, List.nodup_cons]
    refine ⟨fun hmem => ?_, h.balanced.keys⟩
    obtain ⟨x, hx, hxkey⟩ := List.mem_map.mp hmem
    exact hnone x hx (hxkey.trans hkey)
  · intro x hx hunchecked hheld
    rcases List.mem_cons.mp hx with rfl | hx
    · rw [hchecked] at hunchecked
      cases hunchecked
    · exact (h.held x hx hunchecked hheld).tail (hnone x hx)

theorem Loading.replace {c : Conf} {cs : List Conf} {A B : List Servtab} {e e' : Servtab}
    {heap : Heap} {net : Net} (h : Loading hosts (c :: cs) s) (htable : s.servtab = A ++ e :: B)
    (he : e.key = c.key) (hkey : e'.key = c.key) (hchecked : e'.checked = true)
    (hnet : NetOk s.children (A ++ e' :: B) net) :
    Loading hosts cs { s with servtab := A ++ e' :: B, heap := heap, net := net } := by
  have hkeys := h.balanced.keys
  rw [htable, List.map_append, List.map_cons, he] at hkeys
  have hothers : ∀ x ∈ A ++ B, x.key ≠ c.key := by
    intro x hx hxkey
    rw [List.perm_middle.nodup_iff] at hkeys
    refine (List.nodup_cons.mp hkeys).1 ?_
    rw [← List.map_append, ← hxkey]
    exact List.mem_map_of_mem hx
  refine ⟨⟨hnet, ?_, h.balanced.processes, h.balanced.lost⟩, ?_⟩
  · rw [List.map_append, List.map_cons, hkey]
    exact hkeys
  · intro x hx hunchecked hheld
    rw [List.perm_middle.mem_iff, List.mem_cons] at hx
    rcases hx with rfl | hx
    · rw [hchecked] at hunchecked
      cases hunchecked
    · refine (h.held x ?_ hunchecked hheld).tail (hothers x hx)
      rw [htable, List.perm_middle.mem_iff]
      exact List.mem_cons_of_mem e hx

theorem loadconfigent_loading {c : Conf} {cs : List Conf} {b : Nat} (hcalls : CallsOk calls)
    (hwait : c.wait = 0 ∨ c.wait = 1)
    (hfits : ∀ name, officialName hosts c = some name → aliasFits name c)
    (h : Loading hosts (c :: cs) s) :
    Post (Again calls.execs) (Loading hosts cs) (loadconfigent hosts calls (assembled b c) s) := by
  have hrename := rename_assembled b s.heap hfits
  generalize renamed hosts (assembled b c) s.heap = r at hrename
  have hconf : ((assembled b c).moved r.1).conf = c := by rw [moved_conf, assembled_conf]
  have hkey : ((assembled b c).moved r.1).key = c.key := congrArg Conf.key hconf
  rcases table_cases c.key s.servtab with hnone | ⟨A, e, B, htable, hA, he⟩
  · rw [loadconfigent_new hrename (by rwa [hkey])]
    have hfree : Free (entered ((assembled b c).moved r.1)) := ⟨hwait, rfl⟩
    have hnet := h.balanced.net.enter hfree rfl
    refine post_map (activate_also (activate_post hcalls hnet (Or.inl hfree))) ?_
    rintro ⟨e', net'⟩ ⟨hnet, hsame⟩
    have hkey' : e'.key = c.key := (congrArg Conf.key hsame.conf).trans hkey
    exact h.enter hnone hkey' hsame.checked hnet
  · have hnet := h.balanced.net
    rw [htable] at hnet
    have hmem : e ∈ s.servtab := by
      rw [htable]
      exact List.mem_append_right A List.mem_cons_self
    rw [loadconfigent_old hrename htable (by rwa [hkey]) (he.trans hkey.symm)]
    split
    · next hchecked =>
      have hsame : Loading hosts cs { s with servtab := A ++ e :: B, heap := r.2, net := s.net } :=
        h.replace htable he he hchecked hnet
      rwa [← htable] at hsame
    · next hchecked =>
      have hheld := h.held e hmem ((Bool.not_eq_true _).mp hchecked)
      rw [← hconf] at hheld
      have hpost := merge_post hcalls hwait (he.trans hkey.symm) (hnet.perm List.perm_middle) hheld
      refine post_map (activate_also hpost) ?_
      rintro ⟨e', net'⟩ ⟨hnet, hsame⟩
      have hkey' : e'.key = c.key := by
        have hmerged : e'.conf = (merge e ((assembled b c).moved r.1)).1.conf := hsame.conf
        rw [merge_conf (he.trans hkey.symm)] at hmerged
        show e'.conf.key = c.key
        rw [hmerged, merge_key e.conf (he.trans hkey.symm)]
        exact he
      exact h.replace htable he hkey' hsame.checked (hnet.perm List.perm_middle.symm)

theorem loadEntry_loading {fields : List Text} {l : List (List Text)} (hcalls : CallsOk calls)
    (hfields : fields.length ≤ MAXARGV + 5)
    (haliases : ∀ c, assembleEntry hosts fields = .ok c →
      ∀ name, officialName hosts c = some name → aliasFits name c)
    (h : Loading hosts (confsOf hosts (fields :: l)) s) :
    Post (Again calls.execs) (Loading hosts (confsOf hosts l))
      (loadEntry hosts calls s fields) := by
  unfold loadEntry
  rw [if_neg (by omega)]
  cases hassemble : assembleEntry hosts fields with
  | error message =>
    rw [confsOf_error l hassemble] at h
    exact ⟨⟨h.balanced.net, h.balanced.keys, h.balanced.processes, h.balanced.lost⟩, h.held⟩
  | ok c =>
    rw [confsOf_ok l hassemble] at h
    refine loadconfigent_loading hcalls (assembleEntry_flag hassemble)
      (haliases c hassemble) ?_
    exact ⟨⟨h.balanced.net, h.balanced.keys, h.balanced.processes, h.balanced.lost⟩, h.held⟩

theorem config_balanced {file : Text} (hfile : FileOk hosts file) (hcalls : CallsOk calls)
    (h : Balanced s)
    (hheld : ∀ e ∈ s.servtab, 1 < e.wait → KeepsServer hosts (confs hosts file) e) :
    Post (Again calls.execs) Balanced (config hosts calls file s) := by
  have hunchecked : NetOk s.children (s.servtab.map (fun e => { e with checked := false })) s.net :=
    { entries := by
        intro e he
        obtain ⟨x, hx, rfl⟩ := List.mem_map.mp he
        have hok := h.net.entries x hx
        exact ⟨hok.fd, hok.server⟩
      distinct := by
        rw [List.flatMap_map]
        exact h.net.distinct
      holders := by
        rw [List.flatMap_map]
        exact h.net.holders
      nsock := by
        rw [List.flatMap_map]
        exact h.net.nsock
      allsock := by
        rw [List.flatMap_map]
        exact h.net.allsock }
  have hstart : Loading hosts (confs hosts file)
      { s with servtab := s.servtab.map (fun e => { e with checked := false }) } := by
    refine ⟨⟨hunchecked, ?_, h.processes, h.lost⟩, ?_⟩
    · rw [List.map_map]
      exact h.keys
    · intro e he _ hwait
      obtain ⟨x, hx, rfl⟩ := List.mem_map.mp he
      exact hheld x hx hwait
  have hloop := post_foldlM (E := Again calls.execs)
    (I := fun l s => (∀ fields ∈ l, fields ∈ entries file) ∧ Loading hosts (confsOf hosts l) s)
    (f := loadEntry hosts calls) (l := entries file) (fun fields l s hs => by
      obtain ⟨hmem, hload⟩ := hs
      refine post_mono (loadEntry_loading hcalls
        (hfile.fields fields (hmem fields List.mem_cons_self)) ?_ hload)
        (fun t ht => ⟨fun x hx => hmem x (List.mem_cons_of_mem fields hx), ht⟩)
      intro c hc
      exact hfile.aliases c (mem_confs (hmem fields List.mem_cons_self) hc)) ⟨fun _ h => h, hstart⟩
  refine post_bind hloop ?_
  rintro t ⟨-, hload⟩
  have hfree : ∀ e ∈ t.servtab, e.checked = false → Free e := by
    intro e he hchecked
    rcases (hload.balanced.net.entries e he).server with hfree | ⟨pid, -, hserver⟩
    · exact hfree
    · obtain ⟨c, hc, -⟩ := hload.held e he hchecked (by
        have hlt := hserver.1
        rw [hserver.2.1]
        omega)
      cases hc
  refine post_bind (purge_post (P := []) hload.balanced.net hfree) ?_
  rintro ⟨servtab, heap, net⟩ ⟨hnet, heq⟩
  dsimp only at hnet heq
  refine ⟨hnet, ?_, hload.balanced.processes, hload.balanced.lost⟩
  show (servtab.map Servtab.key).Nodup
  rw [heq]
  exact (List.filter_sublist.map Servtab.key).nodup hload.balanced.keys

/-! ## The other steps -/

theorem NetOk.mem_split {children : List Nat} {T : List Servtab} {net : Net}
    (h : NetOk children T net) {n : Nat} (hn : n ∈ net.allsock) :
    ∃ (A : List Servtab) (e : Servtab) (B : List Servtab), T = A ++ e :: B ∧
      (∀ x ∈ A, x.fd ≠ (n : Int)) ∧ e.fd = (n : Int) := by
  obtain ⟨e, he, hfd, -⟩ := h.mem_allsock.mp hn
  have hfound : (T.find? (fun e => e.fd == (n : Int))).isSome :=
    List.find?_isSome.mpr ⟨e, he, beq_iff_eq.mpr hfd⟩
  obtain ⟨x, hx⟩ := Option.isSome_iff_exists.mp hfound
  obtain ⟨hxfd, A, B, hT, hA⟩ := List.find?_eq_some_iff_append.mp hx
  refine ⟨A, x, B, hT, ?_, beq_iff_eq.mp hxfd⟩
  intro y hy hyfd
  have hne := hA y hy
  rw [beq_iff_eq.mpr hyfd] at hne
  cases hne

theorem ready_balanced {n : Nat} {c : Connection} (h : Balanced s) (hn : n ∈ s.net.allsock)
    (hfork : ∀ pid, c.fork = some pid → newChild s.children pid = true)
    (hcareful : Careful s (.ready n c)) :
    Post (Again c.execs) Balanced (ready n c s) := by
  obtain ⟨A, e, B, htable, hA, hfd⟩ := h.net.mem_split hn
  have hfound : s.servtab.findIdx? (fun e => e.fd == (n : Int)) = some A.length := by
    rw [htable]
    exact findIdx?_middle B (fun x hx => beq_eq_false_iff_ne.mpr (hA x hx)) (beq_iff_eq.mpr hfd)
  have hget : s.servtab[A.length]? = some e := by rw [htable, getElem?_middle]
  have hmem : e ∈ s.servtab := by
    rw [htable]
    exact List.mem_append_right A List.mem_cons_self
  have hnet := h.net
  rw [htable] at hnet
  have hhead := hnet.perm List.perm_middle
  have hchild : ∀ pid, c.fork = some pid → 1 < pid ∧ pid ∉ s.children := by
    intro pid hpid
    have hnew := hfork pid hpid
    simpa [newChild] using hnew
  have hok : ConnectionOk s.children c e :=
    ⟨(hcareful e hmem hfd).1, hchild, (hcareful e hmem hfd).2⟩
  have hpost := launch_post hok hhead (hhead.free_of_mem hfd hn) (by omega)
  unfold ready
  simp only [hfound, hget]
  refine post_bind (post_and hpost (launch_record c e s.net)) ?_
  rintro ⟨e', net', child⟩ ⟨hnet', hrecord, hstarted⟩
  dsimp only at hnet' hrecord hstarted
  have hkey : e'.key = e.key := key_of_record hrecord
  refine ⟨?_, ?_, ?_, h.lost⟩
  · show NetOk (child.toList ++ s.children) (s.servtab.set A.length e') net'
    rw [htable, set_middle]
    exact hnet'.perm List.perm_middle.symm
  · show ((s.servtab.set A.length e').map Servtab.key).Nodup
    have hkeys := h.keys
    rw [htable, List.map_append, List.map_cons] at hkeys
    rw [htable, set_middle, List.map_append, List.map_cons, hkey]
    exact hkeys
  · intro pid hpid
    rcases List.mem_append.mp hpid with hpid | hpid
    · exact (hchild pid (hstarted pid (Option.mem_toList.mp hpid))).1
    · exact h.processes pid hpid

theorem step_balanced {e : Event} (h : Balanced s) (hcareful : Careful s e)
    (hstep : step s e = some t) : Balanced t := by
  cases e with
  | config file hosts calls =>
    simp only [step, h.lost, Bool.false_eq_true, if_false] at hstep
    cases file with
    | none => exact Option.some.inj hstep ▸ h
    | some text =>
      obtain ⟨hfile, hcalls, hheld⟩ := hcareful text rfl
      obtain rfl := Option.some.inj hstep
      exact balanced_ended h (config_balanced hfile hcalls h hheld)
  | ready fd c =>
    simp only [step, h.lost, Bool.false_eq_true, false_or] at hstep
    split at hstep
    · cases hstep
    · next hcan =>
      rw [not_or, not_not] at hcan
      obtain rfl := Option.some.inj hstep
      refine balanced_ended h (ready_balanced h hcan.1 ?_ hcareful)
      intro pid hpid
      have hnew := hcan.2
      rw [hpid] at hnew
      simpa using hnew
  | exit pid =>
    simp only [step, h.lost, Bool.false_eq_true, false_or] at hstep
    split at hstep
    · cases hstep
    · next hcan =>
      rw [not_not] at hcan
      obtain rfl := Option.some.inj hstep
      refine balanced_ended h ?_
      refine post_bind (post_and (reapchild_post h.net (h.processes pid hcan))
        (reapchild_record pid s.servtab s.net)) ?_
      rintro ⟨servtab, net⟩ ⟨hnet, hrecord⟩
      refine ⟨hnet, ?_, fun x hx => h.processes x (List.mem_of_mem_erase hx), rfl⟩
      show ((servtab.map (forget pid)).map Servtab.key).Nodup
      rw [keys_of_records hrecord]
      exact h.keys
  | alarm calls =>
    simp only [step, h.lost, Bool.false_eq_true, if_false] at hstep
    obtain rfl := Option.some.inj hstep
    refine balanced_ended h ?_
    refine post_bind (post_and
      (restartServices_post (P := []) hcareful (h.net.of_net rfl rfl rfl))
      (restartServices_record calls s.servtab _)) ?_
    rintro ⟨servtab, net⟩ ⟨hnet, hrecord⟩
    refine ⟨hnet, ?_, h.processes, rfl⟩
    show (servtab.map Servtab.key).Nodup
    rw [keys_of_records hrecord]
    exact h.keys

/-! ## The runs -/

/-- As long as every step is careful, the books are right. -/
theorem accounted_of_careful {es : List Event} (h : Steps Careful step init es)
    (ht : Reached step init es t) : Accounted t :=
  (steps_reached (fun _ _ _ => step_balanced) balanced_init h ht).accounted

def bareHosts : Hosts where
  gethostbyname _ := none
  getservbyname _ _ := none
  getrpcbyname _ := none

/-- Calls that give the descriptor `n`. -/
def callsOf (n : Nat) : Calls where
  socket _ := .fd n
  bind _ := true
  execs := true

def talkFile : Text := "518 dgram udp wait root /usr/sbin/in.ntalkd in.ntalkd\n".toList

/-- A packet arrives, and the process `pid` is started for it. -/
def packet (pid : Nat) : Connection := ⟨.ok, 0, some pid, true⟩

theorem callsOk_callsOf {n : Nat} (h : n < FD_SETSIZE) : CallsOk (callsOf n) where
  below _ m hm := by
    obtain rfl := SocketResult.fd.inj hm
    exact h
  execs := Or.inl rfl

/-- The table is loaded again while a server runs, and then the server exits. -/
theorem accounted_talk :
    ∃ t, run step init [.config (some talkFile) bareHosts (callsOf 3), .ready 3 (packet 100),
        .config (some talkFile) bareHosts (callsOf 4), .exit 100] = some t ∧
      t.net.allsock = {3} ∧ Accounted t := by
  have hrun : (run step init [.config (some talkFile) bareHosts (callsOf 3),
      .ready 3 (packet 100), .config (some talkFile) bareHosts (callsOf 4), .exit 100]).map
        (fun t => t.net.allsock) = some {3} := by
    decide +kernel
  obtain ⟨t, ht, hallsock⟩ := Option.map_eq_some_iff.mp hrun
  have hfile : FileOk bareHosts talkFile := by decide +kernel
  have hloaded : ((run step init [.config (some talkFile) bareHosts (callsOf 3),
      .ready 3 (packet 100)]).all fun s => decide (∀ e ∈ s.servtab,
        KeepsServer bareHosts (confs bareHosts talkFile) e)) = true := by
    decide +kernel
  refine ⟨t, ht, hallsock, accounted_of_careful ?_ ⟨_, List.prefix_rfl, ht⟩⟩
  refine ⟨?_, fun s1 h1 => ⟨?_, fun s2 h2 => ⟨?_, fun s3 h3 => ⟨trivial, fun _ _ => trivial⟩⟩⟩⟩
  · rintro text ⟨⟩
    exact ⟨hfile, callsOk_callsOf (by decide), fun e he => absurd he List.not_mem_nil⟩
  · intro e _ _
    refine ⟨fun _ _ haccepted => (by cases haccepted), fun _ pid hpid => ?_⟩
    obtain rfl := Option.some.inj hpid
    decide
  · rintro text ⟨⟩
    have h12 : run step init [.config (some talkFile) bareHosts (callsOf 3),
        .ready 3 (packet 100)] = some s2 :=
      run_cons_eq_some.mpr ⟨s1, h1, run_cons_eq_some.mpr ⟨s2, h2, rfl⟩⟩
    rw [h12, Option.all_some, decide_eq_true_eq] at hloaded
    exact ⟨hfile, callsOk_callsOf (by decide), fun e he _ => hloaded e he⟩

/-- A reload that drops the service of a running wait-server counts its socket twice. -/
theorem not_accounted_reload :
    ¬ ∀ es t, Reached step init es t → Accounted t := by
  intro h
  have hrun : (run step init [.config (some talkFile) bareHosts (callsOf 3),
      .ready 3 (packet 100), .config (some []) bareHosts (callsOf 4)]).map
        (fun t => t.net.nsock) = some (-1) := by
    decide +kernel
  obtain ⟨t, ht, hnsock⟩ := Option.map_eq_some_iff.mp hrun
  have hcard := (h _ t ⟨_, List.prefix_rfl, ht⟩).nsock
  rw [hnsock] at hcard
  omega

end Netkit.Inetd

import Netkit.Inetd.Accounting

/-!
# What the operations do to the books

Each operation of inetd on an entry of the table, with what it does to the descriptors, the
addresses and the children that the table accounts for.
-/

namespace Netkit.Inetd

open Netkit.Foundations

/-! ## The parts of an entry that stay -/

def SameService (e e' : Servtab) : Prop :=
  ∃ fd port prog, e' = { e with fd := fd, sinPort := port, rpcprog := prog }

theorem SameService.refl (e : Servtab) : SameService e e := ⟨e.fd, e.sinPort, e.rpcprog, rfl⟩

theorem SameService.trans {e e' e'' : Servtab} (h : SameService e e') (h' : SameService e' e'') :
    SameService e e'' := by
  obtain ⟨fd, port, prog, rfl⟩ := h
  obtain ⟨fd', port', prog', rfl⟩ := h'
  exact ⟨fd', port', prog', rfl⟩

theorem SameService.conf {e e' : Servtab} (h : SameService e e') : e'.conf = e.conf := by
  obtain ⟨fd, port, prog, rfl⟩ := h
  rfl

theorem SameService.checked {e e' : Servtab} (h : SameService e e') : e'.checked = e.checked := by
  obtain ⟨fd, port, prog, rfl⟩ := h
  rfl

theorem setup_same {calls : Calls} {e : Servtab} {net : Net} {r : Servtab × Net}
    (h : setup calls e net = .ok r) : SameService e r.1 := by
  unfold setup at h
  cases hsocket : calls.socket net.calls with
  | emfile =>
    simp only [hsocket] at h
    cases h
  | error =>
    simp only [hsocket] at h
    obtain rfl := Except.ok.inj h
    exact ⟨-1, e.sinPort, e.rpcprog, rfl⟩
  | fd n =>
    simp only [hsocket] at h
    split at h
    · obtain rfl := Except.ok.inj h
      exact ⟨-1, e.sinPort, e.rpcprog, rfl⟩
    · split at h
      · obtain rfl := Except.ok.inj h
        exact ⟨-1, e.sinPort, e.rpcprog, rfl⟩
      · unfold fdSet at h
        split at h
        · obtain rfl := Except.ok.inj h
          exact ⟨n, e.sinPort, e.rpcprog, rfl⟩
        · cases h

theorem closeit_same {e : Servtab} {net : Net} {r : Servtab × Net}
    (h : closeit e net = .ok r) : SameService e r.1 := by
  unfold closeit fdClr at h
  split at h
  · obtain rfl := Except.ok.inj h
    exact ⟨-1, e.sinPort, e.rpcprog, rfl⟩
  · cases h

theorem openSocket_same {calls : Calls} {e : Servtab} {net : Net} {r : Servtab × Net}
    (h : openSocket calls e net = .ok r) : SameService e r.1 := by
  unfold openSocket at h
  split at h
  · exact setup_same h
  · obtain rfl := Except.ok.inj h
    exact SameService.refl e

theorem changePort_same {port : Nat} {e : Servtab} {net : Net} {r : Servtab × Net}
    (h : changePort port e net = .ok r) : SameService e r.1 := by
  have hport : SameService e { e with sinPort := port } := ⟨e.fd, port, e.rpcprog, rfl⟩
  unfold changePort at h
  split at h
  · obtain rfl := Except.ok.inj h
    exact SameService.refl e
  · split at h
    · obtain rfl := Except.ok.inj h
      exact hport
    · exact hport.trans (closeit_same h)

theorem activate_same {hosts : Hosts} {calls : Calls} {e : Servtab} {net : Net}
    {r : Servtab × Net} (h : activate hosts calls e net = .ok r) : SameService e r.1 := by
  have hprog : ∀ prog, SameService e { e with rpcprog := prog } :=
    fun prog => ⟨e.fd, e.sinPort, prog, rfl⟩
  unfold activate at h
  split at h
  · exact openSocket_same h
  · split at h
    · split at h
      · obtain rfl := Except.ok.inj h
        exact hprog 0
      · next number _ => exact (hprog number).trans (openSocket_same h)
    · split at h
      · obtain rfl := Except.ok.inj h
        exact SameService.refl e
      · next port _ =>
        cases hchange : changePort port e net with
        | error stop =>
          rw [hchange] at h
          cases h
        | ok p =>
          rw [hchange] at h
          exact (changePort_same hchange).trans (openSocket_same h)

theorem activate_also {E : Stop → Prop} {Q : Servtab × Net → Prop} {hosts : Hosts} {calls : Calls}
    {e : Servtab} {net : Net} (h : Post E Q (activate hosts calls e net)) :
    Post E (fun r => Q r ∧ SameService e r.1) (activate hosts calls e net) :=
  post_results h (fun _ hr hQ => ⟨hQ, activate_same hr⟩)

/-! ## One entry -/

/-- The calls give descriptors that fit into a descriptor set, and where they run out of
descriptors inetd can be executed again. -/
structure CallsOk (calls : Calls) : Prop where
  below : ∀ k n, calls.socket k = .fd n → n < FD_SETSIZE
  execs : calls.execs = true ∨ ∀ k, calls.socket k ≠ .emfile

def Again (execs : Bool) (stop : Stop) : Prop := stop = .restart ∧ execs = true

variable {children : List Nat} {T R P : List Servtab} {e : Servtab} {net net' : Net}

theorem NetOk.of_net (h : NetOk children T net) (hnsock : net'.nsock = net.nsock)
    (hallsock : net'.allsock = net.allsock) (hopened : net'.opened = net.opened) :
    NetOk children T net' where
  entries := by rw [hopened]; exact h.entries
  distinct := h.distinct
  holders := h.holders
  nsock := hnsock.trans h.nsock
  allsock := hallsock.trans h.allsock

theorem inSet_of_lt {n : Nat} (h : n < FD_SETSIZE) : inSet (n : Int) = true := by
  simp only [inSet, Bool.and_eq_true, decide_eq_true_eq]
  omega

theorem fdSet_eq {fd : Int} {n : Nat} (hn : fd = n) (h : n < FD_SETSIZE) (net : Net) :
    fdSet fd net = .ok { net with allsock := insert n net.allsock } := by
  rw [fdSet, hn, if_pos (inSet_of_lt h)]
  rfl

theorem fdClr_eq {fd : Int} {n : Nat} (hn : fd = n) (h : n < FD_SETSIZE) (net : Net) :
    fdClr fd net = .ok { net with allsock := net.allsock.erase n } := by
  rw [fdClr, hn, if_pos (inSet_of_lt h)]
  rfl

theorem NetOk.fd_eq (h : NetOk children (e :: R) net) (hfd : e.fd ≠ -1) :
    ∃ n : Nat, e.fd = n ∧ n < FD_SETSIZE ∧ n ∈ net.opened :=
  (h.entries e List.mem_cons_self).fd.resolve_left hfd

theorem setup_post {calls : Calls} (hcalls : CallsOk calls) (h : NetOk children (e :: R) net)
    (hfree : Free e) (hfd : e.fd = -1) :
    Post (Again calls.execs) (fun r => NetOk children (r.1 :: R) r.2) (setup calls e net) := by
  have hclosed : { e with fd := -1 } = e := by rw [← hfd]
  unfold setup
  rw [hclosed]
  cases hsocket : calls.socket net.calls with
  | emfile => exact ⟨rfl, hcalls.execs.resolve_right (fun hno => hno _ hsocket)⟩
  | error => exact h.of_net rfl rfl rfl
  | fd n =>
    have hlt := hcalls.below _ n hsocket
    dsimp only
    split
    · exact h.of_net rfl rfl rfl
    · next hnew =>
      split
      · exact h.of_net rfl rfl rfl
      · rw [fdSet_eq rfl hlt]
        exact h.listen hfree hfd hlt hnew rfl rfl rfl

theorem closeit_post {E : Stop → Prop} (h : NetOk children (e :: R) net) (hfree : Free e)
    (hfd : e.fd ≠ -1) :
    Post E (fun r => NetOk children (r.1 :: R) r.2 ∧ r.1 = { e with fd := -1 })
      (closeit e net) := by
  obtain ⟨n, hn, hlt, -⟩ := h.fd_eq hfd
  unfold closeit
  rw [fdClr_eq hn hlt, hn]
  exact ⟨h.close hfree hn rfl rfl rfl, rfl⟩

theorem openSocket_post {calls : Calls} (hcalls : CallsOk calls)
    (h : NetOk children (e :: R) net) (hserver : Free e ∨ e.fd ≠ -1) :
    Post (Again calls.execs) (fun r => NetOk children (r.1 :: R) r.2)
      (openSocket calls e net) := by
  unfold openSocket
  split
  · next hfd => exact setup_post hcalls h (hserver.resolve_right (fun hne => hne hfd)) hfd
  · exact h

theorem NetOk.change (h : NetOk children (e :: R) net) (port : Nat) (prog : Int) :
    NetOk children ({ e with sinPort := port, rpcprog := prog } :: R) net := by
  have hok := h.entries e List.mem_cons_self
  exact h.replace ⟨hok.fd, hok.server⟩ rfl rfl rfl

theorem changePort_post {E : Stop → Prop} {port : Nat} (h : NetOk children (e :: R) net)
    (hserver : Free e ∨ port = e.sinPort) :
    Post E (fun r => NetOk children (r.1 :: R) r.2 ∧ (Free e → Free r.1) ∧
      (port = e.sinPort → r.1 = e)) (changePort port e net) := by
  unfold changePort
  split
  · exact ⟨h, id, fun _ => rfl⟩
  · next hport =>
    have hfree := hserver.resolve_right hport
    have hchange := h.change port e.rpcprog
    split
    · exact ⟨hchange, id, fun heq => absurd heq hport⟩
    · next hfd =>
      refine post_mono (closeit_post hchange hfree hfd) (fun r hr => ⟨hr.1, fun _ => ?_, ?_⟩)
      · rw [hr.2]
        exact hfree
      · exact fun heq => absurd heq hport

def KeepsPort (hosts : Hosts) (e : Servtab) : Prop :=
  e.family = .AF_INET → e.rpcversl = 0 →
    ∀ port ∈ servicePort hosts e.service.text e.proto.text, port = e.sinPort

instance (hosts : Hosts) (e : Servtab) : Decidable (KeepsPort hosts e) :=
  inferInstanceAs (Decidable (_ → _ → ∀ port ∈ servicePort hosts _ _, port = _))

theorem activate_post {hosts : Hosts} {calls : Calls} (hcalls : CallsOk calls)
    (h : NetOk children (e :: R) net)
    (hserver : Free e ∨ e.fd ≠ -1 ∧ KeepsPort hosts e) :
    Post (Again calls.execs) (fun r => NetOk children (r.1 :: R) r.2)
      (activate hosts calls e net) := by
  unfold activate
  split
  · exact openSocket_post hcalls h (hserver.imp_right And.left)
  · next hfamily =>
    split
    · split
      · exact h.change e.sinPort 0
      · next number _ =>
        exact openSocket_post hcalls (h.change e.sinPort number) (hserver.imp_right And.left)
    · next hrpc =>
      split
      · exact h
      · next port hport =>
        have hversl : e.rpcversl = 0 := by simpa [Servtab.isRpcservice] using hrpc
        have hkeep : Free e ∨ port = e.sinPort :=
          hserver.imp_right (fun hq => hq.2 hfamily hversl port hport)
        refine post_bind (changePort_post h hkeep) (fun r hr => ?_)
        refine openSocket_post hcalls hr.1 ?_
        rcases hserver with hfree | hq
        · exact Or.inl (hr.2.1 hfree)
        · right
          rw [hr.2.2 (hq.2 hfamily hversl port hport)]
          exact hq.1

/-! ## Servers -/

theorem NetOk.free_of_mem (h : NetOk children (e :: R) net) {n : Nat} (hn : e.fd = n)
    (hmem : n ∈ net.allsock) : Free e := by
  have hok := h.entries e List.mem_cons_self
  rcases hok.server with hfree | ⟨pid, -, hheld⟩
  · exact hfree
  · have hwait : 1 < e.wait := by
      have hlt := hheld.1
      rw [hheld.2.1]
      omega
    rw [h.allsock, List.mem_toFinset, List.flatMap_cons, selOf_held hwait, List.nil_append] at hmem
    exact absurd ((selOf_sublist R).subset hmem) (h.not_mem hn)

theorem toShort_eq {pid : Nat} (h : pid ≤ 32767) : toShort pid = pid := by
  simp only [toShort, Int.bmod]
  omega

theorem NetOk.count (h : NetOk children (e :: R) net) (count time : Int) :
    NetOk children ({ e with count := count, time := time } :: R) net := by
  have hok := h.entries e List.mem_cons_self
  exact h.replace ⟨hok.fd, hok.server⟩ rfl rfl rfl

theorem forkChild_post {E : Stop → Prop} {c : Connection} (h : NetOk children (e :: R) net)
    (hfree : Free e) (hfd : e.fd ≠ -1) :
    Post E (fun r => NetOk children (r.1 :: R) r.2.1 ∧ Free r.1 ∧ r.1.wait = e.wait ∧
      ∀ pid, r.2.2 = some pid → c.fork = some pid ∧ r.1.fd = e.fd) (forkChild c e net) := by
  unfold forkChild
  dsimp only
  split
  · exact ⟨h.count _ _, hfree, rfl, fun pid hpid => ⟨hpid, rfl⟩⟩
  · split
    · split
      · exact ⟨h.count _ _, hfree, rfl, fun pid hpid => ⟨hpid, rfl⟩⟩
      · obtain ⟨n, hn, hlt, -⟩ := h.fd_eq hfd
        have hclose : NetOk children ({ e with fd := -1 } :: R) (closeFd n
            { net with
              nsock := net.nsock - 1
              allsock := net.allsock.erase n
              timingout := true }) :=
          h.close hfree hn rfl rfl rfl
        rw [fdClr_eq hn hlt, hn]
        exact ⟨hclose.count 0 e.time, hfree, rfl, fun pid hpid => by cases hpid⟩
    · exact ⟨h.count _ _, hfree, rfl, fun pid hpid => ⟨hpid, rfl⟩⟩

/-- What an event may do when a socket is ready: a process that takes the socket has a number
that fits into a `short`. -/
structure ConnectionOk (children : List Nat) (c : Connection) (e : Servtab) : Prop where
  execs : e.wait = 0 → e.socktype = .SOCK_STREAM → c.accepted = .emfile → c.execs = true
  child : ∀ pid, c.fork = some pid → 1 < pid ∧ pid ∉ children
  short : e.wait ≠ 0 → ∀ pid, c.fork = some pid → pid ≤ 32767

theorem NetOk.fork (h : NetOk children T net) (pid : Nat) : NetOk (pid :: children) T net where
  entries x hx := by
    have hok := h.entries x hx
    refine ⟨hok.fd, hok.server.imp_right ?_⟩
    rintro ⟨p, hp, hheld⟩
    exact ⟨p, List.mem_cons_of_mem pid hp, hheld⟩
  distinct := h.distinct
  holders := h.holders
  nsock := h.nsock
  allsock := h.allsock

theorem launch_post {c : Connection} (hc : ConnectionOk children c e)
    (h : NetOk children (e :: R) net) (hfree : Free e) (hfd : e.fd ≠ -1) :
    Post (Again c.execs) (fun r => NetOk (r.2.2.toList ++ children) (r.1 :: R) r.2.1)
      (launch c e net) := by
  unfold launch
  dsimp only
  split
  · next hacc =>
    have haccepts := of_decide_eq_true hacc.1
    exact ⟨rfl, hc.execs haccepts.1 haccepts.2 hacc.2⟩
  · split
    · exact h
    · split
      · refine post_bind (forkChild_post (c := c) h hfree hfd) ?_
        rintro ⟨e', net', child⟩ ⟨hnet, hfree', hwait, hchild⟩
        cases child with
        | none => exact hnet
        | some pid =>
          obtain ⟨hfork, hfd'⟩ := hchild pid rfl
          obtain ⟨hpid, hnew⟩ := hc.child pid hfork
          dsimp only at hnet hfree' hwait hfd' ⊢
          split
          · next hwaits =>
            rw [hwait] at hwaits
            obtain ⟨n, hn, hlt, -⟩ := hnet.fd_eq (hfd' ▸ hfd)
            rw [fdClr_eq hn hlt, toShort_eq (hc.short hwaits pid hfork)]
            have hhold : NetOk (pid :: children)
                ({ e' with wait := pid, daemon := some pid } :: R)
                { net' with nsock := net'.nsock - 1, allsock := net'.allsock.erase n } :=
              hnet.hold hfree' hn hpid hnew rfl rfl rfl
            exact hhold
          · exact hnet.fork pid
      · exact h

def Servtab.listed (e : Servtab) : Conf := { e.conf with wait := 0 }

/-- An entry without the state of its socket and its server: what only the configuration
changes. -/
def Servtab.record (e : Servtab) : Servtab :=
  { e with rpcprog := 0, wait := 0, fd := -1, sinPort := 0, count := 0, time := 0, daemon := none }

theorem SameService.record {e e' : Servtab} (h : SameService e e') : e'.record = e.record := by
  obtain ⟨fd, port, prog, rfl⟩ := h
  rfl

theorem record_held (e : Servtab) (wait : Int) (daemon : Option Nat) :
    ({ e with wait := wait, daemon := daemon } : Servtab).record = e.record := rfl

/-- A launch leaves what the configuration has made of the entry, and starts the process that
`fork` gives or none. -/
theorem launch_record (c : Connection) (e : Servtab) (net : Net) :
    Post (fun _ => True)
      (fun r => r.1.record = e.record ∧ ∀ pid, r.2.2 = some pid → c.fork = some pid)
      (launch c e net) := by
  have hfork : Post (fun _ => True)
      (fun r : Servtab × Net × Option Nat => r.1.record = e.record ∧
        ∀ pid, r.2.2 = some pid → c.fork = some pid) (forkChild c e net) := by
    unfold forkChild
    dsimp only
    split
    · exact ⟨rfl, fun pid hpid => hpid⟩
    · split
      · split
        · exact ⟨rfl, fun pid hpid => hpid⟩
        · refine post_bind (post_true _) ?_
          intro net' _
          exact ⟨rfl, fun pid hpid => by cases hpid⟩
      · exact ⟨rfl, fun pid hpid => hpid⟩
  unfold launch
  dsimp only
  split
  · exact trivial
  · split
    · exact ⟨rfl, fun pid hpid => by cases hpid⟩
    · split
      · refine post_bind hfork ?_
        rintro ⟨e', net', child⟩ ⟨hrecord, hchild⟩
        cases child with
        | none => exact ⟨hrecord, fun pid hpid => by cases hpid⟩
        | some pid =>
          dsimp only
          split
          · refine post_bind (post_true _) ?_
            intro net'' _
            exact ⟨(record_held e' _ _).trans hrecord, hchild⟩
          · exact ⟨hrecord, hchild⟩
      · exact ⟨rfl, fun pid hpid => by cases hpid⟩

theorem listed_of_records (h : T.map Servtab.record = R.map Servtab.record) :
    T.map Servtab.listed = R.map Servtab.listed := by
  have hconfs := congrArg (List.map Servtab.conf) h
  rwa [List.map_map, List.map_map] at hconfs

theorem key_of_record {e' : Servtab} (h : e'.record = e.record) : e'.key = e.key := by
  show e'.record.key = e.record.key
  rw [h]

theorem keys_of_records (h : T.map Servtab.record = R.map Servtab.record) :
    T.map Servtab.key = R.map Servtab.key := by
  have hkeys := congrArg (List.map Servtab.key) h
  rwa [List.map_map, List.map_map] at hkeys

/-! ## Walks over the table -/

theorem forget_of_ne {pid : Nat} {T : List Servtab} (h : ∀ e ∈ T, e.daemon ≠ some pid) :
    T.map (forget pid) = T := by
  have hid : T.map (forget pid) = T.map id :=
    List.map_congr_left (fun e he => if_neg (h e he))
  rw [hid, List.map_id]

theorem reapchild_of_ne {pid : Nat} (net : Net) {T : List Servtab} (h : ∀ e ∈ T, e.wait ≠ pid) :
    reapchild pid T net = .ok (T, net) := by
  induction T with
  | nil => rfl
  | cons e T ih =>
    rw [reapchild, if_neg (h e List.mem_cons_self),
      ih (fun x hx => h x (List.mem_cons_of_mem e hx))]
    rfl

theorem reapchild_append {pid : Nat} (net : Net) {A : List Servtab} {e : Servtab}
    (B : List Servtab) (hA : ∀ x ∈ A, x.wait ≠ pid) (he : e.wait = pid) :
    reapchild pid (A ++ e :: B) net =
      (fdSet e.fd net).map (fun net =>
        (A ++ { e with wait := 1 } :: B, { net with nsock := net.nsock + 1 })) := by
  induction A with
  | nil =>
    rw [List.nil_append, reapchild, if_pos he]
    cases fdSet e.fd net <;> rfl
  | cons a A ih =>
    rw [List.cons_append, reapchild, if_neg (hA a List.mem_cons_self),
      ih (fun x hx => hA x (List.mem_cons_of_mem a hx))]
    cases fdSet e.fd net <;> rfl

theorem EntryOk.heldBy {opened : Finset Nat} (h : EntryOk children opened e) {pid : Nat}
    (hpid : 1 < pid) (hwait : e.wait = pid) : HeldBy pid e := by
  rcases h.server with hfree | ⟨p, -, hheld⟩
  · exact absurd hfree.wait_le (by omega)
  · have hp : p = pid := by
      have hp := hheld.2.1
      omega
    exact hp ▸ hheld

theorem EntryOk.daemon_ne {opened : Finset Nat} (h : EntryOk children opened e) {pid : Nat}
    (hwait : e.wait ≠ pid) : e.daemon ≠ some pid := by
  intro hdaemon
  rcases h.server with hfree | ⟨p, -, hheld⟩
  · rw [hfree.2] at hdaemon
    cases hdaemon
  · rw [hheld.2.2.1] at hdaemon
    obtain rfl := Option.some.inj hdaemon
    exact hwait hheld.2.1

theorem NetOk.unfork (h : NetOk children T net) {pid : Nat} (hpid : ∀ e ∈ T, e.daemon ≠ some pid) :
    NetOk (children.erase pid) T net where
  entries x hx := by
    have hok := h.entries x hx
    refine ⟨hok.fd, hok.server.imp_right ?_⟩
    rintro ⟨p, hp, hheld⟩
    refine ⟨p, (List.mem_erase_of_ne ?_).mpr hp, hheld⟩
    rintro rfl
    exact hpid x hx hheld.2.2.1
  distinct := h.distinct
  holders := h.holders
  nsock := h.nsock
  allsock := h.allsock

theorem reapchild_post {E : Stop → Prop} (h : NetOk children T net) {pid : Nat} (hpid : 1 < pid) :
    Post E (fun r => NetOk (children.erase pid) (r.1.map (forget pid)) r.2)
      (reapchild pid T net) := by
  by_cases hnone : ∀ e ∈ T, e.wait ≠ pid
  · have hdaemon : ∀ e ∈ T, e.daemon ≠ some pid :=
      fun e he => (h.entries e he).daemon_ne (hnone e he)
    rw [reapchild_of_ne net hnone, post_ok, forget_of_ne hdaemon]
    exact h.unfork hdaemon
  · -- The first entry with that wait flag is the one the process holds.
    have hfound : (T.find? (fun e : Servtab => decide (e.wait = (pid : Int)))).isSome := by
      rw [List.find?_isSome]
      simpa using hnone
    obtain ⟨e, hfind⟩ := Option.isSome_iff_exists.mp hfound
    obtain ⟨hwait, A, B, rfl, hA⟩ := List.find?_eq_some_iff_append.mp hfind
    have hwait' : e.wait = pid := by simpa using hwait
    have hA' : ∀ x ∈ A, x.wait ≠ pid := by
      intro x hx
      simpa using hA x hx
    have hmid : NetOk children (e :: (A ++ B)) net := h.perm List.perm_middle
    have hheld := (hmid.entries e List.mem_cons_self).heldBy hpid hwait'
    obtain ⟨n, hn, hlt, -⟩ := hmid.fd_eq hheld.2.2.2
    have hnetok : NetOk (children.erase pid) ({ e with wait := 1, daemon := none } :: (A ++ B))
        { net with nsock := net.nsock + 1, allsock := insert n net.allsock } :=
      hmid.release hheld hn rfl rfl rfl
    have hothers : ∀ x ∈ A ++ B, x.daemon ≠ some pid := by
      intro x hx hdaemon
      have hholders := hmid.holders
      rw [List.flatMap_cons, hheld.2.2.1] at hholders
      refine (List.nodup_cons.mp hholders).1 (List.mem_flatMap.mpr ⟨x, hx, ?_⟩)
      rw [hdaemon]
      exact List.mem_singleton_self pid
    have hmap : (A ++ { e with wait := 1 } :: B).map (forget pid) =
        A ++ { e with wait := 1, daemon := none } :: B := by
      rw [List.map_append, List.map_cons,
        forget_of_ne (fun x hx => hothers x (List.mem_append_left B hx)),
        forget_of_ne (fun x hx => hothers x (List.mem_append_right A hx)), forget,
        if_pos hheld.2.2.1]
    rw [reapchild_append net B hA' hwait', fdSet_eq hn hlt]
    show NetOk (children.erase pid) ((A ++ { e with wait := 1 } :: B).map (forget pid)) _
    rw [hmap]
    exact hnetok.perm List.perm_middle.symm

theorem reapchild_record (pid : Nat) (T : List Servtab) (net : Net) :
    Post (fun _ => True)
      (fun r => (r.1.map (forget pid)).map Servtab.record = T.map Servtab.record)
      (reapchild pid T net) := by
  have hone : ∀ e : Servtab, (forget pid e).record = e.record := by
    intro e
    unfold forget
    split <;> rfl
  have hforget : ∀ R : List Servtab,
      (R.map (forget pid)).map Servtab.record = R.map Servtab.record := by
    intro R
    rw [List.map_map]
    exact List.map_congr_left (fun e _ => hone e)
  induction T with
  | nil => exact rfl
  | cons e T ih =>
    unfold reapchild
    split
    · refine post_bind (post_true _) (fun net' _ => ?_)
      exact hforget _
    · refine post_bind ih ?_
      rintro ⟨rest, net'⟩ hrest
      show ((e :: rest).map (forget pid)).map Servtab.record = _
      rw [hforget, List.map_cons, List.map_cons, ← hrest, hforget]

theorem restartServices_record (calls : Calls) (T : List Servtab) (net : Net) :
    Post (fun _ => True) (fun r => r.1.map Servtab.record = T.map Servtab.record)
      (restartServices calls T net) := by
  induction T generalizing net with
  | nil => exact rfl
  | cons e T ih =>
    have hopen : Post (fun _ => True) (fun r => r.1.record = e.record) (openSocket calls e net) :=
      post_results (post_true _) (fun r hr _ => (openSocket_same hr).record)
    refine post_bind hopen ?_
    rintro ⟨e', net'⟩ hrecord
    refine post_bind (ih net') ?_
    rintro ⟨rest, net''⟩ hrest
    show (e' :: rest).map Servtab.record = (e :: T).map Servtab.record
    dsimp only at hrecord hrest
    rw [List.map_cons, List.map_cons, hrecord, hrest]

theorem restartServices_post {calls : Calls} (hcalls : CallsOk calls)
    (h : NetOk children (P ++ T) net) :
    Post (Again calls.execs) (fun r => NetOk children (P ++ r.1) r.2)
      (restartServices calls T net) := by
  induction T generalizing P net with
  | nil => exact h
  | cons e T ih =>
    have hhead := h.perm List.perm_middle
    have hserver : Free e ∨ e.fd ≠ -1 := by
      rcases (hhead.entries e List.mem_cons_self).server with hfree | ⟨pid, -, hheld⟩
      · exact Or.inl hfree
      · exact Or.inr hheld.2.2.2
    refine post_bind (openSocket_post hcalls hhead hserver) ?_
    rintro ⟨e', net'⟩ hnet
    have hnext : NetOk children ((P ++ [e']) ++ T) net' := by
      rw [List.append_assoc]
      exact hnet.perm List.perm_middle.symm
    refine post_bind (ih hnext) ?_
    rintro ⟨rest, net''⟩ hrest
    rw [List.append_assoc] at hrest
    exact hrest

theorem dropSocket_post {E : Stop → Prop} (h : NetOk children (e :: R) net) (hfree : Free e) :
    Post E (fun net' => NetOk children R net') (dropSocket e net) := by
  unfold dropSocket
  split
  · next hfd => exact h.leave hfree hfd
  · next hfd =>
    refine post_bind (closeit_post h hfree hfd) ?_
    rintro ⟨e', net'⟩ ⟨hnet, heq⟩
    dsimp only at heq
    rw [heq] at hnet
    exact hnet.leave hfree rfl

theorem purge_sublist (T : List Servtab) (heap : Heap) (net : Net) :
    Post (fun _ => True) (fun r => r.1.Sublist T) (purge T heap net) := by
  induction T generalizing heap net with
  | nil => exact List.Sublist.refl []
  | cons e T ih =>
    rw [purge]
    split
    · exact post_bind (ih heap net) (fun r hr => hr.cons_cons e)
    · refine post_bind (post_true _) (fun net' _ => ?_)
      exact post_mono (ih _ net') (fun r hr => hr.cons e)

theorem purge_post {E : Stop → Prop} {heap : Heap} (h : NetOk children (P ++ T) net)
    (hfree : ∀ e ∈ T, e.checked = false → Free e) :
    Post E (fun r => NetOk children (P ++ r.1) r.2.2 ∧ r.1 = T.filter Servtab.checked)
      (purge T heap net) := by
  induction T generalizing P net heap with
  | nil => exact ⟨h, rfl⟩
  | cons e T ih =>
    have hrest : ∀ x ∈ T, x.checked = false → Free x :=
      fun x hx => hfree x (List.mem_cons_of_mem e hx)
    rw [purge]
    split
    · next hchecked =>
      have hnext : NetOk children ((P ++ [e]) ++ T) net := by
        rw [List.append_assoc]
        exact h
      refine post_bind (ih hnext hrest) ?_
      rintro ⟨rest, heap', net'⟩ ⟨hnet, heq⟩
      rw [List.append_assoc] at hnet
      refine ⟨hnet, ?_⟩
      dsimp only at heq ⊢
      rw [List.filter_cons, if_pos hchecked, heq]
    · next hchecked =>
      have hfree_e := hfree e List.mem_cons_self ((Bool.not_eq_true _).mp hchecked)
      have hhead := h.perm List.perm_middle
      refine post_bind (dropSocket_post hhead hfree_e) ?_
      intro net' hnet
      refine post_mono (ih hnet hrest) ?_
      rintro r ⟨hnet', heq⟩
      rw [List.filter_cons, if_neg hchecked]
      exact ⟨hnet', heq⟩

/-! ## Steps -/

theorem ready_record (fd : Nat) (c : Connection) (s : State) :
    Post (fun _ => True)
      (fun t => t.servtab.map Servtab.record = s.servtab.map Servtab.record ∧ t.heap = s.heap)
      (ready fd c s) := by
  unfold ready
  split
  · exact ⟨rfl, rfl⟩
  · next i _ =>
    split
    · exact ⟨rfl, rfl⟩
    · next e he =>
      refine post_bind (launch_record c e s.net) ?_
      rintro ⟨e', net', child⟩ ⟨hrecord, -⟩
      obtain ⟨hi, rfl⟩ := List.getElem?_eq_some_iff.mp he
      refine ⟨?_, rfl⟩
      show (s.servtab.set i e').map Servtab.record = s.servtab.map Servtab.record
      dsimp only at hrecord
      have hi' : i < (s.servtab.map Servtab.record).length := by rwa [List.length_map]
      rw [List.map_set, hrecord, ← List.getElem_map Servtab.record (h := hi'),
        List.set_getElem_self]

/-- The records and the memory are what they were, or inetd has been executed again. -/
def Unloaded (s t : State) : Prop :=
  t.servtab.map Servtab.record = s.servtab.map Servtab.record ∧ t.heap = s.heap ∨
    t.servtab = [] ∧ t.heap = init.heap

theorem unloaded_stopped (s : State) (execs : Bool) (stop : Stop) :
    Unloaded s (stopped s execs stop) := by
  unfold stopped
  cases stop with
  | restart =>
    dsimp only
    split
    · exact Or.inr ⟨rfl, rfl⟩
    · exact Or.inl ⟨rfl, rfl⟩
  | overflow => exact Or.inl ⟨rfl, rfl⟩
  | badDescriptor => exact Or.inl ⟨rfl, rfl⟩

theorem unloaded_ended {s : State} {execs : Bool} {x : Except Stop State}
    (hx : Post (fun _ => True)
      (fun t => t.servtab.map Servtab.record = s.servtab.map Servtab.record ∧ t.heap = s.heap) x) :
    Unloaded s (ended s execs x) := by
  cases x with
  | ok t => exact Or.inl hx
  | error stop => exact unloaded_stopped s execs stop

theorem step_cases {s t : State} {e : Event} (h : step s e = some t) :
    (∃ file hosts calls, e = .config (some file) hosts calls ∧
      config hosts calls file s = .ok t) ∨ Unloaded s t := by
  cases e with
  | config file hosts calls =>
    dsimp only [step] at h
    split at h
    · cases h
    · cases file with
      | none =>
        obtain rfl := Option.some.inj h
        exact Or.inr (Or.inl ⟨rfl, rfl⟩)
      | some file =>
        obtain rfl := Option.some.inj h
        cases hconfig : config hosts calls file s with
        | ok t => exact Or.inl ⟨file, hosts, calls, rfl, hconfig⟩
        | error stop => exact Or.inr (unloaded_stopped s calls.execs stop)
  | ready fd c =>
    dsimp only [step] at h
    split at h
    · cases h
    · obtain rfl := Option.some.inj h
      exact Or.inr (unloaded_ended (ready_record fd c s))
  | exit pid =>
    dsimp only [step] at h
    split at h
    · cases h
    · obtain rfl := Option.some.inj h
      refine Or.inr (unloaded_ended (post_bind (reapchild_record pid s.servtab s.net) ?_))
      rintro ⟨servtab, net⟩ hreap
      exact ⟨hreap, rfl⟩
  | alarm calls =>
    dsimp only [step] at h
    split at h
    · cases h
    · obtain rfl := Option.some.inj h
      refine Or.inr (unloaded_ended (post_bind (restartServices_record calls s.servtab _) ?_))
      rintro ⟨servtab, net⟩ hrestart
      exact ⟨hrestart, rfl⟩

end Netkit.Inetd

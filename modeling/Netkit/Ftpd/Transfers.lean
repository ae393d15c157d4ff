import Mathlib.Data.List.Nodup
import Netkit.Ftpd.Dataconn

/-!
# Where transfers go, and what they leave behind

* `settled_of_regular`: that is so in every run without the steps that lose track.
-/

namespace Netkit.Ftpd.Data

open Netkit.Foundations

variable {c before : Conns} {s t : Session} {files : List Handle} {conn : Handle}

/-! ## The invariants -/

def Conns.goal (c : Conns) : Source :=
  match c.pdata with
  | some h => .passive h
  | none => if c.usedefault then .default else .port c.dataDest

def Conns.UsesDue (c : Conns) : Prop := ∀ u ∈ c.uses, u.source = u.due

/-- No transfer is under way; `files` are the local files that are open. -/
structure Ready (files : List Handle) (c : Conns) : Prop where
  data : c.data = none
  opened : c.opened = files ++ c.pdata.toList
  nodup : c.opened.Nodup
  fresh : ∀ h ∈ c.opened, h < c.next
  due : c.due = c.goal
  waits : c.pdata ≠ none → c.usedefault = true
  uses : c.UsesDue

/-- A transfer has the connection `conn`. -/
structure Connected (files : List Handle) (conn : Handle) (c : Conns) : Prop where
  opened : c.opened = conn :: files
  nodup : c.opened.Nodup
  fresh : ∀ h ∈ c.opened, h < c.next
  due : c.due = .default
  usedefault : c.usedefault = true
  uses : c.UsesDue

/-- No transfer is under way, and no connection is there when the last command has got one. -/
structure Idle (files : List Handle) (s : Session) : Prop where
  ready : Ready files s.conns
  transflag : s.transflag = 0
  closed : s.conns.obtained = true → s.conns.pdata = none
  astray : s.astray = false

/-- A transfer is under way. -/
structure Busy (files : List Handle) (conn : Handle) (s : Session) : Prop where
  connected : Connected files conn s.conns
  astray : s.astray = false

/-- Every transfer has gone where it was due, and a transfer that has got its connection has
left nothing open. -/
structure Settled (s : Session) : Prop where
  uses : s.conns.UsesDue
  closed : s.conns.obtained = true → s.conns.data = none ∧ s.conns.pdata = none ∧
    s.transflag = 0 ∧ s.conns.opened = []

theorem Idle.settled (h : Idle [] s) : Settled s where
  uses := h.ready.uses
  closed := fun hobtained => by
    have hpdata := h.closed hobtained
    have hopened := h.ready.opened
    rw [hpdata] at hopened
    exact ⟨h.ready.data, hpdata, h.transflag, hopened⟩

/-! ## Descriptors -/

theorem fresh_cons (hfresh : ∀ h ∈ c.opened, h < c.next) (hnodup : c.opened.Nodup) :
    (c.next :: c.opened).Nodup ∧ ∀ h ∈ c.next :: c.opened, h < c.next + 1 := by
  refine ⟨List.nodup_cons.mpr ⟨fun hmem => Nat.lt_irrefl _ (hfresh c.next hmem), hnodup⟩,
    fun h hh => ?_⟩
  rcases List.mem_cons.mp hh with rfl | hh
  · exact Nat.lt_succ_self _
  · exact Nat.lt_succ_of_lt (hfresh h hh)

theorem filter_ne {f : Handle} {before after : List Handle}
    (hnodup : (before ++ f :: after).Nodup) :
    (before ++ f :: after).filter (fun o => o ≠ f) = before ++ after := by
  rw [List.nodup_append, List.nodup_cons] at hnodup
  obtain ⟨-, ⟨hafter, -⟩, hbefore⟩ := hnodup
  rw [List.filter_append, List.filter_cons_of_neg (by simp), List.filter_eq_self.mpr,
    List.filter_eq_self.mpr]
  · intro g hg
    have hne : g ≠ f := fun heq => hafter (heq ▸ hg)
    simpa using hne
  · intro g hg
    have hne : g ≠ f := hbefore g hg f List.mem_cons_self
    simpa using hne

theorem close_opened {f : Handle} {before after : List Handle}
    (hopened : c.opened = before ++ f :: after) (hnodup : c.opened.Nodup) :
    (c.close f).opened = before ++ after := by
  rw [hopened] at hnodup
  unfold Conns.close
  rw [hopened]
  exact filter_ne hnodup

theorem Ready.openNext (h : Ready files c) : Ready (c.next :: files) c.openNext where
  data := h.data
  opened := congrArg (c.next :: ·) h.opened
  nodup := (fresh_cons h.fresh h.nodup).1
  fresh := (fresh_cons h.fresh h.nodup).2
  due := h.due
  waits := h.waits
  uses := h.uses

theorem Ready.close {f : Handle} (h : Ready (f :: files) c) : Ready files (c.close f) where
  data := h.data
  opened := @close_opened _ _ [] _ h.opened h.nodup
  nodup := h.nodup.filter _
  fresh := fun g hg => h.fresh g (List.mem_of_mem_filter hg)
  due := h.due
  waits := h.waits
  uses := h.uses

theorem Connected.endTransfer (h : Connected files conn c) :
    Ready files (c.endTransfer conn) where
  data := rfl
  opened := (@close_opened _ _ [] _ h.opened h.nodup).trans (List.append_nil _).symm
  nodup := h.nodup.filter _
  fresh := fun g hg => h.fresh g (List.mem_of_mem_filter hg)
  due := by
    have hdue : (c.endTransfer conn).due = .default := h.due
    rw [hdue]
    exact (if_pos h.usedefault).symm
  waits := fun hne => absurd rfl hne
  uses := h.uses

theorem closePassive_opened (h : Ready files c) :
    c.closePassive = { c with opened := files } := by
  unfold Conns.closePassive
  split
  · next hpdata =>
    have hopened : c.opened = files := by
      rw [h.opened, hpdata]
      exact List.append_nil _
    rw [← hopened]
  · next p hpdata =>
    have hopened : c.opened = files ++ p :: [] := by
      rw [h.opened, hpdata]
      rfl
    have hclose := close_opened hopened h.nodup
    rw [List.append_nil] at hclose
    exact congrArg (fun opened => { c with opened := opened }) hclose

theorem Ready.files_nodup (h : Ready files c) :
    files.Nodup ∧ ∀ g ∈ files, g < c.next := by
  have hnodup := h.nodup
  rw [h.opened] at hnodup
  refine ⟨(List.nodup_append.mp hnodup).1, fun g hg => h.fresh g ?_⟩
  rw [h.opened]
  exact List.mem_append_left _ hg

/-! ## PORT and PASV -/

/-- While no `PORT` waits, the address does not matter. -/
theorem Ready.hostPort {n : HostPort} (h : Ready files c)
    (hwaits : n.inRange = true → c.usedefault = true) : Ready files (c.hostPort n) := by
  unfold Conns.hostPort
  split
  · next hrange =>
    refine ⟨h.data, h.opened, h.nodup, h.fresh, ?_, h.waits, h.uses⟩
    rw [show Conns.due { c with dataDest := n.address } = c.due from rfl, h.due]
    unfold Conns.goal
    simp only [hwaits hrange, if_true]
  · exact h

theorem hostPort_eq (n : HostPort) (c : Conns) :
    ∃ a, c.hostPort n = { c with dataDest := a } := by
  unfold Conns.hostPort
  split
  · exact ⟨_, rfl⟩
  · exact ⟨c.dataDest, rfl⟩

theorem goal_withoutPort (c : Conns) (a : Address) : c.goal.withoutPort =
    Conns.goal { c with dataDest := a, usedefault := true } := by
  unfold Conns.goal
  cases c.pdata with
  | some p => rfl
  | none =>
    cases c.usedefault with
    | true => rfl
    | false => rfl

/-- A rejected `PORT` takes an earlier one back. -/
theorem Ready.rejectPort {n : HostPort} (h : Ready files c) :
    Ready files (c.hostPort n).rejectPort := by
  obtain ⟨a, ha⟩ := hostPort_eq n c
  rw [ha]
  refine ⟨h.data, h.opened, h.nodup, h.fresh, ?_, fun _ => rfl, h.uses⟩
  exact (congrArg Source.withoutPort h.due).trans (goal_withoutPort c a)

/-- An accepted `PORT` closes the socket of an earlier `PASV`. -/
theorem Ready.acceptPort {n : HostPort} (h : Ready files c) :
    Ready files (c.hostPort n).acceptPort := by
  obtain ⟨a, ha⟩ := hostPort_eq n c
  have hclosed : ({ c with dataDest := a } : Conns).closePassive =
      { c.closePassive with dataDest := a } := by
    unfold Conns.closePassive
    dsimp only
    split <;> rfl
  rw [ha]
  unfold Conns.acceptPort
  rw [hclosed, closePassive_opened h]
  exact ⟨h.data, (List.append_nil _).symm, h.files_nodup.1, h.files_nodup.2, rfl,
    fun hne => absurd rfl hne, h.uses⟩

theorem goal_withoutPassive (hdefault : c.usedefault = true) :
    c.goal.withoutPassive = .default := by
  unfold Conns.goal
  rw [hdefault]
  cases c.pdata with
  | some p => rfl
  | none => rfl

theorem Ready.failPassive (h : Ready files c) (hdefault : c.usedefault = true) :
    Ready files c.failPassive := by
  unfold Conns.failPassive
  rw [closePassive_opened h]
  refine ⟨h.data, (List.append_nil _).symm, h.files_nodup.1, h.files_nodup.2, ?_,
    fun hne => absurd rfl hne, h.uses⟩
  rw [h.due, goal_withoutPassive hdefault]
  exact (if_pos hdefault).symm

theorem Ready.listenPassive (h : Ready [] c) (hdefault : c.usedefault = true) :
    Ready [] c.listenPassive := by
  unfold Conns.listenPassive
  rw [closePassive_opened h]
  refine ⟨h.data, rfl, List.nodup_singleton _, fun g hg => ?_, rfl, fun _ => hdefault, h.uses⟩
  rw [List.mem_singleton.mp hg]
  exact Nat.lt_succ_self _

/-! ## The connection -/

theorem usesDue_snoc {source : Source} (h : c.UsesDue) (hsource : source = c.due) :
    (c.use source).UsesDue := by
  intro u hu
  rcases List.mem_append.mp hu with hu | hu
  · exact h u hu
  · rw [List.mem_singleton.mp hu]
    exact hsource

theorem Ready.passive_due {p : Handle} (h : Ready files c) (hpdata : c.pdata = some p) :
    Source.passive p = c.due ∧ c.usedefault = true ∧ c.opened = files ++ p :: [] := by
  refine ⟨?_, h.waits (by rw [hpdata]; exact Option.some_ne_none p), ?_⟩
  · rw [h.due, Conns.goal, hpdata]
  · rw [h.opened, hpdata]
    rfl

theorem Ready.refuseAccept {p : Handle} (h : Ready files c) (hpdata : c.pdata = some p) :
    Ready files (c.refuseAccept p) := by
  obtain ⟨hdue, hdefault, hopened⟩ := h.passive_due hpdata
  refine ⟨h.data, ?_, h.nodup.filter _, fun g hg => h.fresh g (List.mem_of_mem_filter hg),
    (if_pos hdefault).symm, fun hne => absurd rfl hne, usesDue_snoc h.uses hdue⟩
  exact close_opened (c := c.use (.passive p)) hopened h.nodup

theorem Ready.accepted_opened {p : Handle} (h : Ready files c) (hpdata : c.pdata = some p) :
    ((c.use (.passive p)).openNext.close p).opened = c.next :: files := by
  obtain ⟨-, -, hopened⟩ := h.passive_due hpdata
  have hnodup := (fresh_cons h.fresh h.nodup).1
  rw [hopened] at hnodup
  have hopened' : (c.use (.passive p)).openNext.opened = (c.next :: files) ++ p :: [] :=
    congrArg (c.next :: ·) hopened
  have hclosed := close_opened hopened' (by rw [hopened']; exact hnodup)
  rwa [List.append_nil] at hclosed

theorem Ready.refusePeer {p : Handle} (h : Ready files c) (hpdata : c.pdata = some p) :
    Ready files (c.refusePeer p) := by
  obtain ⟨hdue, hdefault, -⟩ := h.passive_due hpdata
  have haccepted := h.accepted_opened hpdata
  have hnodup : (c.next :: files).Nodup := List.nodup_cons.mpr
    ⟨fun hmem => Nat.lt_irrefl _ (h.files_nodup.2 _ hmem), h.files_nodup.1⟩
  have hopened : (c.refusePeer p).opened = files :=
    @close_opened _ _ [] _ haccepted (by rw [haccepted]; exact hnodup)
  refine ⟨h.data, hopened.trans (List.append_nil _).symm, by rw [hopened]; exact h.files_nodup.1,
    fun g hg => ?_, (if_pos hdefault).symm, fun hne => absurd rfl hne, usesDue_snoc h.uses hdue⟩
  rw [hopened] at hg
  exact Nat.lt_succ_of_lt (h.files_nodup.2 g hg)

theorem Ready.acceptPeer {p : Handle} (h : Ready files c) (hpdata : c.pdata = some p) :
    Connected files c.next (c.acceptPeer p) := by
  obtain ⟨hdue, hdefault, -⟩ := h.passive_due hpdata
  have hopened : (c.acceptPeer p).opened = c.next :: files := h.accepted_opened hpdata
  refine ⟨hopened, ?_, fun g hg => ?_, rfl, hdefault, usesDue_snoc h.uses hdue⟩
  · rw [hopened]
    exact List.nodup_cons.mpr
      ⟨fun hmem => Nat.lt_irrefl _ (h.files_nodup.2 _ hmem), h.files_nodup.1⟩
  · rw [hopened] at hg
    rcases List.mem_cons.mp hg with rfl | hg
    · exact Nat.lt_succ_self _
    · exact Nat.lt_succ_of_lt (h.files_nodup.2 g hg)

theorem Ready.dial {hisAddr : Address} (h : Ready files c) (hpdata : c.pdata = none) :
    Ready files (c.dial hisAddr) := by
  have hdue : (if c.usedefault then Source.default else .port c.dataDest) = c.due := by
    rw [h.due, Conns.goal, hpdata]
  refine ⟨h.data, h.opened, h.nodup, h.fresh, ?_, fun _ => rfl, ?_⟩
  · have hgoal : (c.dial hisAddr).goal = .default := by
      rw [Conns.goal, show (c.dial hisAddr).pdata = none from hpdata]
      rfl
    exact hgoal.symm
  · exact usesDue_snoc (c := { c with
      dataDest := if c.usedefault then hisAddr else c.dataDest
      usedefault := true }) h.uses hdue

theorem Ready.openData (h : Ready files c) (hpdata : c.pdata = none)
    (hdue : c.due = .default) (hdefault : c.usedefault = true) :
    Connected files c.next c.openData := by
  have hopened : c.opened = files := by
    rw [h.opened, hpdata]
    exact List.append_nil _
  exact ⟨congrArg (c.next :: ·) hopened, (fresh_cons h.fresh h.nodup).1,
    (fresh_cons h.fresh h.nodup).2, hdue, hdefault, h.uses⟩

theorem Connected.giveUp (h : Connected files conn c) (hpdata : c.pdata = none) :
    Ready files (c.giveUp conn) := by
  have hend := h.endTransfer
  have heq : c.giveUp conn = c.endTransfer conn := by
    unfold Conns.giveUp Conns.endTransfer
    rw [← show (c.close conn).pdata = none from hpdata]
  rw [heq]
  exact hend

/-- What `dataconn` comes to. -/
def Dialled (files : List Handle) : Option Handle × Session → Prop
  | (none, t) => Idle files t
  | (some conn, t) => Busy files conn t ∧ t.transflag = 0

theorem idle_of_conns {c : Conns} (h : Idle files s) (hready : Ready files c)
    (hclosed : c.obtained = true → c.pdata = none) (ht : t.conns = c)
    (htransflag : t.transflag = s.transflag) (hastray : t.astray = s.astray) : Idle files t :=
  ⟨ht ▸ hready, htransflag.trans h.transflag, ht ▸ hclosed, hastray.trans h.astray⟩

theorem acceptPassive_dialled {env : ConnectEnv} {name : Bytes} {p : Handle}
    (h : Idle files s) (hpdata : s.conns.pdata = some p) :
    Dialled files (acceptPassive env name p s) := by
  have hrefused : Ready files (s.conns.refusePeer p) := h.ready.refusePeer hpdata
  unfold acceptPassive
  split
  · exact idle_of_conns h (h.ready.refuseAccept hpdata) (fun _ => rfl) rfl rfl rfl
  · split
    · exact idle_of_conns h hrefused (fun _ => rfl) rfl rfl rfl
    · split
      · exact idle_of_conns h hrefused (fun _ => rfl) rfl rfl rfl
      · exact ⟨⟨h.ready.acceptPeer hpdata, h.astray⟩, h.transflag⟩

theorem connectOut_dialled {env : ConnectEnv} {name : Bytes} (h : Idle files s)
    (hpdata : s.conns.pdata = none) : Dialled files (connectOut env name s) := by
  have hdial : Ready files (s.conns.dial s.hisAddr) := h.ready.dial hpdata
  have hopen : Connected files (s.conns.dial s.hisAddr).next (s.conns.dial s.hisAddr).openData :=
    hdial.openData hpdata rfl rfl
  have hgiveUp : ∀ code, Idle files (({ s with conns := (s.conns.dial s.hisAddr).openData } :
      Session).giveUp code env (s.conns.dial s.hisAddr).next) := fun code =>
    idle_of_conns h (hopen.giveUp hpdata) (fun _ => hpdata) rfl rfl rfl
  unfold connectOut
  dsimp only
  split
  · exact idle_of_conns h hdial (fun _ => hpdata) rfl rfl rfl
  · split
    · exact hgiveUp 425
    · split
      · exact hgiveUp 435
      · split
        · exact hgiveUp 425
        · exact ⟨⟨⟨hopen.opened, hopen.nodup, hopen.fresh, hopen.due, hopen.usedefault,
            hopen.uses⟩, h.astray⟩, h.transflag⟩

theorem dataconn_dialled {env : ConnectEnv} {name : Bytes} {size : Option Nat}
    (h : Idle files s) : Dialled files (dataconn env name size s) := by
  have hs : Idle files { s with fileSize := size, byteCount := 0 } :=
    ⟨h.ready, h.transflag, h.closed, h.astray⟩
  unfold dataconn
  dsimp only
  split
  · next p hpdata => exact acceptPassive_dialled hs hpdata
  · next hpdata =>
    split
    · next d hdata => exact absurd (h.ready.data.symm.trans hdata) (Option.some_ne_none d).symm
    · exact connectOut_dialled hs hpdata

/-! ## Transfers -/

theorem myoob_keeps (u : Urgent) (s : Session) :
    (myoob u s).2.conns = s.conns ∧ (myoob u s).2.astray = s.astray := by
  unfold myoob
  split
  · exact ⟨rfl, rfl⟩
  · cases u <;> exact ⟨rfl, rfl⟩

theorem flow_keeps (ms : List Moment) (s : Session) :
    (flow ms s).2.conns = s.conns ∧ (flow ms s).2.astray = s.astray := by
  induction ms generalizing s with
  | nil => exact ⟨rfl, rfl⟩
  | cons moment ms ih =>
    cases moment with
    | bytes n => exact ih { s with byteCount := s.byteCount + n }
    | urgent u =>
      have hoob := myoob_keeps u s
      unfold flow
      dsimp only
      split
      · exact hoob
      · exact ⟨(ih _).1.trans hoob.1, (ih _).2.trans hoob.2⟩

theorem sendData_keeps {course : Course} (hearly : course.early = false) (s : Session) :
    (sendData course s).conns = s.conns ∧ (sendData course s).transflag = 0 ∧
      (sendData course s).astray = s.astray := by
  obtain ⟨hconns, hastray⟩ := flow_keeps course.moments { s with transflag := s.transflag + 1 }
  unfold sendData
  dsimp only
  rw [if_neg (by rw [hearly]; exact Bool.false_ne_true)]
  split
  · exact ⟨hconns, rfl, hastray⟩
  · split
    · exact ⟨hconns, rfl, hastray⟩
    · cases course.ending <;> exact ⟨hconns, rfl, hastray⟩

theorem receiveData_keeps {course : Course} (hearly : course.early = false) (s : Session) :
    (receiveData course s).2.conns = s.conns ∧ (receiveData course s).2.transflag = 0 ∧
      (receiveData course s).2.astray = s.astray := by
  obtain ⟨hconns, hastray⟩ := flow_keeps course.moments { s with transflag := s.transflag + 1 }
  unfold receiveData
  dsimp only
  rw [if_neg (by rw [hearly]; exact Bool.false_ne_true)]
  split
  · exact ⟨hconns, rfl, hastray⟩
  · split
    · exact ⟨hconns, rfl, hastray⟩
    · cases course.ending with
      | complete =>
        dsimp only
        split <;> exact ⟨hconns, rfl, hastray⟩
      | fileErr => exact ⟨hconns, rfl, hastray⟩
      | dataErr => exact ⟨hconns, rfl, hastray⟩
      | malloc => exact ⟨hconns, rfl, hastray⟩

theorem Busy.endTransfer (h : Busy files conn s) (ht : t.conns = s.conns)
    (htransflag : t.transflag = 0) (hastray : t.astray = s.astray) :
    Idle files { t with conns := t.conns.endTransfer conn } := by
  refine ⟨?_, htransflag, fun _ => rfl, hastray.trans h.astray⟩
  dsimp only
  rw [ht]
  exact h.connected.endTransfer

theorem retrieveFrom_idle {cmd : Bool} {env : FileEnv} {name : Bytes} (h : Idle files s)
    (hearly : env.course.early = false) : Idle files (retrieveFrom cmd env name s) := by
  have hdialled := @dataconn_dialled _ _ env.conn name
    (if cmd then none else some env.size) h
  unfold retrieveFrom
  split
  · exact ⟨h.ready, h.transflag, h.closed, h.astray⟩
  · split
    · exact ⟨h.ready, h.transflag, h.closed, h.astray⟩
    · split
      · next t ht =>
        rw [ht] at hdialled
        exact hdialled
      · next conn t ht =>
        rw [ht] at hdialled
        obtain ⟨hconns, htransflag, hastray⟩ := sendData_keeps hearly t
        exact hdialled.1.endTransfer hconns htransflag hastray

theorem storeTo_idle {env : FileEnv} {name : Bytes} {unique : Bool} (h : Idle files s)
    (hearly : env.course.early = false) : Idle files (storeTo env name unique s) := by
  have hdialled := @dataconn_dialled _ _ env.conn name none h
  unfold storeTo
  split
  · exact ⟨h.ready, h.transflag, h.closed, h.astray⟩
  · split
    · next t ht =>
      rw [ht] at hdialled
      exact hdialled
    · next conn t ht =>
      rw [ht] at hdialled
      obtain ⟨hconns, htransflag, hastray⟩ := receiveData_keeps hearly t
      dsimp only
      split
      · exact hdialled.1.endTransfer (t := (receiveData env.course t).2.reply _ _)
          hconns htransflag hastray
      · exact hdialled.1.endTransfer hconns htransflag hastray

theorem Idle.openNext (h : Idle files s) (hobtained : s.conns.obtained = false) :
    Idle (s.conns.next :: files) { s with conns := s.conns.openNext } :=
  ⟨h.ready.openNext, h.transflag, fun h' => absurd (hobtained.symm.trans h') Bool.false_ne_true,
    h.astray⟩

theorem Idle.close {f : Handle} (h : Idle (f :: files) s) :
    Idle files { s with conns := s.conns.close f } :=
  ⟨h.ready.close, h.transflag, h.closed, h.astray⟩

theorem retrieve_idle {cmd : Bool} {env : FileEnv} {name : Bytes} (h : Idle files s)
    (hobtained : s.conns.obtained = false) (hearly : env.course.early = false) :
    Idle files (retrieve cmd env name s) := by
  unfold retrieve
  split
  · split
    · exact ⟨h.ready, h.transflag, h.closed, h.astray⟩
    · exact h
  · exact (retrieveFrom_idle (h.openNext hobtained) hearly).close

theorem storeNamed_idle {env : FileEnv} {name : Bytes} {unique : Bool} (h : Idle files s)
    (hobtained : s.conns.obtained = false) (hearly : env.course.early = false) :
    Idle files (storeNamed env name unique s) := by
  unfold storeNamed
  split
  · exact ⟨h.ready, h.transflag, h.closed, h.astray⟩
  · exact (storeTo_idle (h.openNext hobtained) hearly).close

theorem store_idle {env : FileEnv} {unique : Option Unique} {name : Bytes} (h : Idle files s)
    (hobtained : s.conns.obtained = false) (hearly : env.course.early = false) :
    Idle files (store env unique name s) := by
  unfold store
  split
  · exact storeNamed_idle h hobtained hearly
  · exact ⟨h.ready, h.transflag, h.closed, h.astray⟩
  · exact h
  · exact storeNamed_idle h hobtained hearly
  · exact storeNamed_idle h hobtained hearly

/-! ## NLST -/

def Item.listed : Item → Bool
  | .name _ listed => listed
  | .urgent _ => false

/-- No `ABOR` comes while names are written, as they are from the first one on. -/
def quietItems : List Item → Bool → Bool
  | [], _ => true
  | .name _ listed :: items, started => quietItems items (started || listed)
  | .urgent .abor :: items, started => !started && quietItems items started
  | .urgent _ :: items, started => quietItems items started

def Entry.finds : Entry → Bool
  | .missing _ => true
  | .regular _ => true
  | .directory (some items) => items.any Item.listed
  | .directory none => false
  | .special => false
  | .urgent _ => false

def quietEntries : List Entry → Bool → Bool
  | [], _ => true
  | .missing _ :: _, _ => true
  | .regular _ :: entries, _ => quietEntries entries true
  | .directory (some items) :: entries, started =>
    quietItems items started && quietEntries entries (started || items.any Item.listed)
  | .urgent .abor :: entries, started => !started && quietEntries entries started
  | _ :: entries, started => quietEntries entries started

/-- The list is under way: it has its connection from the first name on, and nothing has been
touched before. -/
def Listing (before : Conns) : Option Handle → Session → Prop
  | none, s => Idle [] s ∧ s.conns.obtained = false ∧ s.conns = before
  | some conn, s => Busy [] conn s ∧ s.transflag ≠ 0

def Listed (before : Conns) (found : Bool) :
    Except Session (Option Handle × Session) → Prop
  | .error t => Idle [] t
  | .ok (dout, t) => Listing before dout t ∧ dout.isSome = found

theorem listName_listing {env : ListEnv} {n : Bytes} {dout : Option Handle}
    (h : Listing before dout s) : (∀ t, listName env n dout s = (none, t) → Idle [] t) ∧
      ∀ conn t, listName env n dout s = (some conn, t) → Listing before (some conn) t := by
  unfold listName
  cases dout with
  | some conn =>
    refine ⟨fun t ht => ?_, fun conn' t ht => ?_⟩
    · cases ht
    · cases ht
      exact ⟨⟨h.1.connected, h.1.astray⟩, h.2⟩
  | none =>
    have hdialled := @dataconn_dialled _ _ env.conn (ascii "file list")
      none h.1
    dsimp only
    split
    · next u hu =>
      rw [hu] at hdialled
      refine ⟨fun t ht => ?_, fun conn t ht => ?_⟩
      · cases ht
        exact hdialled
      · cases ht
    · next conn u hu =>
      rw [hu] at hdialled
      refine ⟨fun t ht => ?_, fun conn' t ht => ?_⟩
      · cases ht
      · cases ht
        exact ⟨⟨hdialled.1.connected, hdialled.1.astray⟩, Nat.succ_ne_zero _⟩

/-- An urgent line, other than an `ABOR` while names are written, changes nothing. -/
theorem myoob_listing {u : Urgent} {dout : Option Handle} (h : Listing before dout s)
    (hquiet : u = .abor → dout = none) :
    (myoob u s).1 = false ∧ Listing before dout (myoob u s).2 := by
  unfold myoob
  split
  · exact ⟨rfl, h⟩
  · next htransflag =>
    have hkeeps : ∀ code text, Listing before dout (s.reply code text) := fun code text => by
      cases dout with
      | none => exact ⟨⟨h.1.ready, h.1.transflag, h.1.closed, h.1.astray⟩, h.2.1, h.2.2⟩
      | some conn => exact ⟨⟨h.1.connected, h.1.astray⟩, h.2⟩
    cases u with
    | abor =>
      rw [hquiet rfl] at h
      exact absurd h.1.transflag htransflag
    | stat => exact ⟨rfl, hkeeps _ _⟩
    | other => exact ⟨rfl, h⟩

theorem quiet_abor {u : Urgent} {dout : Option Handle} {rest : Bool}
    (hquiet : (u = .abor → (!dout.isSome && rest) = true) ∧ (u ≠ .abor → rest = true)) :
    (u = .abor → dout = none) ∧ rest = true := by
  by_cases habor : u = .abor
  · have hboth := hquiet.1 habor
    rw [Bool.and_eq_true, Bool.not_eq_true', Option.isSome_eq_false_iff,
      Option.isNone_iff_eq_none] at hboth
    exact ⟨fun _ => hboth.1, hboth.2⟩
  · exact ⟨fun h => absurd h habor, hquiet.2 habor⟩

theorem quietItems_urgent {u : Urgent} {items : List Item} {dout : Option Handle}
    (hquiet : quietItems (.urgent u :: items) dout.isSome = true) :
    (u = .abor → dout = none) ∧ quietItems items dout.isSome = true := by
  refine quiet_abor ⟨fun habor => ?_, fun habor => ?_⟩
  · rw [habor] at hquiet
    exact hquiet
  · cases u with
    | abor => exact absurd rfl habor
    | stat => exact hquiet
    | other => exact hquiet

theorem quietEntries_urgent {u : Urgent} {entries : List Entry} {dout : Option Handle}
    (hquiet : quietEntries (.urgent u :: entries) dout.isSome = true) :
    (u = .abor → dout = none) ∧ quietEntries entries dout.isSome = true := by
  refine quiet_abor ⟨fun habor => ?_, fun habor => ?_⟩
  · rw [habor] at hquiet
    exact hquiet
  · cases u with
    | abor => exact absurd rfl habor
    | stat => exact hquiet
    | other => exact hquiet

theorem listItems_listed {env : ListEnv} (items : List Item) {dout : Option Handle}
    (h : Listing before dout s) (hquiet : quietItems items dout.isSome = true) :
    Listed before (dout.isSome || items.any Item.listed) (listItems env items dout s) := by
  induction items generalizing dout s with
  | nil => exact ⟨h, (Bool.or_false _).symm⟩
  | cons item items ih =>
    cases item with
    | name n listed =>
      cases listed with
      | false =>
        rw [quietItems, Bool.or_false] at hquiet
        exact ih h hquiet
      | true =>
        have hname := @listName_listing _ _ env n _ h
        rw [quietItems, Bool.or_true] at hquiet
        rw [List.any_cons, Item.listed, Bool.true_or, Bool.or_true]
        unfold listItems
        split
        · next t ht => exact hname.1 t ht
        · next conn t ht => exact @ih _ (some conn) (hname.2 conn t ht) hquiet
    | urgent u =>
      obtain ⟨habor, hrest⟩ := quietItems_urgent hquiet
      obtain ⟨hjump, hlisting⟩ := myoob_listing h habor
      rw [List.any_cons, Item.listed, Bool.false_or]
      unfold listItems
      split
      · next t ht =>
        rw [ht] at hjump
        cases hjump
      · next t ht =>
        rw [ht] at hlisting
        exact ih hlisting hrest

theorem listMissing_idle {env : ListEnv} {which n : Bytes} {last : Bool} {dout : Option Handle}
    (h : Listing before dout s) (hearly : env.list.course.early = false) :
    Idle [] (listMissing env which n last dout s) := by
  unfold listMissing
  cases dout with
  | none =>
    split
    · exact retrieve_idle h.1 h.2.1 hearly
    · exact ⟨h.1.ready, h.1.transflag, h.1.closed, h.1.astray⟩
  | some conn =>
    rw [if_neg (fun hdash => h.2 hdash.2.2)]
    exact h.1.endTransfer (t := { s.perrorReply 550 which env.strerror with transflag := 0 })
      rfl rfl rfl

theorem listEntries_listed {env : ListEnv} {which : Bytes} (entries : List Entry)
    {dout : Option Handle} (h : Listing before dout s)
    (hquiet : quietEntries entries dout.isSome = true)
    (hearly : env.list.course.early = false) :
    Listed before (dout.isSome || entries.any Entry.finds) (listEntries env which entries dout s) := by
  induction entries generalizing dout s with
  | nil => exact ⟨h, (Bool.or_false _).symm⟩
  | cons entry entries ih =>
    cases entry with
    | missing n => exact listMissing_idle h hearly
    | regular n =>
      have hname := @listName_listing _ _ env n _ h
      rw [List.any_cons, Entry.finds, Bool.true_or, Bool.or_true]
      unfold listEntries
      split
      · next t ht => exact hname.1 t ht
      · next conn t ht => exact @ih _ (some conn) (hname.2 conn t ht) hquiet
    | directory items =>
      cases items with
      | none => exact ih h hquiet
      | some items =>
        rw [quietEntries, Bool.and_eq_true] at hquiet
        have hitems := @listItems_listed _ _ env items _ h hquiet.1
        rw [List.any_cons, Entry.finds, ← Bool.or_assoc]
        unfold listEntries
        split
        · next t ht =>
          rw [ht] at hitems
          exact hitems
        · next dout' t ht =>
          rw [ht] at hitems
          rw [← hitems.2]
          exact ih hitems.1 (by rw [hitems.2]; exact hquiet.2)
    | special => exact ih h hquiet
    | urgent u =>
      obtain ⟨habor, hrest⟩ := quietEntries_urgent hquiet
      obtain ⟨hjump, hlisting⟩ := myoob_listing h habor
      rw [List.any_cons, Entry.finds, Bool.false_or]
      unfold listEntries
      split
      · next t ht =>
        rw [ht] at hjump
        cases hjump
      · next t ht =>
        rw [ht] at hlisting
        exact ih hlisting hrest

theorem sendFileList_idle {env : ListEnv} {which : Bytes} (h : Idle [] s)
    (hobtained : s.conns.obtained = false) (hquiet : quietEntries env.entries false = true)
    (hearly : env.list.course.early = false)
    (hfinds : env.glob = .found → env.entries.any Entry.finds = false → s.conns.pdata = none) :
    Idle [] (sendFileList env which s) := by
  have hlisted := @listEntries_listed s.conns _ env which
    env.entries none ⟨h, hobtained, rfl⟩ hquiet hearly
  unfold sendFileList
  split
  · exact ⟨h.ready, h.transflag, h.closed, h.astray⟩
  · exact ⟨h.ready, h.transflag, h.closed, h.astray⟩
  · next hglob =>
    split
    · next t ht =>
      rw [ht] at hlisted
      exact hlisted
    · next dout t ht =>
      rw [ht] at hlisted
      obtain ⟨hlisting, hfound⟩ := hlisted
      unfold listEnd
      cases dout with
      | none =>
        have hpdata : t.conns.pdata = none := by
          rw [hlisting.2.2]
          exact hfinds hglob hfound.symm
        have hforget : t.conns.forget = t.conns := calc
          t.conns.forget = { t.conns with data := t.conns.data, pdata := t.conns.pdata } := by
            rw [hlisting.1.ready.data, hpdata]
            rfl
          _ = t.conns := rfl
        refine ⟨?_, rfl, fun _ => rfl, hlisting.1.astray⟩
        dsimp only
        rw [hforget]
        exact hlisting.1.ready
      | some conn =>
        dsimp only
        split
        · exact hlisting.1.endTransfer (t := { t.perrorReply 550 (ascii "Data connection")
            env.strerror with transflag := 0 }) rfl rfl rfl
        · exact hlisting.1.endTransfer (t := { t.reply 226 (ascii "Transfer complete.") with
            transflag := 0 }) rfl rfl rfl

/-! ## Runs -/

/-- The steps that keep track. The others are: a `PORT` or a `PASV` that comes while a `PORT`
waits, unless it replaces it; a list without names while a `PASV` waits; an `ABOR` that comes
while a list is written, or between `transflag++` and `setjmp`. -/
def Regular (s : Session) : DataCommand → Prop
  | .port loggedIn n => loggedIn = false → n.inRange = true → s.conns.usedefault = true
  | .pasv loggedIn _ => loggedIn = true → s.conns.usedefault = true
  | .retr _ env | .list _ env | .stor _ env | .appe _ env | .stou _ _ env =>
    env.course.early = false
  | .nlst _ env => env.list.course.early = false ∧ quietEntries env.entries false = true ∧
      (env.glob = .found → env.entries.any Entry.finds = false → s.conns.pdata = none)
  | .set _ _ => True

theorem idle_start (hisAddr : Address) (portcheck : Bool) :
    Idle [] (Session.start hisAddr portcheck) where
  ready := ⟨rfl, rfl, List.nodup_nil, fun _ hh => absurd hh List.not_mem_nil, rfl,
    fun hne => absurd rfl hne, fun _ hu => absurd hu List.not_mem_nil⟩
  transflag := rfl
  closed := fun h => absurd h Bool.false_ne_true
  astray := rfl

theorem portCommand_idle {loggedIn : Bool} {n : HostPort} (h : Idle [] s)
    (hobtained : s.conns.obtained = false)
    (hregular : loggedIn = false → n.inRange = true → s.conns.usedefault = true) :
    Idle [] (portCommand loggedIn n s) := by
  have hclosed : ∀ d : Conns, d.obtained = s.conns.obtained → d.obtained = true →
      d.pdata = none := fun d hd h' =>
    absurd (hobtained.symm.trans (hd.symm.trans h')) Bool.false_ne_true
  obtain ⟨a, ha⟩ := hostPort_eq n s.conns
  have hhost : (s.conns.hostPort n).obtained = s.conns.obtained := by rw [ha]
  have hreject : ∀ why,
      Idle [] (({ s with conns := s.conns.hostPort n } : Session).rejectPort why) :=
    fun why => ⟨h.ready.rejectPort, h.transflag, hclosed _ hhost, h.astray⟩
  unfold portCommand
  split
  · next hlogged =>
    exact ⟨h.ready.hostPort (hregular (by simpa using hlogged)), h.transflag, hclosed _ hhost,
      h.astray⟩
  · unfold portAction
    split
    · exact hreject _
    · split
      · exact hreject _
      · split
        · exact hreject _
        · exact ⟨h.ready.acceptPort, h.transflag, fun _ => rfl, h.astray⟩

theorem pasvCommand_idle {loggedIn : Bool} {env : PassiveEnv} (h : Idle [] s)
    (hobtained : s.conns.obtained = false)
    (hregular : loggedIn = true → s.conns.usedefault = true) :
    Idle [] (pasvCommand loggedIn env s) := by
  unfold pasvCommand
  split
  · exact ⟨h.ready, h.transflag, h.closed, h.astray⟩
  · next hlogged =>
    have hdefault : s.conns.usedefault = true := hregular (by simpa using hlogged)
    have hfail : Idle [] (s.passiveError env.strerror) :=
      ⟨h.ready.failPassive hdefault, h.transflag, fun _ => rfl, h.astray⟩
    unfold passive
    split
    · exact hfail
    · split
      · exact hfail
      · refine ⟨h.ready.listenPassive hdefault, h.transflag, fun h' => ?_, h.astray⟩
        have hsame : s.conns.listenPassive.obtained = s.conns.obtained := by
          unfold Conns.listenPassive
          rw [closePassive_opened h.ready]
          rfl
        exact absurd (hobtained.symm.trans (hsame.symm.trans h')) Bool.false_ne_true

theorem dataStep_idle {command : DataCommand} (h : Idle [] s) (hregular : Regular s command)
    (hstep : dataStep s command = some t) : Idle [] t := by
  have hs : Idle [] { s with replies := [], conns := { s.conns with obtained := false } } :=
    ⟨⟨h.ready.data, h.ready.opened, h.ready.nodup, h.ready.fresh, h.ready.due, h.ready.waits,
      h.ready.uses⟩, h.transflag, fun h' => absurd h' Bool.false_ne_true, h.astray⟩
  unfold dataStep at hstep
  rw [if_neg (by rw [h.astray]; exact Bool.false_ne_true)] at hstep
  obtain rfl := Option.some.inj hstep
  cases command with
  | port loggedIn n => exact portCommand_idle hs rfl hregular
  | pasv loggedIn env => exact pasvCommand_idle hs rfl hregular
  | retr name env => exact retrieve_idle hs rfl hregular
  | list name env => exact retrieve_idle hs rfl hregular
  | nlst which env => exact sendFileList_idle hs rfl hregular.2.1 hregular.1 hregular.2.2
  | stor name env => exact store_idle hs rfl hregular
  | appe name env => exact store_idle hs rfl hregular
  | stou name unique env => exact store_idle hs rfl hregular
  | set type restartPoint => exact ⟨hs.ready, hs.transflag, hs.closed, hs.astray⟩

/-- In a run that keeps track, every transfer goes where it is due, and leaves nothing open. -/
theorem settled_of_regular (hisAddr : Address) (portcheck : Bool) (es : List DataCommand)
    (hes : Steps Regular dataStep (Session.start hisAddr portcheck) es) {t : Session}
    (ht : Reached dataStep (Session.start hisAddr portcheck) es t) : Settled t :=
  (steps_reached (fun _ _ _ h hok hstep => dataStep_idle h hok hstep)
    (idle_start hisAddr portcheck) hes ht).settled

/-! ## A passive transfer, and a rejected PORT -/

def client : Address := ⟨167772161, 50000⟩

def connectWell : ConnectEnv := ⟨some ⟨167772161, 50001⟩, true, true, [], []⟩

def sendWell : FileEnv :=
  ⟨true, false, true, true, 5, [], connectWell, ⟨false, [.bytes 2, .urgent .stat, .bytes 3],
    .complete, 0, []⟩⟩

def passiveWell : PassiveEnv := ⟨true, true, true, true, ascii "10,0,0,2,156,64", []⟩

theorem settled_passive : Settled ((run dataStep (Session.start client true)
    [.pasv true passiveWell, .retr (ascii "motd") sendWell]).getD (Session.start client true)) :=
  settled_of_regular client true [.pasv true passiveWell, .retr (ascii "motd") sendWell]
    ⟨fun _ => rfl, fun _ _ => ⟨rfl, fun _ _ => trivial⟩⟩
    ⟨_, List.prefix_refl _, by decide +kernel⟩

/-- A `PORT` that is rejected takes the address of the one before it back: the transfer goes to
the default address. -/
theorem uses_rejected : ∃ t, run dataStep (Session.start client true)
    [.port true ⟨10, 0, 0, 1, 200, 0⟩, .port true ⟨10, 0, 0, 1, 200, 256⟩,
      .retr (ascii "motd") sendWell] = some t ∧
    ∃ u ∈ t.conns.uses, u.source = .default ∧ u.latest = .port ⟨167772161, 51200⟩ := by
  refine ⟨(run dataStep (Session.start client true)
    [.port true ⟨10, 0, 0, 1, 200, 0⟩, .port true ⟨10, 0, 0, 1, 200, 256⟩,
      .retr (ascii "motd") sendWell]).getD (Session.start client true), by decide +kernel,
    ⟨.default, .port ⟨167772161, 51200⟩, .default⟩, by decide +kernel, rfl, rfl⟩

end Netkit.Ftpd.Data

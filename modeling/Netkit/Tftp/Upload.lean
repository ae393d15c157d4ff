import Netkit.Foundations.Runs
import Netkit.Tftp.Transfer

/-!
# An upload

The client's `sendfile` and the server's `recvfile`, with the same network between them as in a
download. `sendfile` goes on while `size` is 512, and in the first trip `size` is the size of
the request, less four. A request is hardly ever that long, so the client leaves its loop when
the request has been acknowledged and sends no data.

* `upload_delivered`: it is delivered exactly if the request has 516 bytes or the file is empty.
-/

namespace Netkit.Tftp

open Netkit.Foundations

/-- What is given: the request, the client's file, how long the client waits, and what the
buffers held before. -/
structure UploadSetting where
  request : Request
  content : List UInt8
  timing : Timing
  clientSubs : Buffers
  serverSubs : Buffers

/-- The client, the server with `f_convert` of its format, and all that was ever sent. -/
structure Upload where
  client : Sendfile
  server : Option (Bool × Recvfile)
  datas : List Stamped
  acks : List Stamped

/-- A datagram that was sent is delivered, an alarm goes off, or `recv` fails at the server.
`ok` says whether what is then sent can be sent. -/
inductive UploadEvent
  | toServer (i : ℕ) (ok : Bool)
  | toClient (i : ℕ) (ok : Bool)
  | clientAlarm (ok : Bool)
  | serverAlarm (ok : Bool)
  | serverError

/-- The request reaches the server: `main` and `tftp`, which opens the file with `O_TRUNC`. -/
def UploadSetting.serve (d : UploadSetting) (x : Datagram) (ok : Bool) :
    Option ((Bool × Recvfile) × List Stamped) :=
  match x with
  | .request opcode stuff =>
    if opcode = WRQ then
      (tftp stuff).map (fun (_, convert) =>
        let server := Tftpd.recvfile d.serverSubs convert ok
        ((convert, server.1), server.2))
    else none
  | .packet _ => none

namespace Upload

/-- The client is at work and does `f`. -/
def withClient (s : Upload) (f : Sendfile → Sendfile × List Stamped) : Upload :=
  if s.client.ctl = .loop then
    let (client, sent) := f s.client
    { s with client, datas := s.datas ++ sent }
  else s

/-- The server does `f` in its loop and `g` in its last wait. -/
def withServer (s : Upload) (f : Bool → Recvfile → Recvfile × List Stamped)
    (g : Recvfile → Recvfile × List Stamped) : Upload :=
  match s.server with
  | some (convert, server) =>
    if server.ctl = .loop then
      let (server', sent) := f convert server
      { s with server := some (convert, server'), acks := s.acks ++ sent }
    else if server.ctl = .closing then
      let (server', sent) := g server
      { s with server := some (convert, server'), acks := s.acks ++ sent }
    else s
  | none => s

/-- `justquit`, or `recv` has failed. -/
def quit (server : Recvfile) : Recvfile × List Stamped := ({ server with ctl := .left }, [])

def apply (d : UploadSetting) (s : Upload) : UploadEvent → Upload
  | .toServer i ok =>
    match s.datas[i]? with
    | some x =>
      match s.server with
      | some _ => s.withServer (fun convert server =>
          server.receive convert (Tftpd.ends convert) x.2 ok) Tftpd.closing
      | none =>
        match d.serve x.2 ok with
        | some (server, sent) => { s with server := some server, acks := s.acks ++ sent }
        | none => s
    | none => s
  | .toClient i ok =>
    match s.acks[i]? with
    | some a => s.withClient (fun client => client.receive d.request.mode.convert a.2 ok)
    | none => s
  | .clientAlarm ok => s.withClient (fun client =>
      client.timer d.timing d.request.mode.convert ok)
  | .serverAlarm ok => s.withServer (fun convert server =>
      server.timer Tftpd.timing convert (Tftpd.ends convert) ok) quit
  | .serverError => s.withServer (fun convert server => (Tftpd.ends convert).abort server) quit

end Upload

def UploadSetting.upload (d : UploadSetting) (ok : Bool) : Upload :=
  let (client, sent) := Client.sendfile d.clientSubs d.request d.content ok
  { client, server := none, datas := sent, acks := [] }

def uploadStep (d : UploadSetting) (s : Upload) (e : UploadEvent) : Option Upload :=
  some (s.apply d e)

def Upload.OnTime (s : Upload) : UploadEvent → Prop
  | .toServer i _ => ∀ x server, s.datas[i]? = some x → s.server = some server →
      x.2.received.opcode = DATA → InTime 65536 x.1 (server.2.accepted.length + 1)
  | .toClient i _ => ∀ a, s.acks[i]? = some a → a.2.received.opcode = ACK →
      InTime 65536 a.1 s.client.number
  | _ => True

def Upload.Finished (server : Recvfile) : Prop :=
  server.ctl = .left ∨ server.ctl = .aborted ∨ server.ctl = .timedOut

/-- In every run, if the client has left its loop normally, the server has written the client's
file by the time it finishes. -/
def Delivered (d : UploadSetting) : Prop :=
  ∀ (ok : Bool) (es : List UploadEvent), Steps Upload.OnTime (uploadStep d) (d.upload ok) es →
    ∀ u, Reached (uploadStep d) (d.upload ok) es u → u.client.ctl = .left →
      ∀ convert server, u.server = some (convert, server) → Upload.Finished server →
        server.file.bytes = d.content

/-! ## The invariant -/

def UploadSetting.src (d : UploadSetting) : List UInt8 :=
  encoded d.request.mode.convert d.content

/-- The invariant. Until a server has started, the request is all that is under way. -/
structure Upload.Good (d : UploadSetting) (s : Upload) : Prop where
  client : SendOk d.request.mode.convert d.src (some (makerequest d.request)) s.client
  idle : s.server = none → s.client.number = 0 ∧ s.client.ctl ≠ .left ∧ s.acks = [] ∧
    ∀ x ∈ s.datas, x = (0, .request WRQ (makerequest d.request))
  linked : ∀ convert server, s.server = some (convert, server) →
    convert = d.request.mode.convert ∧
      Linked convert d.src (some (makerequest d.request)) none s.client.number server s.datas
        s.acks

variable {d : UploadSetting} {s : Upload}

theorem upload_good (d : UploadSetting) (ok : Bool) : (d.upload ok).Good d := by
  obtain ⟨hstep, hnumber, hctl⟩ :=
    Client.sendfile_sending d.clientSubs d.request d.content ok
  refine ⟨hstep.ok, fun _ => ⟨hnumber, hctl, rfl, fun x hx => ?_⟩, fun _ _ h => nomatch h⟩
  have hx' := hstep.sent x hx
  rw [hnumber] at hx'
  exact hx'

theorem Upload.Good.withClient (h : s.Good d) {f : Sendfile → Sendfile × List Stamped}
    (hidle : s.server = none → s.client.ctl = .loop →
      SendStep d.request.mode.convert d.src (some (makerequest d.request)) (f s.client) ∧
        (f s.client).1.number = s.client.number ∧ (f s.client).1.ctl ≠ .left)
    (hlinked : ∀ server, s.client.ctl = .loop →
      Linked d.request.mode.convert d.src (some (makerequest d.request)) none s.client.number
        server s.datas s.acks →
      SendOk d.request.mode.convert d.src (some (makerequest d.request)) (f s.client).1 ∧
        Linked d.request.mode.convert d.src (some (makerequest d.request)) none
          (f s.client).1.number server (s.datas ++ (f s.client).2) s.acks) :
    (s.withClient f).Good d := by
  unfold Upload.withClient
  split
  · rename_i hloop
    cases hserver : s.server with
    | none =>
      obtain ⟨hstep, hnumber, hctl⟩ := hidle hserver hloop
      obtain ⟨hzero, -, hacks, hdatas⟩ := h.idle hserver
      refine ⟨hstep.ok, fun _ => ⟨hnumber.trans hzero, hctl, hacks, fun x hx => ?_⟩,
        fun _ _ heq => (nomatch heq)⟩
      rcases List.mem_append.mp hx with hx | hx
      · exact hdatas x hx
      · have hx' := hstep.sent x hx
        rw [hnumber, hzero] at hx'
        exact hx'
    | some server =>
      obtain ⟨convert, server⟩ := server
      obtain ⟨rfl, hl⟩ := h.linked convert server hserver
      obtain ⟨hsend, hl'⟩ := hlinked server hloop hl
      refine ⟨hsend, fun heq => (nomatch heq), fun convert' server' heq => ?_⟩
      obtain ⟨rfl, rfl⟩ := Prod.mk.inj (Option.some.inj heq)
      exact ⟨rfl, hl'⟩
  · exact h

theorem Upload.Good.withServer (h : s.Good d) {f : Bool → Recvfile → Recvfile × List Stamped}
    {g : Recvfile → Recvfile × List Stamped}
    (hf : ∀ server, s.server = some (d.request.mode.convert, server) → server.ctl = .loop →
      Linked d.request.mode.convert d.src (some (makerequest d.request)) none s.client.number
        server s.datas s.acks →
      Linked d.request.mode.convert d.src (some (makerequest d.request)) none s.client.number
        (f d.request.mode.convert server).1 s.datas
        (s.acks ++ (f d.request.mode.convert server).2))
    (hg : ∀ server, server.ctl = .closing →
      ∃ sent, g server = ({ server with ctl := .left }, sent) ∧ ∀ a ∈ sent, a = server.ackbuf) :
    (s.withServer f g).Good d := by
  unfold Upload.withServer
  split
  · rename_i convert server hserver
    obtain ⟨rfl, hl⟩ := h.linked convert server hserver
    split
    · rename_i hloop
      refine ⟨h.client, fun hnone => (nomatch hnone), fun convert' server' heq => ?_⟩
      obtain ⟨rfl, rfl⟩ := Prod.mk.inj (Option.some.inj heq)
      exact ⟨rfl, hf server hserver hloop hl⟩
    · split
      · rename_i hclosing
        obtain ⟨sent, hsent, hack⟩ := hg server hclosing
        have hstep := closing_receiving hl.recv hclosing hack
        refine ⟨h.client, fun hnone => (nomatch hnone), fun convert' server' heq => ?_⟩
        obtain ⟨rfl, rfl⟩ := Prod.mk.inj (Option.some.inj heq)
        rw [hsent]
        exact ⟨rfl, linked_closing hl hclosing hstep rfl⟩
      · exact h
  · exact h

theorem serve_good (h : s.Good d) (hnone : s.server = none) {x : Stamped} (hx : x ∈ s.datas)
    {ok : Bool} {server : Bool × Recvfile} {sent : List Stamped}
    (hserve : d.serve x.2 ok = some (server, sent)) :
    ({ s with server := some server, acks := s.acks ++ sent } : Upload).Good d := by
  obtain ⟨hzero, -, hacks, hdatas⟩ := h.idle hnone
  rw [hdatas x hx] at hserve
  simp only [UploadSetting.serve, if_true, tftp_makerequest, Option.map_some, Option.some.injEq,
    Prod.mk.injEq] at hserve
  obtain ⟨rfl, rfl⟩ := hserve
  obtain ⟨hstep, haccepted⟩ := Tftpd.recvfile_receiving d.serverSubs d.request.mode.convert
    d.src ok
  refine ⟨h.client, fun hnone => (nomatch hnone), fun convert server heq => ?_⟩
  obtain ⟨rfl, rfl⟩ := Prod.mk.inj (Option.some.inj heq)
  refine ⟨rfl, hstep.ok, fun x hx => ?_, ?_, fun hhonest => ?_⟩
  · rw [hdatas x hx]
    rfl
  · rw [hacks]
    exact hstep.numbered
  · simp only [hacks, List.nil_append, haccepted, hzero]
    refine ⟨by simp, by simp, fun x hx => ?_, fun a ha => ?_⟩
    · rw [hdatas x hx]
    · have := hstep.sent hhonest a ha
      rw [haccepted] at this
      simpa using Nat.lt_succ_of_le this

theorem apply_upload_good (h : s.Good d) {e : UploadEvent} (hlate : s.OnTime e) :
    (s.apply d e).Good d := by
  have hends := Tftpd.ends_ok d.request.mode.convert d.src
  have hquit : ∀ server : Recvfile, server.ctl = .closing →
      ∃ sent, Upload.quit server = ({ server with ctl := .left }, sent) ∧
        ∀ a ∈ sent, a = server.ackbuf :=
    fun server _ => ⟨[], rfl, fun a ha => absurd ha List.not_mem_nil⟩
  have hclosing : ∀ server : Recvfile, server.ctl = .closing →
      ∃ sent, Tftpd.closing server = ({ server with ctl := .left }, sent) ∧
        ∀ a ∈ sent, a = server.ackbuf := by
    intro server _
    refine ⟨_, rfl, fun a ha => ?_⟩
    split at ha
    · exact List.mem_singleton.mp ha
    · exact absurd ha List.not_mem_nil
  cases e with
  | toServer i ok =>
    simp only [Upload.apply]
    split
    · rename_i x hx
      have hmem := List.mem_of_getElem? hx
      split
      · exact h.withServer (fun server hserver hloop hl =>
          linked_data hends hl hloop hmem (hlate x _ hx hserver) ok) hclosing
      · rename_i hnone
        split
        · rename_i server sent hserve
          exact serve_good h hnone hmem hserve
        · exact h
    · exact h
  | toClient i ok =>
    simp only [Upload.apply]
    split
    · rename_i a ha
      refine h.withClient (fun hnone _ => ?_) (fun server hloop hl =>
        linked_ack hl h.client hloop (List.mem_of_getElem? ha) (hlate a ha) ok)
      rw [(h.idle hnone).2.2.1] at ha
      simp at ha
    · exact h
  | clientAlarm ok =>
    simp only [Upload.apply]
    exact h.withClient
      (fun _ hloop => timer_sending (h.client.loop hloop) hloop d.timing ok)
      (fun server hloop hl => linked_resend hl h.client hloop d.timing ok)
  | serverAlarm ok =>
    simp only [Upload.apply]
    exact h.withServer (fun server _ hloop hl =>
      linked_alarm hends hl hloop Tftpd.timing ok) hquit
  | serverError =>
    simp only [Upload.apply]
    refine h.withServer (fun server _ hloop hl => ?_) hquit
    have hack := hl.recv.ackbuf (Or.inl rfl)
    obtain ⟨hstep, hsame⟩ := hends.abort server (hl.recv.loop hloop) hack
    exact hl.replies hstep (fun _ => by
      rw [hsame]
      exact hl.lockstep (Or.inl rfl))

theorem reached_good {ok : Bool} {es : List UploadEvent}
    (hlate : Steps Upload.OnTime (uploadStep d) (d.upload ok) es) {u : Upload}
    (hu : Reached (uploadStep d) (d.upload ok) es u) : u.Good d := by
  refine steps_reached (fun s e t hs hok hstep => ?_) (upload_good d ok) hlate hu
  cases hstep
  exact apply_upload_good hs hok

/-! ## When it is delivered -/

theorem delivered_of (h : d.content = [] ∨ d.request.length = PKTSIZE) : Delivered d := by
  intro ok es hlate u hu hleft convert server hserver _
  have hgood := reached_good hlate hu
  obtain ⟨rfl, hl⟩ := hgood.linked convert server hserver
  obtain ⟨m, hm, hsize⟩ := hgood.client.left hleft
  by_cases hnumber : 2 ≤ u.client.number
  · rw [linked_over hl hgood.client hleft hnumber (Or.inl rfl)]
    exact decoded_encoded _ _
  · -- The loop has ended with the request, so the file is empty.
    obtain rfl : m = 0 := by omega
    have hempty : d.content = [] := by
      refine h.resolve_right (fun hlength => hsize ?_)
      unfold Request.length PKTSIZE at hlength
      simp only [sizeAt]
      omega
    obtain ⟨j, -, -, hfile⟩ := hl.recv.written
    have hsrc : d.src = [] := by
      unfold UploadSetting.src
      rw [hempty]
      cases d.request.mode.convert <;> rfl
    have hnone : (blocks SEGSIZE d.src j).flatten = [] := by
      rw [blocks_flatten, hsrc, List.take_nil]
    rw [hfile, hnone, ← hsrc]
    exact decoded_encoded _ _

theorem timer_waits (server : Recvfile) (convert : Bool) (ends : Ends) :
    (server.timer Tftpd.timing convert ends true).1.accepted = server.accepted ∧
      (server.timeout + 5 < 25 →
        (server.timer Tftpd.timing convert ends true).1.ctl = server.ctl ∧
        (server.timer Tftpd.timing convert ends true).1.timeout = server.timeout + 5) ∧
      (server.timeout + 5 = 25 →
        (server.timer Tftpd.timing convert ends true).1.ctl = .timedOut) := by
  unfold Recvfile.timer Tftpd.timing
  simp only
  split
  · exact ⟨rfl, fun _ => by omega, fun _ => rfl⟩
  · exact ⟨rfl, fun _ => ⟨rfl, rfl⟩, fun _ => by omega⟩

theorem serverAlarm_apply {convert : Bool} {server : Recvfile}
    (hserver : s.server = some (convert, server)) (hloop : server.ctl = .loop) :
    (s.apply d (.serverAlarm true)).server =
        some (convert, (server.timer Tftpd.timing convert (Tftpd.ends convert) true).1) ∧
      (s.apply d (.serverAlarm true)).client = s.client := by
  simp [Upload.apply, Upload.withServer, hserver, hloop]

theorem alarms_timedOut (n : ℕ) {convert : Bool} {server : Recvfile}
    (hserver : s.server = some (convert, server)) (hloop : server.ctl = .loop)
    (hn : server.timeout + 5 * (n + 1) = 25) :
    ∃ u server', run (uploadStep d) s (List.replicate (n + 1) (.serverAlarm true)) = some u ∧
      u.client = s.client ∧ u.server = some (convert, server') ∧ server'.ctl = .timedOut ∧
      server'.accepted = server.accepted := by
  induction n generalizing s server with
  | zero =>
    obtain ⟨haccepted, -, hgives⟩ := timer_waits server convert (Tftpd.ends convert)
    obtain ⟨hserver', hclient⟩ := @serverAlarm_apply d s convert server hserver hloop
    exact ⟨_, _, rfl, hclient, hserver', hgives (by omega), haccepted⟩
  | succ n ih =>
    obtain ⟨haccepted, hwaits, -⟩ := timer_waits server convert (Tftpd.ends convert)
    obtain ⟨hserver', hclient⟩ := @serverAlarm_apply d s convert server hserver hloop
    obtain ⟨hctl, htimeout⟩ := hwaits (by omega)
    obtain ⟨u, server'', hrun, hclient', hu, htimed, hsame⟩ :=
      ih hserver' (hctl.trans hloop) (by rw [htimeout]; omega)
    exact ⟨u, server'', run_cons_eq_some.mpr ⟨_, rfl, hrun⟩, hclient'.trans hclient, hu, htimed,
      hsame.trans haccepted⟩

theorem alarms_onTime (n : ℕ) (s : Upload) :
    Steps Upload.OnTime (uploadStep d) s (List.replicate n (.serverAlarm true)) := by
  induction n generalizing s with
  | zero => exact trivial
  | succ n ih => exact ⟨trivial, fun t _ => ih t⟩

theorem withServer_client (f : Bool → Recvfile → Recvfile × List Stamped)
    (g : Recvfile → Recvfile × List Stamped) : (s.withServer f g).client = s.client := by
  unfold Upload.withServer
  split
  · split
    · rfl
    · split <;> rfl
  · rfl

theorem toServer_client (i : ℕ) (ok : Bool) :
    (s.apply d (.toServer i ok)).client = s.client := by
  simp only [Upload.apply]
  split
  · split
    · exact withServer_client _ _
    · split <;> rfl
  · rfl

theorem upload_stops (hlength : d.request.length ≠ PKTSIZE) :
    ∃ u server, run (uploadStep d) (d.upload true) [.toServer 0 true, .toClient 0 true] = some u ∧
      u.client.ctl = .left ∧ u.server = some (d.request.mode.convert, server) ∧
      server.ctl = .loop ∧ server.timeout = 0 ∧ server.accepted = [] := by
  have hdatas : (d.upload true).datas = [(0, .request WRQ (makerequest d.request))] := rfl
  have hserve : d.serve (.request WRQ (makerequest d.request)) true =
      some ((d.request.mode.convert,
        (Tftpd.recvfile d.serverSubs d.request.mode.convert true).1), [ackOf 0 0]) := by
    simp only [UploadSetting.serve, if_true, tftp_makerequest]
    rfl
  have hstart : (d.upload true).apply d (.toServer 0 true) =
      { d.upload true with
        server := some (d.request.mode.convert,
          (Tftpd.recvfile d.serverSubs d.request.mode.convert true).1)
        acks := [ackOf 0 0] } := by
    simp only [Upload.apply, hdatas, List.getElem?_cons_zero]
    rw [hserve]
    rfl
  have hsize : ¬ (d.upload true).client.size = (SEGSIZE : Int) := by
    intro h
    apply hlength
    have hsize : (d.upload true).client.size = (d.request.length : Int) - 4 := rfl
    unfold PKTSIZE
    omega
  have hleft : ((d.upload true).client.receive d.request.mode.convert (ackOf 0 0).2 true).1.ctl =
      .left := by
    have hacked : (d.upload true).client.receive d.request.mode.convert (ackOf 0 0).2 true =
        (d.upload true).client.acked d.request.mode.convert true := rfl
    rw [hacked]
    unfold Sendfile.acked
    simp only [if_neg hsize]
  have hrun : run (uploadStep d) (d.upload true) [.toServer 0 true, .toClient 0 true] =
      some (((d.upload true).apply d (.toServer 0 true)).apply d (.toClient 0 true)) := rfl
  have hnext : ((d.upload true).apply d (.toServer 0 true)).apply d (.toClient 0 true) =
      { client := ((d.upload true).client.receive d.request.mode.convert (ackOf 0 0).2 true).1
        server := some (d.request.mode.convert,
          (Tftpd.recvfile d.serverSubs d.request.mode.convert true).1)
        datas := (d.upload true).datas ++
          ((d.upload true).client.receive d.request.mode.convert (ackOf 0 0).2 true).2
        acks := [ackOf 0 0] } := by
    rw [hstart]
    rfl
  rw [hnext] at hrun
  exact ⟨_, _, hrun, hleft, rfl, rfl, rfl, rfl⟩

theorem steps_append_alarms {es : List UploadEvent} {t u : Upload} {n : ℕ}
    (hes : Steps Upload.OnTime (uploadStep d) t es) (hrun : run (uploadStep d) t es = some u) :
    Steps Upload.OnTime (uploadStep d) t (es ++ List.replicate n (.serverAlarm true)) := by
  induction es generalizing t with
  | nil => exact alarms_onTime n t
  | cons e es ih =>
    obtain ⟨v, hv, hrun⟩ := run_cons_eq_some.mp hrun
    refine ⟨hes.1, fun w hw => ?_⟩
    obtain rfl := Option.some.inj (hv.symm.trans hw)
    exact ih (hes.2 v hv) hrun

theorem stops_onTime (d : UploadSetting) :
    Steps Upload.OnTime (uploadStep d) (d.upload true) [.toServer 0 true, .toClient 0 true] := by
  refine ⟨fun x server _ heq => (nomatch heq), fun t ht => ⟨fun a _ _ => ?_, fun _ _ => trivial⟩⟩
  obtain rfl := Option.some.inj ht
  rw [toServer_client]
  exact Nat.lt_of_lt_of_le (by decide : 0 < 65536) (Nat.le_add_left _ _)

/-- An upload is delivered exactly if the request fills a packet or the file is empty. -/
theorem upload_delivered (d : UploadSetting) :
    Delivered d ↔ d.content = [] ∨ d.request.length = PKTSIZE := by
  refine ⟨fun h => ?_, delivered_of⟩
  by_contra hnot
  obtain ⟨hcontent, hlength⟩ := not_or.mp hnot
  obtain ⟨t, server, hrun, hleft, hserver, hloop, htimeout, haccepted⟩ := upload_stops hlength
  obtain ⟨u, server', hrun', hclient, hserver', htimed, hsame⟩ :=
    @alarms_timedOut d t 4 _ server hserver hloop (by omega)
  have hall := steps_append_alarms (n := 5) (stops_onTime d) hrun
  have hreached : Reached (uploadStep d) (d.upload true) ([.toServer 0 true, .toClient 0 true] ++
      List.replicate 5 (.serverAlarm true)) u :=
    ⟨_, List.prefix_rfl, run_append_eq_some.mpr ⟨t, hrun, hrun'⟩⟩
  have hfile := h true _ hall u hreached (hclient ▸ hleft) _ server' hserver'
    (Or.inr (Or.inr htimed))
  -- The server has accepted nothing.
  obtain ⟨-, hl⟩ := (reached_good hall hreached).linked _ server' hserver'
  obtain ⟨j, hj, -, hwritten⟩ := hl.recv.written
  rw [hsame, haccepted, List.length_nil, Nat.le_zero] at hj
  rw [hwritten, hj] at hfile
  apply hcontent
  rw [← hfile]
  cases d.request.mode.convert <;> rfl

/-- A file of seven bytes under the name `x`, and buffers as they are at first. -/
def sevenBytesUp : UploadSetting where
  request := requestX
  content := [1, 2, 3, 4, 5, 6, 7]
  timing := ⟨5, 25⟩
  clientSubs := ⟨fun _ => ⟨0, ⟨0, 0, []⟩⟩, false, false, false, none⟩
  serverSubs := ⟨fun _ => ⟨0, ⟨0, 0, []⟩⟩, false, false, false, none⟩

/-- Nothing is lost or late, the client leaves its loop normally, and the server's file is
empty. -/
theorem upload_lost : ¬ Delivered sevenBytesUp := by
  intro h
  have hrun : ∀ (s : Upload) es,
      run (uploadStep sevenBytesUp) s es = some (es.foldl (Upload.apply sevenBytesUp) s) := by
    intro s es
    induction es generalizing s with
    | nil => rfl
    | cons e es ih => exact ih (s.apply sevenBytesUp e)
  have hlost := h true _ (steps_append_alarms (n := 5) (stops_onTime _) (hrun _ _)) _
    ⟨_, List.prefix_rfl, hrun _ _⟩ (by decide +kernel)
  have hserver : (List.foldl (Upload.apply sevenBytesUp) (sevenBytesUp.upload true)
      ([.toServer 0 true, .toClient 0 true] ++ List.replicate 5 (.serverAlarm true))).server.map
        (fun x => (x.2.ctl, x.2.file.bytes)) = some (.timedOut, []) := by
    decide +kernel
  obtain ⟨⟨convert, server⟩, heq, hfacts⟩ := Option.map_eq_some_iff.mp hserver
  obtain ⟨htimed, hempty⟩ := Prod.mk.inj hfacts
  have hbytes := hlost convert server heq (Or.inr (Or.inr htimed))
  rw [hempty] at hbytes
  cases hbytes

end Netkit.Tftp

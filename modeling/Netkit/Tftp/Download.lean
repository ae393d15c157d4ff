import Netkit.Foundations.Runs
import Netkit.Tftp.Transfer

/-!
# A download

The client's `recvfile` and the server's `sendfile`, with a network between them that loses,
repeats, delays and reorders datagrams. The server starts with the first request that reaches
it. What comes to its port later goes to other processes.

* `download_safe`: the client has written a part of the file from its beginning, block after
  block, and all of it when it leaves its loop normally.
-/

namespace Netkit.Tftp

open Netkit.Foundations

/-- What is given: the request, the files that the server may read, how long the client waits,
and what the buffers held before. -/
structure Setting where
  request : Request
  files : List UInt8 → List UInt8
  timing : Timing
  clientSubs : Buffers
  serverSubs : Buffers

/-- The client, the server with `f_convert` of its format, and all that was ever sent. -/
structure Download where
  client : Recvfile
  server : Option (Bool × Sendfile)
  datas : List Stamped
  acks : List Stamped

/-- A datagram that was sent is delivered, an alarm goes off, or `recv` fails at the server.
`ok` says whether what is then sent can be sent. -/
inductive DownloadEvent
  | toClient (i : ℕ) (ok : Bool)
  | toServer (i : ℕ) (ok : Bool)
  | clientAlarm (ok : Bool)
  | serverAlarm (ok : Bool)
  | serverError

/-- The request reaches the server: `main` and `tftp`. -/
def Setting.serve (d : Setting) (a : Datagram) (ok : Bool) :
    Option ((Bool × Sendfile) × List Stamped) :=
  match a with
  | .request opcode stuff =>
    if opcode = RRQ then
      (tftp stuff).map (fun (filename, convert) =>
        let server := Tftpd.sendfile d.serverSubs convert (d.files filename) ok
        ((convert, server.1), server.2))
    else none
  | .packet _ => none

namespace Download

/-- The client is at work and does `f`. -/
def withClient (s : Download) (f : Recvfile → Recvfile × List Stamped) : Download :=
  if s.client.ctl = .loop then
    let (client, sent) := f s.client
    { s with client, acks := s.acks ++ sent }
  else s

/-- The server is at work and does `f`. -/
def withServer (s : Download) (f : Bool → Sendfile → Sendfile × List Stamped) : Download :=
  match s.server with
  | some (convert, server) =>
    if server.ctl = .loop then
      let (server', sent) := f convert server
      { s with server := some (convert, server'), datas := s.datas ++ sent }
    else s
  | none => s

def apply (d : Setting) (s : Download) : DownloadEvent → Download
  | .toClient i ok =>
    match s.datas[i]? with
    | some x => s.withClient (fun client =>
        client.receive d.request.mode.convert (Client.ends d.request.mode.convert) x.2 ok)
    | none => s
  | .toServer i ok =>
    match s.acks[i]? with
    | some a =>
      match s.server with
      | some _ => s.withServer (fun convert server => server.receive convert a.2 ok)
      | none =>
        match d.serve a.2 ok with
        | some (server, sent) => { s with server := some server, datas := s.datas ++ sent }
        | none => s
    | none => s
  | .clientAlarm ok => s.withClient (fun client =>
      client.timer d.timing d.request.mode.convert (Client.ends d.request.mode.convert) ok)
  | .serverAlarm ok => s.withServer (fun convert server =>
      server.timer Tftpd.timing convert ok)
  | .serverError => s.withServer (fun _ server => ({ server with ctl := .aborted }, []))

end Download

def Setting.download (d : Setting) (ok : Bool) : Download :=
  let (client, sent) := Client.recvfile d.clientSubs d.request ok
  { client, server := none, datas := [], acks := sent }

def downloadStep (d : Setting) (s : Download) (e : DownloadEvent) : Option Download :=
  some (s.apply d e)

/-- No packet comes 65536 or more blocks late: the receiver waits for the block after the last
one it has accepted, the sender for the acknowledgement of its block. -/
def Download.OnTime (s : Download) : DownloadEvent → Prop
  | .toClient i _ => ∀ x, s.datas[i]? = some x → x.2.received.opcode = DATA →
      InTime 65536 x.1 (s.client.accepted.length + 1)
  | .toServer i _ => ∀ a server, s.acks[i]? = some a → s.server = some server →
      a.2.received.opcode = ACK → InTime 65536 a.1 server.2.number
  | _ => True

theorem onTime_of_early {s : Download} (hclient : s.client.accepted.length + 1 < 65536)
    (hserver : s.server.elim 1 (fun server => server.2.number) < 65536) (e : DownloadEvent) :
    s.OnTime e := by
  cases e with
  | toClient i ok => exact fun x _ _ => hclient.trans_le (Nat.le_add_left _ _)
  | toServer i ok =>
    intro a server _ heq _
    rw [heq] at hserver
    exact hserver.trans_le (Nat.le_add_left _ _)
  | _ => exact trivial

/-! ## The invariant -/

/-- The invariant. A server that has not started will start with block 1. -/
structure Download.Good (d : Setting) (s : Download) : Prop where
  server : ∀ convert server, s.server = some (convert, server) →
    convert = d.request.mode.convert ∧ SendOk convert
      (encoded convert (d.files d.request.name)) none server
  linked : Linked d.request.mode.convert
    (encoded d.request.mode.convert (d.files d.request.name)) none
    (some (makerequest d.request)) (s.server.elim 1 (fun server => server.2.number)) s.client s.datas s.acks

variable {d : Setting} {s : Download}

theorem download_good (d : Setting) (ok : Bool) : (d.download ok).Good d := by
  obtain ⟨hstep, haccepted⟩ := Client.recvfile_receiving d.clientSubs d.request
    (encoded d.request.mode.convert (d.files d.request.name)) ok
  refine ⟨fun _ _ h => by simp [Setting.download] at h, ⟨hstep.ok, fun x hx => ?_,
    hstep.numbered, fun hne => ?_⟩⟩
  · exact absurd hx List.not_mem_nil
  · have hlock : Lockstep 1 ((Client.recvfile d.clientSubs d.request ok).1.accepted.length + 1)
        ([] : List Stamped) ([] : List Stamped) := lockstep_start (by omega) (by rw [haccepted]; simp)
    exact hlock.reply (fun a ha => Nat.lt_succ_of_le (hstep.sent hne a ha))

theorem Download.Good.client (h : s.Good d) {f : Recvfile → Recvfile × List Stamped}
    (hf : ∀ n, Linked d.request.mode.convert
        (encoded d.request.mode.convert (d.files d.request.name)) none
        (some (makerequest d.request)) n s.client s.datas s.acks → s.client.ctl = .loop →
      Linked d.request.mode.convert
        (encoded d.request.mode.convert (d.files d.request.name)) none
        (some (makerequest d.request)) n (f s.client).1 s.datas (s.acks ++ (f s.client).2)) :
    (s.withClient f).Good d := by
  unfold Download.withClient
  split
  · rename_i hloop
    exact ⟨h.server, hf _ h.linked hloop⟩
  · exact h

theorem Download.Good.serve (h : s.Good d) {f : Bool → Sendfile → Sendfile × List Stamped}
    (hf : ∀ server : Sendfile, s.server = some (d.request.mode.convert, server) →
      server.ctl = .loop →
      SendOk d.request.mode.convert
        (encoded d.request.mode.convert (d.files d.request.name)) none server →
      Linked d.request.mode.convert
        (encoded d.request.mode.convert (d.files d.request.name)) none
        (some (makerequest d.request)) server.number s.client s.datas s.acks →
      SendOk d.request.mode.convert
          (encoded d.request.mode.convert (d.files d.request.name)) none
          (f d.request.mode.convert server).1 ∧
        Linked d.request.mode.convert
          (encoded d.request.mode.convert (d.files d.request.name)) none
          (some (makerequest d.request)) (f d.request.mode.convert server).1.number s.client
          (s.datas ++ (f d.request.mode.convert server).2) s.acks) :
    (s.withServer f).Good d := by
  unfold Download.withServer
  split
  · rename_i convert server hserver
    split
    · rename_i hloop
      obtain ⟨rfl, hsend⟩ := h.server convert server hserver
      have hlinked := h.linked
      rw [hserver] at hlinked
      obtain ⟨hsend', hlinked'⟩ := hf server hserver hloop hsend hlinked
      refine ⟨fun convert' server' heq => ?_, hlinked'⟩
      obtain ⟨rfl, rfl⟩ := Prod.mk.inj (Option.some.inj heq)
      exact ⟨rfl, hsend'⟩
    · exact h
  · exact h

theorem apply_good (h : s.Good d) {e : DownloadEvent} (hlate : s.OnTime e) :
    (s.apply d e).Good d := by
  have hends := Client.ends_ok d.request.mode.convert
    (encoded d.request.mode.convert (d.files d.request.name)) (makerequest d.request)
  cases e with
  | toClient i ok =>
    simp only [Download.apply]
    split
    · rename_i x hx
      exact h.client (fun n hlinked hloop =>
        linked_data hends hlinked hloop (List.mem_of_getElem? hx) (hlate x hx) ok)
    · exact h
  | toServer i ok =>
    simp only [Download.apply]
    split
    · rename_i a ha
      split
      · exact h.serve (fun server hserver hloop hsend hlinked =>
          linked_ack hlinked hsend hloop (List.mem_of_getElem? ha)
            (hlate a _ ha hserver) ok)
      · rename_i hnone
        split
        · rename_i server sent hserve
          have hlinked := h.linked
          rw [hnone] at hlinked
          unfold Setting.serve at hserve
          split at hserve
          · rename_i opcode stuff hrequest
            split at hserve
            · obtain rfl := Option.some.inj
                ((hlinked.numbered a (List.mem_of_getElem? ha)).request opcode stuff hrequest)
              simp only [tftp_makerequest, Option.map_some, Option.some.injEq,
                Prod.mk.injEq] at hserve
              obtain ⟨rfl, rfl⟩ := hserve
              obtain ⟨hstep, hnumber, -⟩ := Tftpd.sendfile_sending d.serverSubs
                d.request.mode.convert (d.files d.request.name) ok
              refine ⟨fun convert server heq => ?_, hlinked.sends hstep (fun hne => ?_)⟩
              · obtain ⟨rfl, rfl⟩ := Prod.mk.inj (Option.some.inj heq)
                exact ⟨rfl, hstep.ok⟩
              · rw [hnumber]
                exact hlinked.lockstep hne
            · cases hserve
          · cases hserve
        · exact h
    · exact h
  | clientAlarm ok =>
    simp only [Download.apply]
    exact h.client (fun n hlinked hloop => linked_alarm hends hlinked hloop d.timing ok)
  | serverAlarm ok =>
    exact h.serve (fun server _ hloop hsend hlinked =>
      linked_resend hlinked hsend hloop Tftpd.timing ok)
  | serverError =>
    simp only [Download.apply]
    refine h.serve (fun server _ hloop hsend hlinked => ⟨sendOk_ended (Or.inl rfl), ?_⟩)
    rw [List.append_nil]
    exact hlinked

/-! ## Safety -/

theorem decoded_octet (xs : List UInt8) : (decoded false xs).file.bytes = xs :=
  decoded_encoded false xs

/-- In octet mode, in every state that the transfer reaches, the client has accepted the first
blocks of the file, and has written all of them but at most the last, in order and once each.
When it has left its loop normally, its file is the server's. -/
theorem download_safe (d : Setting) (hmode : d.request.mode = .octet) (ok : Bool)
    (es : List DownloadEvent)
    (hlate : Steps Download.OnTime (downloadStep d) (d.download ok) es) (u : Download)
    (hu : Reached (downloadStep d) (d.download ok) es u) :
    u.client.file.bytes <+: d.files d.request.name ∧
    (∃ j k, u.client.accepted = blocks SEGSIZE (d.files d.request.name) k ∧ j ≤ k ∧ k ≤ j + 1 ∧
      u.client.file.bytes = (blocks SEGSIZE (d.files d.request.name) j).flatten) ∧
    (u.client.ctl = .left → u.client.file.bytes = d.files d.request.name) := by
  have hgood : u.Good d := by
    refine steps_reached (fun s e t hs hok hstep => ?_) (download_good d ok) hlate hu
    cases hstep
    exact apply_good hs hok
  have hconvert : d.request.mode.convert = false := by
    rw [hmode]
    rfl
  have hrecv := hgood.linked.recv
  rw [hconvert] at hrecv
  obtain ⟨j, hj, hk, hfile⟩ := hrecv.written
  have hbytes : u.client.file.bytes = (blocks SEGSIZE (d.files d.request.name) j).flatten := by
    rw [hfile]
    exact decoded_octet _
  refine ⟨?_, ⟨j, _, hrecv.accepted, hj, hk, hbytes⟩, fun hleft => ?_⟩
  · rw [hbytes]
    exact blocks_prefix j
  · rw [(hrecv.complete (Or.inr hleft)).2]
    exact decoded_octet _

/-- A request for a file of seven bytes, and buffers as they are at first. -/
def sevenBytes : Setting where
  request := requestX
  files := fun _ => [1, 2, 3, 4, 5, 6, 7]
  timing := ⟨5, 25⟩
  clientSubs := ⟨fun _ => ⟨0, ⟨0, 0, []⟩⟩, false, false, false, none⟩
  serverSubs := ⟨fun _ => ⟨0, ⟨0, 0, []⟩⟩, false, false, false, none⟩

/-- The request and the block are both delivered twice. -/
theorem download_safe_twice :
    ∃ u, Reached (downloadStep sevenBytes) (sevenBytes.download true)
        [.toServer 0 true, .toServer 0 true, .toClient 0 true, .toClient 0 true] u ∧
      u.client.file.bytes = [1, 2, 3, 4, 5, 6, 7] := by
  have hrun : ∀ (s : Download) es,
      run (downloadStep sevenBytes) s es = some (es.foldl (Download.apply sevenBytes) s) := by
    intro s es
    induction es generalizing s with
    | nil => rfl
    | cons e es ih => exact ih (s.apply sevenBytes e)
  refine ⟨_, ⟨_, List.prefix_rfl, hrun _ _⟩, ?_⟩
  refine (download_safe sevenBytes rfl true _ ?_ _ ⟨_, List.prefix_rfl, hrun _ _⟩).2.2 ?_
  · refine ⟨onTime_of_early (by decide +kernel) (by decide +kernel) _, ?_⟩
    rintro t ⟨⟩
    refine ⟨onTime_of_early (by decide +kernel) (by decide +kernel) _, ?_⟩
    rintro t ⟨⟩
    refine ⟨onTime_of_early (by decide +kernel) (by decide +kernel) _, ?_⟩
    rintro t ⟨⟩
    refine ⟨onTime_of_early (by decide +kernel) (by decide +kernel) _, ?_⟩
    rintro t ⟨⟩
    exact trivial
  · decide +kernel

end Netkit.Tftp

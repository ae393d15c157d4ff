import Mathlib.Data.List.ReduceOption
import Netkit.Foundations.Runs
import Netkit.Timed.Messages

/-!
# A master is told to quit

`doquit` writes to the network that `fromnet` points to. `suppress` and `acksend`, which it calls,
read other messages before.

* `doquit_frame_iff`: the other networks stay as they are, exactly if the last of these messages
  came from the network of the first.
-/

namespace Netkit.Timed

/-- `msgslist`, `msgcnt` and `fromnet`. -/
structure Receiver where
  queue : Queue
  fromnet : Option Net
deriving DecidableEq

/-- What comes while `readmsg` waits: a message, or the end of the time. -/
abbrev Inputs := List (Option Message)

variable (nettab : List Netinfo) (hostname : Name)

namespace Receiver

/-- The second half of `readmsg`. -/
def wait (f : Filter) : Receiver → Inputs → Option Message × Receiver × Inputs
  | r, [] => (none, r, [])
  | r, none :: rest => (none, r, rest)
  | r, some msg :: rest =>
    if msg.info.tspVers > TSPVERSION then wait f r rest
    else if discards nettab hostname msg then wait f ⟨r.queue, Timed.fromnet nettab msg⟩ rest
    else if lookat nettab f msg then (some msg, ⟨r.queue, Timed.fromnet nettab msg⟩, rest)
    else wait f ⟨r.queue.arrive msg, Timed.fromnet nettab msg⟩ rest

def readmsg (f : Filter) (r : Receiver) (inputs : Inputs) : Option Message × Receiver × Inputs :=
  match r.queue.readmsg nettab f with
  | some (msg, queue) =>
    (some msg, ⟨queue, if f.netfrom.isNone then Timed.fromnet nettab msg else f.netfrom⟩, inputs)
  | none => r.wait nettab hostname f inputs

def drain (f : Filter) : ℕ → Receiver → Inputs → Option (Receiver × Inputs)
  | 0, _, _ => none
  | passes + 1, r, inputs =>
    match r.readmsg nettab hostname f inputs with
    | (some _, r, rest) => drain f passes r rest
    | (none, r, rest) => some (r, rest)

/-- `acksend` with one attempt, which ends when `sendto` fails. -/
def acksend (name : Name) (sent : Bool) (r : Receiver) (inputs : Inputs) : Receiver :=
  if sent then (r.readmsg nettab hostname ⟨.ack, some name, none⟩ inputs).2.1 else r

def suppress (name : Name) (net : Net) (sent : Bool) (r : Receiver) (inputs : Inputs) :
    Option Receiver :=
  (r.drain nettab hostname ⟨.any, none, some net⟩ (r.queue.msgs.length + inputs.length + 1)
    inputs).map fun p => p.1.acksend nettab hostname name sent p.2

end Receiver

/-- `null`: a NULL pointer is used. -/
inductive Quit where
  | null
  | done (nettab : List Netinfo)
deriving DecidableEq

def setNet (i : Net) (update : Netinfo → Netinfo) : Quit := .done (nettab.modify i update)

/-- `trusted` is `good_host_name`. -/
def doquit (trusted : Name → Bool) (msg : Message) (sent : Bool) (r : Receiver) (inputs : Inputs) :
    Option Quit :=
  match r.fromnet with
  | none => some .null
  | some i =>
    match nettab[i]? with
    | none => some .null
    | some net =>
      if net.status = .master then
        if !trusted msg.info.tspName then
          if net.quitCount ≤ 0 then
            (r.suppress nettab hostname msg.info.tspName i sent inputs).map fun r =>
              match r.fromnet with
              | none => .null
              | some j => setNet nettab j fun n => { n with quitCount := 1 }
          else some (setNet nettab i fun n => { n with quitCount := 2, status := .nomaster })
        else some (setNet nettab i fun n => { n with status := .slave })
      else if !trusted msg.info.tspName then
        some (setNet nettab i fun n => { n with quitCount := 2 })
      else some (.done nettab)

/-! ## The messages in between -/

/-- `readmsg` looks at the message further than at its version. -/
def understood (msg : Message) : Bool := !decide (msg.info.tspVers > TSPVERSION)

def accepted (f : Filter) (msg : Message) : Bool :=
  !discards nettab hostname msg && lookat nettab f msg

def Inputs.arrivals (inputs : Inputs) : List Message :=
  (inputs.takeWhile Option.isSome).reduceOption

def Inputs.later (inputs : Inputs) : Inputs := (inputs.dropWhile Option.isSome).tail

def awaited (f : Filter) : List Message → List Message
  | [] => []
  | msg :: rest => if accepted nettab hostname f msg then [msg] else msg :: awaited f rest

def Queue.purge (f : Filter) : ℕ → Queue → Queue
  | 0, q => q
  | n + 1, q =>
    match q.readmsg nettab f with
    | none => q
    | some (_, q) => Queue.purge f n q

def Queue.await (f : Filter) (msgs : List Message) (q : Queue) : Queue :=
  msgs.foldl (fun q msg =>
    if discards nettab hostname msg || lookat nettab f msg then q else q.arrive msg) q

/-- The message that `acksend` finds among those that wait, or those that it waits for. -/
def acknowledged (name : Name) (q : Queue) (inputs : Inputs) : List Message :=
  match q.readmsg nettab ⟨.ack, some name, none⟩ with
  | some (msg, _) => [msg]
  | none => (awaited nettab hostname ⟨.ack, some name, none⟩ inputs.arrivals).filter understood

/-- The messages from which `fromnet` is set, while a master of the network is suppressed. -/
def taken (name : Name) (net : Net) (sent : Bool) (q : Queue) (inputs : Inputs) : List Message :=
  inputs.arrivals.filter understood ++
    if sent then
      acknowledged nettab hostname name
        ((q.purge nettab ⟨.any, none, some net⟩ q.msgs.length).await nettab hostname
          ⟨.any, none, some net⟩ inputs.arrivals) inputs.later
    else []

/-! ## Reading them -/

variable {nettab hostname} {f : Filter} {q q' : Queue} {r : Receiver} {inputs rest : Inputs}
  {msg : Message} {i : Net} {name : Name} {sent : Bool}

namespace Receiver

def take (nettab : List Netinfo) (hostname : Name) (f : Filter) (r : Receiver) (msg : Message) :
    Receiver where
  queue :=
    if discards nettab hostname msg || lookat nettab f msg then r.queue else r.queue.arrive msg
  fromnet := if understood msg then Timed.fromnet nettab msg else r.fromnet

theorem wait_cons : r.wait nettab hostname f (some msg :: rest) =
    if accepted nettab hostname f msg then (some msg, r.take nettab hostname f msg, rest)
    else (r.take nettab hostname f msg).wait nettab hostname f rest := by
  rw [wait, take, accepted, understood]
  by_cases hvers : msg.info.tspVers > TSPVERSION
  · have hdiscards : discards nettab hostname msg = true := by
      rw [discards, decide_eq_true hvers]
      rfl
    simp only [hvers, hdiscards, if_true, decide_true, Bool.not_true, Bool.false_and, Bool.true_or,
      Bool.false_eq_true, if_false]
  · cases hdiscards : discards nettab hostname msg with
    | true =>
      simp only [hvers, if_true, if_false, decide_false, Bool.not_false, Bool.not_true,
        Bool.false_and, Bool.true_or, Bool.false_eq_true]
    | false =>
      cases hlookat : lookat nettab f msg with
      | true =>
        simp only [hvers, if_true, if_false, decide_false, Bool.not_false, Bool.true_and,
          Bool.or_true, Bool.false_eq_true]
      | false =>
        simp only [hvers, if_true, if_false, decide_false, Bool.not_false, Bool.and_false,
          Bool.or_false, Bool.false_eq_true]

theorem foldl_take_queue (msgs : List Message) :
    (msgs.foldl (take nettab hostname f) r).queue = r.queue.await nettab hostname f msgs := by
  induction msgs generalizing r with
  | nil => rfl
  | cons msg msgs ih => rw [List.foldl_cons, ih]; rfl

/-- The last message that is understood sets `fromnet`. -/
theorem foldl_take_fromnet (msgs : List Message) :
    (msgs.foldl (take nettab hostname f) r).fromnet =
      (msgs.filter understood).getLast?.elim r.fromnet (Timed.fromnet nettab) := by
  induction msgs generalizing r with
  | nil => rfl
  | cons msg msgs ih =>
    rw [List.foldl_cons, ih, List.filter_cons, take]
    cases hmsg : understood msg with
    | false => rfl
    | true =>
      rw [if_pos rfl, if_pos rfl, List.getLast?_cons]
      cases (msgs.filter understood).getLast? with
      | none => rfl
      | some last => rfl

end Receiver

theorem arrivals_cons : Inputs.arrivals (some msg :: rest) = msg :: Inputs.arrivals rest := rfl

theorem later_cons : Inputs.later (some msg :: rest) = Inputs.later rest := rfl

theorem wait_eq : (r.wait nettab hostname f inputs).2.1 =
    (awaited nettab hostname f inputs.arrivals).foldl (Receiver.take nettab hostname f) r := by
  induction inputs generalizing r with
  | nil => rfl
  | cons input rest ih =>
    cases input with
    | none => rfl
    | some msg =>
      rw [Receiver.wait_cons, arrivals_cons, awaited]
      split
      · rfl
      · exact ih

theorem readmsg_eq_wait (h : ∀ m ∈ r.queue.msgs, lookat nettab f m = false) :
    r.readmsg nettab hostname f inputs = r.wait nettab hostname f inputs := by
  have hnone : r.queue.readmsg nettab f = none :=
    Option.map_eq_none_iff.mpr (takeMsg_eq_none_iff.mpr h)
  rw [Receiver.readmsg, hnone]

theorem take_waits (hostname : Name) (h : ∀ m ∈ r.queue.msgs, lookat nettab f m = false)
    (msg : Message) :
    ∀ m ∈ (r.take nettab hostname f msg).queue.msgs, lookat nettab f m = false := by
  intro m hm
  rw [Receiver.take] at hm
  split at hm
  · exact h m hm
  · next hnot =>
    have hmsg : lookat nettab f msg = false :=
      (Bool.or_eq_false_iff.mp (eq_false_of_ne_true hnot)).2
    dsimp only [Queue.arrive] at hm
    split at hm
    · exact absurd hm List.not_mem_nil
    · rcases List.mem_append.mp hm with hm | hm
      · exact h m hm
      · rw [List.mem_singleton.mp hm]
        exact hmsg

theorem drain_waits {n : ℕ} (h : ∀ m ∈ r.queue.msgs, lookat nettab f m = false)
    (hn : inputs.length < n) : r.drain nettab hostname f n inputs =
      some (inputs.arrivals.foldl (Receiver.take nettab hostname f) r, inputs.later) := by
  induction inputs generalizing r n with
  | nil =>
    obtain ⟨n, rfl⟩ := Nat.exists_eq_add_one.mpr (Nat.zero_lt_of_lt hn)
    rw [Receiver.drain, readmsg_eq_wait h]
    rfl
  | cons input rest ih =>
    obtain ⟨n, rfl⟩ := Nat.exists_eq_add_one.mpr (Nat.zero_lt_of_lt hn)
    rw [Receiver.drain, readmsg_eq_wait h]
    cases input with
    | none => rfl
    | some msg =>
      have hmsg := take_waits hostname h msg
      rw [Receiver.wait_cons, arrivals_cons, later_cons, List.foldl_cons]
      cases haccepted : accepted nettab hostname f msg with
      | true => exact ih hmsg (Nat.lt_of_succ_lt_succ hn)
      | false =>
        have hrest := ih hmsg (Nat.lt_of_succ_lt hn)
        rw [Receiver.drain, readmsg_eq_wait hmsg] at hrest
        exact hrest

theorem readmsg_length_lt {msg : Message} (h : q.readmsg nettab f = some (msg, q')) :
    q'.msgs.length < q.msgs.length := by
  obtain ⟨⟨m, ss⟩, htake, heq⟩ := Option.map_eq_some_iff.mp h
  cases heq
  obtain ⟨us, d, vs, hmsgs, -, -, -, rfl⟩ := takeMsg_eq_some_iff.mp htake
  have hfilter := List.length_filter_le (fun m => !duplicate d m) vs
  rw [hmsgs]
  simp only [List.length_append, List.length_cons]
  omega

/-- `suppress` reads all that waits from the network, and then all that arrives. The induction is on
what waits. -/
theorem drain_eq (hf : f.netfrom = some i) {n : ℕ} (hn : q.msgs.length ≤ n) :
    Receiver.drain nettab hostname f (n + inputs.length + 1) ⟨q, some i⟩ inputs =
      some (inputs.arrivals.foldl (Receiver.take nettab hostname f) ⟨q.purge nettab f n, some i⟩,
        inputs.later) := by
  induction n generalizing q with
  | zero =>
    have hnil : q.msgs = [] := List.length_eq_zero_iff.mp (Nat.le_zero.mp hn)
    have hpurge : q.purge nettab f 0 = q := rfl
    rw [hpurge]
    refine drain_waits (fun m hm => ?_) (by omega)
    rw [hnil] at hm
    exact absurd hm List.not_mem_nil
  | succ n ih =>
    rw [Queue.purge]
    cases hread : q.readmsg nettab f with
    | none =>
      have hnone := takeMsg_eq_none_iff.mp (Option.map_eq_none_iff.mp hread)
      exact drain_waits (r := ⟨q, some i⟩) hnone (by omega)
    | some p =>
      obtain ⟨msg, q'⟩ := p
      have hlt := readmsg_length_lt hread
      have hcall : Receiver.readmsg nettab hostname f ⟨q, some i⟩ inputs =
          (some msg, ⟨q', some i⟩, inputs) := by
        rw [Receiver.readmsg]
        dsimp only
        rw [hread, hf]
        rfl
      rw [show n + 1 + inputs.length + 1 = n + inputs.length + 1 + 1 by omega, Receiver.drain,
        hcall]
      exact ih (by omega)

theorem acknowledged_fromnet (nettab : List Netinfo) (hostname : Name) (name : Name) (r : Receiver)
    (inputs : Inputs) : (r.acksend nettab hostname name true inputs).fromnet =
      (acknowledged nettab hostname name r.queue inputs).getLast?.elim r.fromnet
        (fromnet nettab) := by
  rw [Receiver.acksend, if_pos rfl, Receiver.readmsg, acknowledged]
  cases r.queue.readmsg nettab ⟨.ack, some name, none⟩ with
  | none =>
    dsimp only
    rw [wait_eq, Receiver.foldl_take_fromnet]
  | some p => rfl

/-- `fromnet` is the network of the last message that was taken. -/
theorem suppress_fromnet (nettab : List Netinfo) (hostname name : Name) (i : Net) (sent : Bool)
    (q : Queue) (inputs : Inputs) :
    ∃ r, Receiver.suppress nettab hostname name i sent ⟨q, some i⟩ inputs = some r ∧
      r.fromnet = (taken nettab hostname name i sent q inputs).getLast?.elim (some i)
        (fromnet nettab) := by
  rw [Receiver.suppress, drain_eq rfl (Nat.le_refl _), Option.map_some]
  refine ⟨_, rfl, ?_⟩
  dsimp only
  rw [taken]
  cases sent with
  | false =>
    rw [Receiver.acksend, if_neg Bool.false_ne_true, if_neg Bool.false_ne_true, List.append_nil]
    exact Receiver.foldl_take_fromnet _
  | true =>
    rw [acknowledged_fromnet, Receiver.foldl_take_queue, Receiver.foldl_take_fromnet, if_pos rfl,
      List.getLast?_append]
    generalize acknowledged nettab hostname name _ _ = msgs
    cases msgs.getLast? with
    | none => rfl
    | some last => rfl

/-! ## The QUIT -/

def Known (nettab : List Netinfo) (q : Queue) : Prop :=
  ∀ m ∈ q.msgs, m.info.tspType = .quit → (fromnet nettab m).isSome

theorem isSome_fromnet_of_quit (h : discards nettab hostname msg = false)
    (hquit : msg.info.tspType = .quit) : (fromnet nettab msg).isSome := by
  have hnet := (Bool.or_eq_false_iff.mp (Bool.or_eq_false_iff.mp h).1).2
  have htype : (!ofIgnored.contains msg.info.tspType) = true := by
    rw [hquit]
    decide
  rw [htype, Bool.and_true] at hnet
  rw [← Option.not_isNone, hnet]
  rfl

theorem Known.take (h : Known nettab r.queue) :
    Known nettab (r.take nettab hostname f msg).queue := by
  rw [Receiver.take]
  split
  · exact h
  · next hnot =>
    have hdiscards : discards nettab hostname msg = false :=
      (Bool.or_eq_false_iff.mp (eq_false_of_ne_true hnot)).1
    intro m hm hquit
    dsimp only [Queue.arrive] at hm
    split at hm
    · exact absurd hm List.not_mem_nil
    · rcases List.mem_append.mp hm with hm | hm
      · exact h m hm hquit
      · rw [List.mem_singleton.mp hm] at hquit ⊢
        exact isSome_fromnet_of_quit hdiscards hquit

theorem mem_of_readmsg {m : Message} (h : q.readmsg nettab f = some (m, q')) :
    m ∈ q.msgs ∧ q'.msgs ⊆ q.msgs := by
  obtain ⟨⟨r, ss⟩, htake, heq⟩ := Option.map_eq_some_iff.mp h
  cases heq
  obtain ⟨us, d, vs, hmsgs, -, -, rfl, rfl⟩ := takeMsg_eq_some_iff.mp htake
  rw [hmsgs]
  constructor
  · cases hlast : (vs.filter (duplicate d)).getLast? with
    | none =>
      rw [List.getLastD_eq_getLast?, hlast]
      exact List.mem_append_right us List.mem_cons_self
    | some last =>
      rw [List.getLastD_eq_getLast?, hlast]
      have hmem := (List.mem_filter.mp (List.mem_of_getLast? hlast)).1
      exact List.mem_append_right us (List.mem_cons_of_mem d hmem)
  · intro x hx
    rcases List.mem_append.mp hx with hx | hx
    · exact List.mem_append_left _ hx
    · exact List.mem_append_right us (List.mem_cons_of_mem d (List.mem_filter.mp hx).1)

theorem Known.readmsg (h : Known nettab r.queue) :
    Known nettab (r.readmsg nettab hostname f inputs).2.1.queue := by
  rw [Receiver.readmsg]
  cases hread : r.queue.readmsg nettab f with
  | some p =>
    intro m hm hquit
    exact h m ((mem_of_readmsg hread).2 hm) hquit
  | none =>
    dsimp only
    rw [wait_eq]
    clear hread
    generalize awaited nettab hostname f inputs.arrivals = msgs
    induction msgs generalizing r with
    | nil => exact h
    | cons msg msgs ih => exact ih h.take

theorem wait_returns {r' : Receiver}
    (h : r.wait nettab hostname f inputs = (some msg, r', rest)) :
    discards nettab hostname msg = false ∧ r'.fromnet = fromnet nettab msg := by
  induction inputs generalizing r with
  | nil => cases h
  | cons input inputs ih =>
    cases input with
    | none => cases h
    | some m =>
      rw [Receiver.wait_cons] at h
      cases haccepted : accepted nettab hostname f m with
      | false =>
        rw [haccepted, if_neg Bool.false_ne_true] at h
        exact ih h
      | true =>
        rw [haccepted, if_pos rfl] at h
        cases h
        have hdiscards : discards nettab hostname msg = false := by
          rw [accepted, Bool.and_eq_true, Bool.not_eq_true'] at haccepted
          exact haccepted.1
        have hunderstood : understood msg = true := by
          rw [understood, Bool.not_eq_true']
          exact (Bool.or_eq_false_iff.mp (Bool.or_eq_false_iff.mp hdiscards).1).1
        refine ⟨hdiscards, ?_⟩
        rw [Receiver.take, if_pos hunderstood]

/-- Where a QUIT is returned to a caller that asks for no network, `fromnet` is its network. -/
theorem readmsg_quit {r' : Receiver} (hf : f.netfrom = none) (hknown : Known nettab r.queue)
    (h : r.readmsg nettab hostname f inputs = (some msg, r', rest))
    (hquit : msg.info.tspType = .quit) :
    ∃ i net, r'.fromnet = some i ∧ nettab[i]? = some net ∧ net.has msg.addr.sinAddr = true := by
  have hnet : (fromnet nettab msg).isSome ∧ r'.fromnet = fromnet nettab msg := by
    rw [Receiver.readmsg] at h
    cases hread : r.queue.readmsg nettab f with
    | some p =>
      rw [hread] at h
      cases h
      rw [hf]
      exact ⟨hknown _ (mem_of_readmsg hread).1 hquit, rfl⟩
    | none =>
      rw [hread] at h
      obtain ⟨hdiscards, hr'⟩ := wait_returns h
      exact ⟨isSome_fromnet_of_quit hdiscards hquit, hr'⟩
  obtain ⟨i, hi⟩ := Option.isSome_iff_exists.mp hnet.1
  obtain ⟨hlt, hhas, -⟩ := List.findIdx?_eq_some_iff_getElem.mp hi
  exact ⟨i, nettab[i], hnet.2.trans hi, List.getElem?_eq_getElem hlt, hhas⟩

/-- A call of `readmsg`, with what comes while it waits. -/
def receiveStep (nettab : List Netinfo) (hostname : Name) (r : Receiver) (c : Filter × Inputs) :
    Option Receiver :=
  some (r.readmsg nettab hostname c.1 c.2).2.1

/-- However `readmsg` has been called before: a QUIT does not come from nowhere. -/
theorem quit_known {calls : List (Filter × Inputs)} {i₀ : Option Net} {r r' : Receiver}
    (hrun : Foundations.run (receiveStep nettab hostname) ⟨⟨[], 0⟩, i₀⟩ calls = some r)
    (hf : f.netfrom = none) (h : r.readmsg nettab hostname f inputs = (some msg, r', rest))
    (hquit : msg.info.tspType = .quit) :
    ∃ i net, r'.fromnet = some i ∧ nettab[i]? = some net ∧ net.has msg.addr.sinAddr = true := by
  apply readmsg_quit hf _ h hquit
  refine Foundations.run_invariant (I := fun r => Known nettab r.queue) ?_ ?_ hrun
  · intro s c t hs hstep
    cases hstep
    exact hs.readmsg
  · exact fun m hm => absurd hm List.not_mem_nil

/-! ## What is written -/

/-- Of the network `i`, only the count and the status may be others; the other networks are as they
were. -/
structure Frames (nettab : List Netinfo) (i : Net) (after : List Netinfo) : Prop where
  others : ∀ j, j ≠ i → after[j]? = nettab[j]?
  fields : ∀ net, nettab[i]? = some net → ∃ quitCount status,
    after[i]? = some { net with quitCount := quitCount, status := status }

/-- The last of the messages came from the network `i`, or from one on which nothing changes; or
there is none. -/
def Stays (nettab : List Netinfo) (i : Net) (msgs : List Message) : Prop :=
  ∃ j, msgs.getLast?.elim (some i) (fromnet nettab) = some j ∧
    (j = i ∨ ∃ n, nettab[j]? = some n ∧ n.quitCount = 1)

variable {net : Netinfo} {j : Net} {update : Netinfo → Netinfo}

theorem frames_modify
    (hupdate : ∀ n, ∃ quitCount status,
      update n = { n with quitCount := quitCount, status := status }) :
    Frames nettab i (nettab.modify i update) := by
  refine ⟨fun j hj => ?_, fun net hnet => ?_⟩
  · exact List.getElem?_modify_ne _ _ (Ne.symm hj)
  · obtain ⟨quitCount, status, hnet'⟩ := hupdate net
    refine ⟨quitCount, status, ?_⟩
    rw [List.getElem?_modify_eq, hnet, ← hnet']
    rfl

theorem getElem?_fromnet (h : fromnet nettab msg = some j) : ∃ n, nettab[j]? = some n := by
  obtain ⟨hj, -⟩ := List.findIdx?_eq_some_iff_getElem.mp h
  exact ⟨_, List.getElem?_eq_getElem hj⟩

theorem getElem?_last {msgs : List Message} (hi : nettab[i]? = some net)
    (h : msgs.getLast?.elim (some i) (fromnet nettab) = some j) : ∃ n, nettab[j]? = some n := by
  cases hlast : msgs.getLast? with
  | none =>
    rw [hlast] at h
    cases h
    exact ⟨net, hi⟩
  | some m =>
    rw [hlast] at h
    exact getElem?_fromnet h

theorem frames_count_iff (hj : nettab[j]? = some net) :
    Frames nettab i (nettab.modify j fun n => { n with quitCount := 1 }) ↔
      j = i ∨ ∃ n, nettab[j]? = some n ∧ n.quitCount = 1 := by
  by_cases hji : j = i
  · subst hji
    exact iff_of_true (frames_modify fun n => ⟨1, n.status, rfl⟩) (Or.inl rfl)
  · have hcount : (nettab.modify j fun n => { n with quitCount := 1 })[j]? =
        some { net with quitCount := 1 } := by
      rw [List.getElem?_modify_eq, hj]
      rfl
    constructor
    · intro h
      have hsame := h.others j hji
      rw [hcount, hj] at hsame
      exact Or.inr ⟨net, hj, congrArg Netinfo.quitCount (Option.some.inj hsame).symm⟩
    · rintro (heq | ⟨n, hn, hquit⟩)
      · exact absurd heq hji
      · obtain rfl := Option.some.inj (hj.symm.trans hn)
        have hsame : nettab.modify j (fun n => { n with quitCount := 1 }) = nettab := by
          apply List.ext_getElem?
          intro k
          by_cases hkj : k = j
          · rw [hkj, hcount, hj, ← hquit]
          · exact List.getElem?_modify_ne _ _ (Ne.symm hkj)
        rw [hsame]
        exact ⟨fun _ _ => rfl, fun net hnet => ⟨net.quitCount, net.status, hnet⟩⟩

/-- A QUIT that is not trusted, from the network `i`: only this network is changed, exactly if it has
no master to be suppressed first, or else the messages that are read in the meantime leave
`fromnet` there. -/
theorem doquit_frame_iff (trusted : Name → Bool) (sent : Bool) (inputs : Inputs)
    (hfrom : r.fromnet = some i) (hi : nettab[i]? = some net)
    (htrusted : trusted msg.info.tspName = false) :
    (∃ after, doquit nettab hostname trusted msg sent r inputs = some (.done after) ∧
        Frames nettab i after) ↔
      (net.status = .master → net.quitCount ≤ 0 →
        Stays nettab i (taken nettab hostname msg.info.tspName i sent r.queue inputs)) := by
  obtain ⟨queue, origin⟩ := r
  obtain rfl : origin = some i := hfrom
  rw [doquit]
  simp only [hi, htrusted, Bool.not_false, if_true]
  by_cases hmaster : net.status = .master
  · by_cases hcount : net.quitCount ≤ 0
    · obtain ⟨r', hsuppress, hnet⟩ :=
        suppress_fromnet nettab hostname msg.info.tspName i sent queue inputs
      rw [if_pos hmaster, if_pos hcount, hsuppress, Option.map_some, hnet]
      simp only [hmaster, hcount, forall_const]
      rw [Stays]
      cases hlast : (taken nettab hostname msg.info.tspName i sent queue inputs).getLast?.elim
          (some i) (fromnet nettab) with
      | none =>
        refine iff_of_false ?_ ?_
        · rintro ⟨after, h, -⟩
          cases h
        · rintro ⟨j, h, -⟩
          cases h
      | some j =>
        obtain ⟨n, hj⟩ := getElem?_last hi hlast
        have hframes := frames_count_iff (i := i) hj
        constructor
        · rintro ⟨after, h, hafter⟩
          cases h
          exact ⟨j, rfl, hframes.mp hafter⟩
        · rintro ⟨k, h, hk⟩
          cases h
          exact ⟨_, rfl, hframes.mpr hk⟩
    · rw [if_pos hmaster, if_neg hcount]
      refine iff_of_true ⟨_, rfl, frames_modify fun n => ⟨2, .nomaster, rfl⟩⟩ ?_
      exact fun _ h => absurd h hcount
  · rw [if_neg hmaster]
    refine iff_of_true ⟨_, rfl, frames_modify fun n => ⟨2, n.status, rfl⟩⟩ ?_
    exact fun h => absurd h hmaster

/-! ## A packet of another network -/

def twoNets : List Netinfo :=
  [⟨0x0100, 0xff00, .master, 0⟩, ⟨0x0200, 0xff00, .master, 0⟩]

def untrustedQuit : Message := ⟨⟨.quit, 1, 7, [120]⟩, 0, ⟨0x0105, 525⟩⟩

def requestFrom (addr : UInt32) : Message := ⟨⟨.masterreq, 1, 3, [121]⟩, 0, ⟨addr, 525⟩⟩

theorem doquit_frame_quiet :
    ∃ after, doquit twoNets [104] (fun _ => false) untrustedQuit true ⟨⟨[], 0⟩, some 0⟩
      [some (requestFrom 0x0205), some (requestFrom 0x0107), none, none] = some (.done after) ∧
        Frames twoNets 0 after :=
  (doquit_frame_iff (fun _ => false) true _ rfl rfl rfl).mpr
    fun _ _ => ⟨0, by decide +kernel, Or.inl rfl⟩

theorem quit_known_untrusted : ∃ i net,
    (⟨⟨[], 0⟩, some 0⟩ : Receiver).fromnet = some i ∧ twoNets[i]? = some net ∧
      net.has untrustedQuit.addr.sinAddr = true := by
  have hrun : Foundations.run (receiveStep twoNets [104]) ⟨⟨[], 0⟩, none⟩ [] =
      some ⟨⟨[], 0⟩, none⟩ := rfl
  have hread : Receiver.readmsg twoNets [104] ⟨.any, none, none⟩ ⟨⟨[], 0⟩, none⟩
      [some untrustedQuit] = (some untrustedQuit, ⟨⟨[], 0⟩, some 0⟩, []) := by decide +kernel
  exact quit_known hrun rfl hread rfl

/-- While the acknowledgment is awaited, a packet comes from an unknown network. -/
theorem not_doquit_frames : ¬ ∀ (nettab : List Netinfo) (hostname : Name) (trusted : Name → Bool)
    (msg : Message) (sent : Bool) (q : Queue) (i : Net) (net : Netinfo) (inputs : Inputs),
    nettab[i]? = some net → fromnet nettab msg = some i → Known nettab q →
    msg.info.tspType = .quit → trusted msg.info.tspName = false →
    ∃ after, doquit nettab hostname trusted msg sent ⟨q, some i⟩ inputs = some (.done after) ∧
      Frames nettab i after := by
  intro h
  have hnull : doquit twoNets [104] (fun _ => false) untrustedQuit true ⟨⟨[], 0⟩, some 0⟩
      [none, some (requestFrom 0x0305), none] = some .null := by decide +kernel
  have hfromnet : fromnet twoNets untrustedQuit = some 0 := by decide +kernel
  obtain ⟨after, hafter, -⟩ := h twoNets [104] (fun _ => false) untrustedQuit true ⟨[], 0⟩ 0 _
    [none, some (requestFrom 0x0305), none] rfl hfromnet (fun m hm => absurd hm List.not_mem_nil)
    rfl rfl
  rw [hnull] at hafter
  cases hafter

end Netkit.Timed

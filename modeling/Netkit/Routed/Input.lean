import Netkit.Routed.Output

/-!
# routed hears a response

The case `RIPCMD_RESPONSE` of `rip_input` in `input.c`: which senders are believed, what a
response does to the tables, and the dynamic update that may follow.
-/

namespace Netkit.Routed

def MIN_WAITTIME : Int := 2
def MAX_WAITTIME : Int := 5
def SUPPLY_INTERVAL : Int := 30

/-- The conversion to `unsigned`. -/
def unsigned (metric : Int) : Int := metric % 0x100000000

/-! ## One entry of the response -/

/-- The metric of an entry, adjusted by the interface that the response came in through. -/
def adjustMetric (ifp : Interface) (metric : Int) : Int :=
  let metric := if unsigned metric < HOPCNT_INFINITY then metric + ifp.metric else metric
  if unsigned metric > HOPCNT_INFINITY then HOPCNT_INFINITY else metric

/-- A route to a new destination. It is not added if an equivalent route includes it. -/
def learnRoute (env : Env) (src : Sockaddr) (dst : Sockaddr) (metric : Int)
    (st : Tables × ℕ) : Tables × ℕ :=
  if unsigned metric < HOPCNT_INFINITY then
    match rtfind env.ifnet st.1 dst with
    | some rt =>
      if src = rt.router then st else (rtadd env dst src metric {} st.1, st.2 + 1)
    | none => (rtadd env dst src metric {} st.1, st.2 + 1)
  else st

/-- What the timer of a route is set to when its gateway has told another metric. -/
def freshTimer (rt : RtEntry) : Int :=
  if rt.metric ≥ HOPCNT_INFINITY then GARBAGE_TIME - EXPIRE_TIME else 0

/-- `rt->rt_timer = timer`. -/
def setTimer (rt : RtEntry) (timer : RtEntry → Int) (t : Tables) : Tables :=
  t.modify rt (fun e => { e with timer := timer e }) (fun _ => ⟨rfl, rfl, rfl⟩)

/-- The case of a route that another gateway offers: it is taken if it is shorter, or as short
while ours is getting stale. -/
def takesOver (metric : Int) (rt : RtEntry) : Bool :=
  unsigned metric < unsigned rt.metric ||
    (rt.metric == metric && decide (rt.timer > EXPIRE_TIME / 2) &&
      decide (unsigned metric < HOPCNT_INFINITY))

/-- The route `rt` is updated, if it is from the gateway and different, or if the gateway's is
to be preferred. -/
def updateRoute (env : Env) (src : Sockaddr) (metric : Int) (rt : RtEntry)
    (st : Tables × ℕ) : Tables × ℕ :=
  if src = rt.router then
    if metric ≠ rt.metric then
      (setTimer rt freshTimer (rtchange env rt src metric st.1), st.2 + 1)
    else if rt.metric < HOPCNT_INFINITY then (setTimer rt (fun _ => 0) st.1, st.2)
    else st
  else if takesOver metric rt then
    (setTimer rt (fun _ => 0) (rtchange env rt src metric st.1), st.2 + 1)
  else st

/-- An entry with a metric that has been adjusted. A route that is internal and for an interface
does not count as one to its destination; if it has been sent to the sender, the entry is
ignored. -/
def ripEntry (env : Env) (src : Sockaddr) (dst : Sockaddr) (metric : Int)
    (st : Tables × ℕ) : Tables × ℕ :=
  match rtlookup env.ifnet st.1 dst with
  | none => learnRoute env src dst metric st
  | some rt =>
    if rt.state.internal && rt.state.interface then
      if rt.state.subnet && inetSendroute rt src then st
      else learnRoute env src dst metric st
    else updateRoute env src metric rt st

def isSound (n : Netinfo) : Bool :=
  n.dst.family == AF_INET && inetCheckhost n.dst && n.metric != 0 &&
    decide (unsigned n.metric ≤ HOPCNT_INFINITY)

def ripNetinfo (env : Env) (ifp : Interface) (src : Sockaddr) (st : Tables × ℕ) (n : Netinfo) :
    Tables × ℕ :=
  if isSound n then ripEntry env src n.dst (adjustMetric ifp n.metric) st else st

/-- The loop on the entries of the response: the tables, and `changes`. -/
def ripNets (env : Env) (ifp : Interface) (src : Sockaddr) (nets : List Netinfo) (t : Tables) :
    Tables × ℕ :=
  nets.foldl (ripNetinfo env ifp src) (t, 0)

/-! ## The sender -/

/-- The response is our own: the route for the interface is put back if it is gone. -/
def hearOurselves (env : Env) (ifp : Interface) (src : Sockaddr) (t : Tables) : Tables :=
  match rtfind env.ifnet t src with
  | none => addrouteforif env ifp t
  | some rt =>
    if !rt.state.interface && decide (rt.metric ≥ ifp.metric) then addrouteforif env ifp t
    else setTimer rt (fun _ => 0) t

/-- The route to the other end of a point-to-point link is put back if it is gone. -/
def restoreLink (env : Env) (src : Sockaddr) (rt : Option RtEntry) (t : Tables) : Tables :=
  match ifIfwithdstaddr env.ifnet src with
  | some ifp =>
    if rt.all (fun rt => decide (rt.metric ≥ ifp.metric)) then addrouteforif env ifp t else t
  | none => t

/-- The timer of the route for the interface on which the response arrived. -/
def refreshSender (env : Env) (src : Sockaddr) (t : Tables) : Tables :=
  match rtfind env.ifnet t src with
  | some rt =>
    if rt.state.interface || rt.state.remote then setTimer rt (fun _ => 0) t
    else restoreLink env src (some rt) t
  | none => restoreLink env src none t

def authenticated (ifnet : List Interface) (src : Sockaddr) : Option Interface :=
  match ifIflookup ifnet src with
  | some ifp => if ifp.hasPeer && !ifp.flags.passive then some ifp else none
  | none => none

/-! ## The dynamic update -/

def timevaladd (t₁ t₂ : Timeval) : Timeval :=
  let usec := t₁.usec + t₂.usec
  if usec > 1000000 then ⟨t₁.sec + t₂.sec + 1, usec - 1000000⟩ else ⟨t₁.sec + t₂.sec, usec⟩

/-- `RANDOMDELAY`, for the number that `random` returns. -/
def randomdelay (random : ℕ) : Int :=
  MIN_WAITTIME * 1000000 + (random : Int) % ((MAX_WAITTIME - MIN_WAITTIME) * 1000000)

namespace Globals

def isDynamic (s : Globals) : Bool :=
  s.supplier ≠ 0 && s.now.sec - s.lastfullupdate.sec < SUPPLY_INTERVAL - MAX_WAITTIME

def isOpen (s : Globals) : Bool :=
  s.now.sec - s.lastbcast.sec ≥ MIN_WAITTIME && s.nextbcast.before s.now

/-- A dynamic update on all interfaces but `skipif`. -/
def sendDynamic (skipif : Option ℕ) (s : Globals) : Globals :=
  let s := { s.toall true skipif with lastbcast := s.now }
  { s.clearNeedupdate with nextbcast := { s.nextbcast with sec := 0 } }

/-- Further dynamic updates are held off for a random time, beyond the next full update if they
would come just before it. -/
def inhibit (random : ℕ) (s : Globals) : Globals :=
  if s.nextbcast.sec = 0 then
    let delay := randomdelay random
    let nextbcast := timevaladd ⟨delay / 1000000, delay % 1000000⟩ s.now
    { s with nextbcast :=
      if nextbcast.sec > s.lastfullupdate.sec + SUPPLY_INTERVAL - MIN_WAITTIME then
        { nextbcast with sec := s.lastfullupdate.sec + SUPPLY_INTERVAL + 1 }
      else nextbcast }
  else s

def dynamicUpdate (ifp : Interface) (random : ℕ) (s : Globals) : Globals :=
  if s.isDynamic then
    (if s.isOpen then s.sendDynamic (some ifp.id)
      else { s with needupdate := s.needupdate + 1 }).inhibit random
  else s

end Globals

/-! ## The response -/

/-- A datagram with the command `RIPCMD_RESPONSE`: its sender, its version and its complete
entries. -/
structure Response where
  src : Sockaddr
  vers : UInt8
  nets : List Netinfo
  deriving DecidableEq

namespace Globals

/-- The response is from `src`, which is not one of our addresses. -/
def hearRouter (p : Platform) (random : ℕ) (src : Sockaddr) (nets : List Netinfo)
    (s : Globals) : Globals :=
  let env := s.env p ((ifIflookup s.ifnet src).map Interface.id)
  let t := refreshSender env src s.tables
  match authenticated s.ifnet src with
  | none => { s with tables := t }
  | some ifp =>
    let st := ripNets env ifp src nets t
    let s := { s with tables := st.1 }
    if st.2 > 0 then s.dynamicUpdate ifp random else s

/-- The case `RIPCMD_RESPONSE` of `rip_input`, called when the time is `now`. -/
def ripInput (p : Platform) (now : Timeval) (random : ℕ) (r : Response) (s : Globals) :
    Globals :=
  let s := { s with now := now }
  if r.src.family = AF_INET ∧ r.vers ≠ 0 ∧ r.src.port = p.ripPort then
    let src := inetCanon r.src
    match ifIfwithaddr s.ifnet src with
    | some ifp =>
      if ifp.flags.passive then s
      else { s with tables := hearOurselves (s.env p (some ifp.id)) ifp src s.tables }
    | none => s.hearRouter p random src r.nets
  else s

end Globals

/-! ## Properties that are kept -/

section Kept

variable {env : Env} {ok : RtState → Prop} {may R : RtEntry → Prop} {t : Tables}
  {ifp : Interface} {src : Sockaddr} {st : Tables × ℕ}

theorem setTimer_kept (hR : Kept env ok may R) {rt : RtEntry} {timer : RtEntry → Int}
    (htimer : ∀ e, timer e ≤ GARBAGE_TIME - EXPIRE_TIME) (h : ∀ e ∈ t.entries, R e) :
    ∀ e ∈ (setTimer rt timer t).entries, R e := by
  intro e he
  rw [setTimer, entries_modify] at he
  obtain ⟨x, hx, rfl⟩ := List.mem_map.mp he
  split
  · exact hR.timed x _ (htimer x) (h x hx)
  · exact h x hx

theorem freshTimer_le (rt : RtEntry) : freshTimer rt ≤ GARBAGE_TIME - EXPIRE_TIME := by
  unfold freshTimer
  split <;> decide

theorem zero_le_freshTime : (0 : Int) ≤ GARBAGE_TIME - EXPIRE_TIME := by decide

theorem learnRoute_kept (hR : Kept env ok may R) (hok : ok {}) {dst : Sockaddr} {metric : Int}
    (h : ∀ e ∈ st.1.entries, R e) : ∀ e ∈ (learnRoute env src dst metric st).1.entries, R e := by
  unfold learnRoute
  split
  · split
    · split
      · exact h
      · exact hR.rtadd h hok
    · exact hR.rtadd h hok
  · exact h

theorem updateRoute_kept (hR : Kept env ok may R) {metric : Int} {rt : RtEntry}
    (hrt : rt ∈ st.1.entries) (hmay : may rt) (h : ∀ e ∈ st.1.entries, R e) :
    ∀ e ∈ (updateRoute env src metric rt st).1.entries, R e := by
  unfold updateRoute
  split
  · split
    · exact setTimer_kept hR freshTimer_le (hR.rtchange hrt hmay h)
    · split
      · exact setTimer_kept hR (fun _ => zero_le_freshTime) h
      · exact h
  · split
    · exact setTimer_kept hR (fun _ => zero_le_freshTime) (hR.rtchange hrt hmay h)
    · exact h

/-- The routes to the destination of an entry are those that it `may` change. -/
theorem ripEntry_kept (hR : Kept env ok may R) (hok : ok {}) {dst : Sockaddr} {metric : Int}
    (hmay : ∀ e, R e → e.dst = dst → may e) (h : ∀ e ∈ st.1.entries, R e) :
    ∀ e ∈ (ripEntry env src dst metric st).1.entries, R e := by
  unfold ripEntry
  split
  · exact learnRoute_kept hR hok h
  · rename_i rt hrt
    obtain ⟨hmem, hdst⟩ := rtlookup_mem hrt
    split
    · split
      · exact h
      · exact learnRoute_kept hR hok h
    · exact updateRoute_kept hR hmem (hmay rt (h rt hmem) hdst) h

theorem ripNetinfo_kept (hR : Kept env ok may R) (hok : ok {}) {n : Netinfo}
    (hmay : ∀ e, R e → e.dst = n.dst → may e) (h : ∀ e ∈ st.1.entries, R e) :
    ∀ e ∈ (ripNetinfo env ifp src st n).1.entries, R e := by
  unfold ripNetinfo
  split
  · exact ripEntry_kept hR hok hmay h
  · exact h

theorem foldl_ripNetinfo_kept (hR : Kept env ok may R) (hok : ok {}) {nets : List Netinfo}
    (hmay : ∀ e, R e → ∀ n ∈ nets, e.dst = n.dst → may e) (h : ∀ e ∈ st.1.entries, R e) :
    ∀ e ∈ (nets.foldl (ripNetinfo env ifp src) st).1.entries, R e := by
  induction nets generalizing st with
  | nil => exact h
  | cons n nets ih =>
    rw [List.foldl_cons]
    apply ih
    · intro e he m hm
      exact hmay e he m (List.mem_cons_of_mem _ hm)
    · exact ripNetinfo_kept hR hok (fun e he => hmay e he n List.mem_cons_self) h

theorem ripNets_kept (hR : Kept env ok may R) (hok : ok {}) {nets : List Netinfo}
    (hmay : ∀ e, R e → ∀ n ∈ nets, e.dst = n.dst → may e) (h : ∀ e ∈ t.entries, R e) :
    ∀ e ∈ (ripNets env ifp src nets t).1.entries, R e :=
  @foldl_ripNetinfo_kept _ _ _ _ _ _ (t, 0) hR hok _ hmay h

variable (hokIf : OkForIf ok) (hmayIf : ∀ e, R e → e.state.internal = true → may e)

include hokIf hmayIf

theorem hearOurselves_kept (hR : Kept env ok may R) (hifp : ok (ifState ifp))
    (h : ∀ e ∈ t.entries, R e) : ∀ e ∈ (hearOurselves env ifp src t).entries, R e := by
  unfold hearOurselves
  split
  · exact addrouteforif_kept hR hokIf hmayIf hifp h
  · split
    · exact addrouteforif_kept hR hokIf hmayIf hifp h
    · exact setTimer_kept hR (fun _ => zero_le_freshTime) h

theorem restoreLink_kept (hR : Kept env ok may R) {rt : Option RtEntry}
    (hlink : ∀ ifp ∈ env.ifnet, ifp.flags.pointopoint = true → ok (ifState ifp))
    (h : ∀ e ∈ t.entries, R e) : ∀ e ∈ (restoreLink env src rt t).entries, R e := by
  unfold restoreLink
  split
  · rename_i ifp hifp
    have hptp := List.find?_some hifp
    simp only [Bool.and_eq_true] at hptp
    split
    · exact addrouteforif_kept hR hokIf hmayIf
        (hlink ifp (ifIfwithdstaddr_mem hifp) hptp.1) h
    · exact h
  · exact h

theorem refreshSender_kept (hR : Kept env ok may R)
    (hlink : ∀ ifp ∈ env.ifnet, ifp.flags.pointopoint = true → ok (ifState ifp))
    (h : ∀ e ∈ t.entries, R e) : ∀ e ∈ (refreshSender env src t).entries, R e := by
  unfold refreshSender
  split
  · split
    · exact setTimer_kept hR (fun _ => zero_le_freshTime) h
    · exact restoreLink_kept hokIf hmayIf hR hlink h
  · exact restoreLink_kept hokIf hmayIf hR hlink h

end Kept

end Netkit.Routed

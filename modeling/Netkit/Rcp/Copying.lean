import Netkit.Rcp.Install
import Netkit.Rcp.Lockstep
import Netkit.Rcp.Order

/-!
# A tree is copied

The two ends of rcp go through a tree node by node, each answering the other at once.
-/

namespace Netkit.Rcp

open Netkit.Foundations

/-! ## One exchange -/

/-- Nothing is on its way. -/
structure Stands (c : Copying) (p : Source Unit) (s : Sink) (w : World) : Prop where
  source : c.net.source = p
  sink : c.net.sink = s
  down : c.net.down = []
  up : c.net.up = []
  world : c.world = w

def Leads (h : Host) (d : Bool) (c c' : Copying) : Prop := ∃ es, run (copyStep h d) c es = some c'

variable {h : Host} {d : Bool} {c c' c'' : Copying} {s : Sink} {w : World} {turn : SinkTurn}
  {i : Item} {why : Option Bytes}

theorem Leads.refl (c : Copying) : Leads h d c c := ⟨[], rfl⟩

theorem Leads.trans (h1 : Leads h d c c') (h2 : Leads h d c' c'') : Leads h d c c'' := by
  obtain ⟨es, hes⟩ := h1
  obtain ⟨fs, hfs⟩ := h2
  exact ⟨es ++ fs, run_append_eq_some.mpr ⟨c', hes, hfs⟩⟩

theorem Leads.step (side : Side) (hstep : copyStep h d c side = some c') : Leads h d c c' :=
  ⟨[side], run_cons_eq_some.mpr ⟨c', hstep, rfl⟩⟩

theorem sink_goes (hsink : c.net.sink = s) (hworld : c.world = w)
    (hturn : sinkStep d (w.env h c.net.down s) false c.net.down s = some turn) :
    Leads h d c ⟨c.net.turn turn, w.after h c.net.down s⟩ := by
  subst hsink hworld
  refine Leads.step .sink ?_
  rw [copyStep, netStep, sinkStep_gone hturn]
  rfl

def Copying.tell (c : Copying) (i : Item) (next : Source Unit) : Copying :=
  { c with net := { c.net with
    source := next, down := c.net.down ++ i.bytes, written := c.net.written ++ [i] } }

theorem source_tells {next : Source Unit} (hsource : c.net.source = .tell i next) :
    Leads h d c (c.tell i next) := by
  refine Leads.step .source ?_
  rw [copyStep, sourceStep, hsource]
  rfl

theorem sink_reads {p : Source Unit} {said : Bytes} (hsource : c.net.source = p)
    (hsink : c.net.sink = s) (hup : c.net.up = []) (hworld : c.world = w)
    (hturn : sinkStep d (w.env h c.net.down s) false c.net.down s = some turn)
    (hrest : turn.rest = []) (hsaid : turn.said.flatMap responseBytes = said) :
    ∃ c', Leads h d c c' ∧ c'.net.source = p ∧ c'.net.sink = turn.sink ∧ c'.net.down = [] ∧
      c'.net.up = said ∧ c'.world = w.after h c.net.down s := by
  refine ⟨_, sink_goes hsink hworld hturn, hsource, rfl, hrest, ?_, rfl⟩
  dsimp only [Net.turn]
  rw [hup, hsaid, List.nil_append]

/-- The source tells something, and the sink reads it without an answer. -/
theorem told {next : Source Unit} (hc : Stands c (.tell i next) s w)
    (hturn : sinkStep d (w.env h i.bytes s) false i.bytes s = some turn) (hrest : turn.rest = [])
    (hsaid : turn.said = []) :
    ∃ c', Leads h d c c' ∧ Stands c' next turn.sink (w.after h i.bytes s) := by
  have hdown : (c.tell i next).net.down = i.bytes := by
    rw [Copying.tell, hc.down]
    rfl
  have hreads := sink_reads (h := h) (d := d) (c := c.tell i next) rfl hc.sink hc.up hc.world
    (hdown ▸ hturn) hrest (congrArg (List.flatMap responseBytes) hsaid)
  obtain ⟨c', hleads, hsource, hsink, hrest, hup, hworld⟩ := hreads
  rw [hdown] at hworld
  exact ⟨c', (source_tells hc.source).trans hleads, hsource, hsink, hrest, hup, hworld⟩

theorem goes {p : Source Unit} (hc : Stands c p s w)
    (hturn : sinkStep d (w.env h [] s) false [] s = some turn) (hrest : turn.rest = [])
    (hsaid : turn.said = []) :
    ∃ c', Leads h d c c' ∧ Stands c' p turn.sink (w.after h [] s) := by
  obtain ⟨c', hleads, hsource, hsink, hdown, hup, hworld⟩ := sink_reads (h := h) (d := d) hc.source
    hc.sink hc.up hc.world (hc.down ▸ hturn) hrest (congrArg (List.flatMap responseBytes) hsaid)
  rw [hc.down] at hworld
  exact ⟨c', hleads, hsource, hsink, hdown, hup, hworld⟩

theorem heard (why : Option Bytes) {next : Bool → Source Unit} (hsource : c.net.source = .ask next)
    (hsink : c.net.sink = s) (hdown : c.net.down = []) (hup : c.net.up = responseBytes why)
    (hworld : c.world = w) (hwhy : ∀ text ∈ why, Readable text) :
    ∃ c', Leads h d c c' ∧ Stands c' (next why.isNone) s w := by
  have htake := takeResponse_bytes hwhy []
  rw [List.append_nil] at htake
  have hstep : copyStep h d c .source =
      some ⟨c.net.hear (next why.isNone) why [], c.world⟩ := by
    rw [copyStep, sourceStep, hsource, hup, htake]
    cases why with
    | none => rfl
    | some text => rfl
  exact ⟨_, Leads.step .source hstep, rfl, hsink, hdown, rfl, hworld⟩

/-- The source tells something, the sink reads it and answers, and the source hears that. -/
theorem told_heard (why : Option Bytes) {next : Bool → Source Unit} (hc : Stands c (.tell i (.ask next)) s w)
    (hturn : sinkStep d (w.env h i.bytes s) false i.bytes s = some turn) (hrest : turn.rest = [])
    (hsaid : turn.said = [why]) (hwhy : ∀ text ∈ why, Readable text) :
    ∃ c', Leads h d c c' ∧ Stands c' (next why.isNone) turn.sink (w.after h i.bytes s) := by
  have hdown : (c.tell i (.ask next)).net.down = i.bytes := by
    rw [Copying.tell, hc.down]
    rfl
  have hbytes : turn.said.flatMap responseBytes = responseBytes why := by
    rw [hsaid, List.flatMap_singleton]
  obtain ⟨c1, hleads, hsource, hsink, hrest, hup, hworld⟩ := sink_reads (h := h) (d := d)
    (c := c.tell i (.ask next)) rfl hc.sink hc.up hc.world (hdown ▸ hturn) hrest hbytes
  rw [hdown] at hworld
  obtain ⟨c2, hleads2, hstands⟩ := heard (h := h) (d := d) why hsource hsink hrest hup hworld hwhy
  exact ⟨c2, ((source_tells hc.source).trans hleads).trans hleads2, hstands⟩

/-! ## Records -/

variable {f : Frame} {fs : List Frame} {r : Record} {targ path : Bytes} {disk : Disk}
  {tv : List Int} {mtime atime : Int}

def Reads (i : Item) (r : Record) : Prop :=
  ∃ line, takeRecord i.bytes = some (line, []) ∧ parseRecord line = r

theorem reads_item (hplain : i.Plain) (hr : i.record = some r) : Reads i r := by
  obtain ⟨line, htake, hparse⟩ := parseRecord_item hplain hr []
  rw [List.append_nil] at htake
  exact ⟨line, htake, hparse⟩

theorem record_turn (hreads : Reads i r) :
    sinkStep d (w.env h i.bytes ⟨f :: fs, .record⟩) false i.bytes ⟨f :: fs, .record⟩ =
        some (handle d (h.answers w.disk (f.about r) true w.size) f fs [] r) ∧
      w.after h i.bytes ⟨f :: fs, .record⟩ = w.record h f fs r := by
  obtain ⟨line, htake, hparse⟩ := hreads
  have henv : w.env h i.bytes ⟨f :: fs, .record⟩ =
      h.answers w.disk (f.about r) true w.size := by
    dsimp only [World.env, Sink.subject]
    rw [htake]
    dsimp only
    rw [hparse]
    rfl
  dsimp only [sinkStep, World.after]
  rw [htake, henv]
  dsimp only
  rw [hparse]
  exact ⟨rfl, rfl⟩

theorem record_told (why : Option Bytes) {next : Bool → Source Unit}
    (hc : Stands c (.tell i (.ask next)) ⟨f :: fs, .record⟩ w) (hreads : Reads i r)
    (hturn : handle d (h.answers w.disk (f.about r) true w.size) f fs [] r = turn)
    (hsaid : turn.said = [why]) (hwhy : ∀ text ∈ why, Readable text) :
    ∃ c', Leads h d c c' ∧ Stands c' (next why.isNone) turn.sink (w.record h f fs r) := by
  obtain ⟨hstep, hafter⟩ : _ ∧ w.after h i.bytes ⟨f :: fs, .record⟩ = w.record h f fs r :=
    record_turn (d := d) hreads
  rw [hturn] at hstep
  have hrest : turn.rest = [] := by
    rw [← hturn]
    exact handle_rest r []
  rw [← hafter]
  exact told_heard why hc hstep hrest hsaid hwhy

/-! ## Times -/

theorem number_length {t : Int} (ht : IsTime t) : (number t).length ≤ 20 := by
  obtain ⟨hlow, hhigh⟩ := ht
  rw [number]
  split
  · have hlength : (decimal t.natAbs).length ≤ 19 := decimal_length (by decide) (by omega)
    rw [List.length_cons]
    omega
  · have hlength : (decimal t.toNat).length ≤ 19 := decimal_length (by decide) (by omega)
    omega

theorem times_length (hm : IsTime mtime) (ha : IsTime atime) :
    (Item.times mtime atime).bytes.length < BUFSIZ := by
  have hm := number_length hm
  have ha := number_length ha
  rw [Item.bytes, BUFSIZ]
  simp only [List.length_cons, List.length_append, List.length_nil]
  omega

theorem reads_times (hm : IsTime mtime) (ha : IsTime atime) (hnm : 0 ≤ mtime) (hna : 0 ≤ atime) :
    Reads (.times mtime atime) (.times mtime.toNat atime.toNat) :=
  reads_item ⟨hnm, hna, times_length hm ha⟩ rfl

theorem number_of_neg {t : Int} (ht : t < 0) : number t = 45 :: decimal t.natAbs := if_pos ht

theorem not_mem_number {b : UInt8} (hdigit : isDigit b = false) (hsign : b ≠ 45) (t : Int) :
    b ∉ number t := by
  rw [number]
  split
  · rw [List.mem_cons, not_or]
    exact ⟨hsign, not_mem_digits hdigit _⟩
  · exact not_mem_digits hdigit _

theorem reads_negative (hm : IsTime mtime) (ha : IsTime atime) (hneg : mtime < 0 ∨ atime < 0) :
    ∃ why, Reads (.times mtime atime) (.screwup why) ∧
      Readable (ascii "rcp: protocol screwup: " ++ why) := by
  obtain ⟨body, hbody⟩ : ∃ body, body = number mtime ++ 32 :: 48 :: 32 :: (number atime ++ [32, 48]) :=
    ⟨_, rfl⟩
  have hbytes : (Item.times mtime atime).bytes = 84 :: (body ++ [10]) := by
    rw [hbody]
    simp only [Item.bytes, List.append_assoc, List.cons_append, List.nil_append]
  have hnot {b : UInt8} (hdigit : isDigit b = false) (hsign : b ≠ 45) (hspace : b ≠ 32)
      (hzero : b ≠ 48) : b ∉ body := by
    rw [hbody]
    simp only [List.mem_append, List.mem_cons, not_or]
    exact ⟨not_mem_number hdigit hsign _, hspace, hzero, hspace, not_mem_number hdigit hsign _,
      hspace, hzero, List.not_mem_nil⟩
  have hlength : body.length + 2 < BUFSIZ := by
    have htimes := times_length hm ha
    rwa [hbytes, List.length_cons, List.length_append, List.length_singleton] at htimes
  have htake := takeRecord_line (c := 84) (by decide) (hnot rfl (by decide) (by decide) (by decide))
    hlength []
  rw [List.append_nil] at htake
  have hself : cstring (chomp (body ++ [10])) = body := by
    rw [chomp_line, cstring_eq_self (hnot rfl (by decide) (by decide) (by decide))]
  have hparse : parseRecord (84 :: (body ++ [10])) = parseTimes body := by
    rw [parseRecord, if_neg (by decide), if_neg (by decide), if_neg (by decide),
      if_neg (by decide), if_pos rfl, hself]
  have hreads {r : Record} (hr : parseTimes body = r) : Reads (.times mtime atime) r := by
    refine ⟨84 :: (body ++ [10]), ?_, hparse.trans hr⟩
    rw [hbytes]
    exact htake
  have hsign (rest : Bytes) : getnum (45 :: rest) (some 32) = none := rfl
  have hzero (rest : Bytes) : getnum (48 :: 32 :: rest) (some 32) = some (0, rest) := rfl
  by_cases hmneg : mtime < 0
  · refine ⟨ascii "mtime.sec not delimited", hreads ?_, by decide +kernel⟩
    rw [hbody, number_of_neg hmneg]
    unfold parseTimes
    rw [List.cons_append, hsign]
  · have haneg := hneg.resolve_left hmneg
    refine ⟨ascii "atime.sec not delimited", hreads ?_, by decide +kernel⟩
    rw [hbody, number_eq (Int.not_lt.mp hmneg), number_of_neg haneg]
    unfold parseTimes
    rw [getnum_decimal _ rfl]
    dsimp only
    rw [hzero]
    dsimp only
    rw [List.cons_append, hsign]

/-! ## Between the nodes -/

/-- The sink is about to read a record in the directory `targ`. -/
def Between (h : Host) (c : Copying) (p : Source Unit) (targ : Bytes) (fs : List Frame)
    (disk : Disk) (tv : List Int) : Prop :=
  ∃ f t size, f.targ = targ ∧ f.targisdir = true ∧ (f.setimes = true → h.pflag = true) ∧
    Stands c p ⟨f :: fs, .record⟩ ⟨disk, t :: tv, size⟩

def Announced (h : Host) (c : Copying) (p : Source Unit) (targ : Bytes) (fs : List Frame)
    (disk : Disk) (tv : List Int) (mtime : Int) : Prop :=
  ∃ f t size, f.targ = targ ∧ f.targisdir = true ∧ f.setimes = h.pflag ∧
    (h.pflag = true → t = mtime) ∧ Stands c p ⟨f :: fs, .record⟩ ⟨disk, t :: tv, size⟩

/-- It has ended, and the source has heard why. -/
def Dead (c : Copying) (disk : Disk) : Prop :=
  c.net.sink.mode = .ended ∧ c.net.up = [] ∧ c.world.disk = disk

theorem announced {rest : Source Unit} {k : Unit → Source Unit}
    (hc : Between h c (announce ⟨h.pflag, true⟩ mtime atime rest >>= k) targ fs disk tv)
    (hm : IsTime mtime) (ha : IsTime atime) (htimely : h.Timely mtime atime) :
    ∃ c', Leads h d c c' ∧ Announced h c' (rest >>= k) targ fs disk tv mtime := by
  obtain ⟨f, t, size, htarg, hdir, hset, hstands⟩ := hc
  cases hpflag : h.pflag with
  | false =>
    have hsource : announce ⟨h.pflag, true⟩ mtime atime rest = rest := by
      rw [announce, hpflag]
      rfl
    have hnot : f.setimes = h.pflag := by
      rw [hpflag, Bool.eq_false_iff]
      exact fun h => absurd ((hset h).symm.trans hpflag) Bool.false_ne_true.symm
    rw [hsource] at hstands
    refine ⟨c, Leads.refl c, f, t, size, htarg, hdir, hnot, fun h => ?_, hstands⟩
    exact absurd (h.symm.trans hpflag) Bool.false_ne_true.symm
  | true =>
    have hsource : announce ⟨h.pflag, true⟩ mtime atime rest >>= k =
        .tell (.times mtime atime) (.ask fun ok => (if ok then rest else pure ()) >>= k) := by
      rw [announce, hpflag]
      rfl
    obtain ⟨hnm, hna⟩ := htimely hpflag
    rw [hsource] at hstands
    obtain ⟨c', hleads, hstands'⟩ := record_told none (d := d) hstands
      (reads_times hm ha hnm hna) rfl rfl (fun _ h => absurd h (Option.not_mem_none _))
    have hmtime : ((mtime.toNat : ℕ) : Int) = mtime := Int.toNat_of_nonneg hnm
    refine ⟨c', hleads, { f.next with setimes := true }, mtime, size, htarg, hdir, ?_,
      fun _ => rfl, ?_⟩
    · exact hpflag.symm
    · rw [← hmtime]
      exact hstands'

theorem announced_negative {rest : Source Unit} {k : Unit → Source Unit}
    (hc : Between h c (announce ⟨h.pflag, true⟩ mtime atime rest >>= k) targ fs disk tv)
    (hm : IsTime mtime) (ha : IsTime atime) (htimely : ¬ h.Timely mtime atime) :
    ∃ c', Leads h d c c' ∧ Dead c' disk := by
  obtain ⟨f, t, size, -, -, -, hstands⟩ := hc
  obtain ⟨hpflag, hnot⟩ : h.pflag = true ∧ ¬ (0 ≤ mtime ∧ 0 ≤ atime) :=
    Classical.not_imp.mp htimely
  have hneg : mtime < 0 ∨ atime < 0 := by omega
  have hsource : announce ⟨h.pflag, true⟩ mtime atime rest >>= k =
      .tell (.times mtime atime) (.ask fun ok => (if ok then rest else pure ()) >>= k) := by
    rw [announce, hpflag]
    rfl
  rw [hsource] at hstands
  obtain ⟨reason, hreads, hreadable⟩ := reads_negative hm ha hneg
  obtain ⟨c', hleads, hstands'⟩ := record_told (some (ascii "rcp: protocol screwup: " ++ reason))
    (d := d) hstands hreads rfl rfl (fun text htext => Option.some.inj htext ▸ hreadable)
  refine ⟨c', hleads, ?_, hstands'.up, ?_⟩
  · rw [hstands'.sink]
    rfl
  · rw [hstands'.world]
    rfl

/-! ## Files -/

/-- The paths that go into the sink's messages have no newline. -/
structure Quotable (h : Host) (targ : Bytes) : Prop where
  newline : 10 ∉ targ ++ h.strerror
  nul : 0 ∉ targ ++ h.strerror
  targ : targ.length < MAXPATHLEN
  strerror : h.strerror.length ≤ 1024

theorem Quotable.fits (hq : Quotable h targ) {name : Bytes} (hname : FileName name) :
    Fits (joined targ name) h.strerror := by
  obtain ⟨hnewline, hnul, htarg, hstrerror⟩ := hq
  have hlength := hname.length
  rw [List.mem_append, not_or] at hnewline hnul
  rw [MAXPATHLEN] at htarg
  rw [joined]
  split
  · refine ⟨?_, ?_, ?_⟩
    · rw [List.mem_append, not_or]
      exact ⟨hname.newline, hnewline.2⟩
    · rw [List.mem_append, not_or]
      exact ⟨hname.nul, hnul.2⟩
    · rw [List.length_append, BUFSIZ]
      omega
  · refine ⟨?_, ?_, ?_⟩
    · simp only [List.mem_append, List.mem_cons, not_or]
      exact ⟨⟨hnewline.1, by decide, hname.newline⟩, hnewline.2⟩
    · simp only [List.mem_append, List.mem_cons, not_or]
      exact ⟨⟨hnul.1, by decide, hname.nul⟩, hnul.2⟩
    · rw [List.length_append, List.length_append, List.length_cons, BUFSIZ]
      omega

theorem Quotable.inside (hq : Quotable h targ) {name : Bytes} (hname : FileName name)
    (hlength : (joined targ name).length < MAXPATHLEN) : Quotable h (joined targ name) :=
  ⟨(hq.fits hname).newline, (hq.fits hname).nul, hlength, hq.strerror⟩

theorem np_eq (htarg : f.targ = targ) (hdir : f.targisdir = true) (name : Bytes) :
    f.np name = joined targ name := by
  rw [Frame.np, if_pos hdir, htarg, joined]

theorem file_plain (mode : Fin 4096) {sent : Bytes} (hsmall : sent.length < 2147483648)
    {name : Bytes} (hname : FileName name) : (Item.file mode sent.length name).Plain := by
  have hsize : (decimal sent.length).length ≤ 10 := decimal_length (by decide) (by omega)
  have hlength := hname.length
  refine ⟨hsmall, hname.newline, hname.nul, ?_⟩
  rw [Item.bytes, octal4, BUFSIZ]
  simp only [List.length_cons, List.length_append, List.length_nil]
  omega

theorem record_refused {next : Bool → Source Unit}
    (hc : Stands c (.tell i (.ask next)) ⟨f :: fs, .record⟩ ⟨disk, t :: tv, size⟩)
    (htarg : f.targ = targ) (hdir : f.targisdir = true) (hset : f.setimes = h.pflag)
    (hq : Quotable h targ) (hname : FileName (lastName path)) (hreads : Reads i r)
    (hturn : handle d (h.answers disk (f.about r) true size) f fs [] r = turn)
    (hsink : turn.sink = ⟨f.next :: fs, .record⟩)
    (hsaid : turn.said = [some (complaint (f.np (lastName path)) h.strerror)])
    (hworld : World.record h ⟨disk, t :: tv, size⟩ f fs r = ⟨disk, t :: tv, size⟩) :
    ∃ c', Leads h d c c' ∧ Between h c' (next false) targ fs disk tv := by
  obtain ⟨c', hleads, hstands⟩ := record_told
    (some (complaint (f.np (lastName path)) h.strerror)) (d := d) hc hreads hturn hsaid (by
      intro text htext
      obtain rfl := Option.some.inj htext
      rw [np_eq htarg hdir]
      exact readable_complaint (hq.fits hname))
  rw [hsink, hworld] at hstands
  exact ⟨c', hleads, f.next, t, size, htarg, hdir, fun h => hset ▸ h, hstands⟩

theorem file_refused {mode : Fin 4096} {sent : Bytes} {k : Unit → Source Unit}
    (hc : Announced h c (sendFile path mode none sent none >>= k) targ fs disk tv mtime)
    (hq : Quotable h targ) (hname : FileName (lastName path)) (hsmall : sent.length < 2147483648)
    (hnone : disk (resolve (joined targ (lastName path))) = none)
    (hcreates : ¬ h.creates disk (joined targ (lastName path)) = true) :
    ∃ c', Leads h d c c' ∧ Between h c' (k ()) targ fs disk tv := by
  obtain ⟨f, t, size, htarg, hdir, hset, -, hstands⟩ := hc
  have hopens : h.opens disk (f.np (lastName path)) = false := by
    rw [np_eq htarg hdir, opens_of_none hnone]
    exact Bool.eq_false_iff.mpr hcreates
  have hreads : Reads (.file mode sent.length (lastName path))
      (.file mode sent.length (lastName path)) := reads_item (file_plain mode hsmall hname) rfl
  apply record_refused hstands htarg hdir hset hq hname hreads
  · have hnot : (!(h.answers disk (f.np (lastName path)) true size).opens) = true := by
      rw [Host.answers, hopens]
      rfl
    exact if_pos hnot
  · rfl
  · rfl
  · dsimp only [World.record]
    rw [hopens, if_neg Bool.false_ne_true]

theorem status_told {np : Bytes} {size t : Int} {k : Unit → Source Unit}
    (hc : Stands c (.tell (.status none) (.ask fun _ => k ())) ⟨f :: fs, .truncate np .NO⟩
      ⟨disk, t :: tv, size⟩)
    (hsize : 0 ≤ size) (hfound : h.found disk np = true) (hthere : (disk (resolve np)).isSome) :
    ∃ c' f', Leads h d c c' ∧ f'.targ = f.targ ∧ f'.targisdir = f.targisdir ∧
      (f'.setimes = true → f.setimes = true) ∧ Stands c' (k ()) ⟨f' :: fs, .record⟩
        ⟨if f.setimes then (disk.change (resolve np) (Inode.truncate size.toNat)).change
            (resolve np) (Inode.touch t)
          else disk.change (resolve np) (Inode.truncate size.toNat), t :: tv, size⟩ := by
  obtain ⟨disk', hdisk'⟩ : ∃ disk', disk' = disk.change (resolve np) (Inode.truncate size.toNat) :=
    ⟨_, rfl⟩
  have htruncate : sinkStep d (World.env h ⟨disk, t :: tv, size⟩ [] ⟨f :: fs, .truncate np .NO⟩)
      false [] ⟨f :: fs, .truncate np .NO⟩ = some ⟨⟨f :: fs, .status np .NO⟩, [], none, []⟩ :=
    if_pos (decide_eq_true hsize)
  have hafter : World.after h ⟨disk, t :: tv, size⟩ [] ⟨f :: fs, .truncate np .NO⟩ =
      ⟨disk', t :: tv, size⟩ := by
    rw [hdisk']
    exact if_pos hsize
  obtain ⟨c1, hleads1, hc1⟩ := goes hc htruncate rfl rfl
  rw [hafter] at hc1
  have hstat : (h.stat disk' np).isSome = true := by
    rw [hdisk', stat_of_found ((found_change np _).trans hfound), change_self, Option.isSome_map,
      Option.isSome_map]
    exact hthere
  rw [← hdisk']
  cases hset : f.setimes with
  | true =>
    have hstep : sinkStep d (World.env h ⟨disk', t :: tv, size⟩ (Item.status none).bytes
        ⟨f :: fs, .status np .NO⟩) false (Item.status none).bytes ⟨f :: fs, .status np .NO⟩ =
        some ⟨⟨{ f with setimes := false } :: fs, .record⟩, [], some (.status none), [none]⟩ := by
      change some (finishFile _ f fs np .NO [] none) = _
      rw [finishFile, if_pos ⟨hset, rfl⟩]
      change some (SinkTurn.mk _ _ _ [if (h.stat disk' np).isSome = true then _ else _]) = _
      rw [if_pos hstat]
    have hlast : World.after h ⟨disk', t :: tv, size⟩ (Item.status none).bytes
        ⟨f :: fs, .status np .NO⟩ =
          ⟨disk'.change (resolve np) (Inode.touch t), t :: tv, size⟩ := if_pos ⟨hset, rfl⟩
    obtain ⟨c2, hleads2, hc2⟩ := told_heard none hc1 hstep rfl rfl
      (fun _ h => absurd h (Option.not_mem_none _))
    rw [hlast] at hc2
    exact ⟨c2, { f with setimes := false }, hleads1.trans hleads2, rfl, rfl, fun _ => rfl, hc2⟩
  | false =>
    have hnot : ¬ (f.setimes = true ∧ Wrerr.NO = .NO) := by
      rintro ⟨h, -⟩
      exact absurd (hset.symm.trans h) Bool.false_ne_true
    have hstep : sinkStep d (World.env h ⟨disk', t :: tv, size⟩ (Item.status none).bytes
        ⟨f :: fs, .status np .NO⟩) false (Item.status none).bytes ⟨f :: fs, .status np .NO⟩ =
        some ⟨⟨f :: fs, .record⟩, [], some (.status none), [none]⟩ := by
      change some (finishFile _ f fs np .NO [] none) = _
      rw [finishFile, if_neg hnot]
    have hlast : World.after h ⟨disk', t :: tv, size⟩ (Item.status none).bytes
        ⟨f :: fs, .status np .NO⟩ = ⟨disk', t :: tv, size⟩ := if_neg hnot
    obtain ⟨c2, hleads2, hc2⟩ := told_heard none hc1 hstep rfl rfl
      (fun _ h => absurd h (Option.not_mem_none _))
    rw [hlast] at hc2
    refine ⟨c2, f, hleads1.trans hleads2, rfl, rfl, fun h => ?_, hc2⟩
    exact absurd (hset.symm.trans h) Bool.false_ne_true

theorem body_told {np sent : Bytes} {t : Int} {m : ℕ} {next : Source Unit}
    (hup : resolve np ≠ (resolve np).up)
    (hc : Stands c (if sent = [] then next else .tell (.body sent) next)
      ⟨f :: fs, if sent = [] then .truncate np .NO else .body np sent.length⟩
      ⟨h.make disk (resolve np) (.file m h.now []), t :: tv, sent.length⟩) :
    ∃ c', Leads h d c c' ∧ Stands c' next ⟨f :: fs, .truncate np .NO⟩
      ⟨h.make disk (resolve np) (.file m h.now sent), t :: tv, sent.length⟩ := by
  by_cases hsent : sent = []
  · subst hsent
    exact ⟨c, Leads.refl c, hc⟩
  · rw [if_neg hsent, if_neg hsent] at hc
    obtain ⟨w, hw⟩ : ∃ w : World,
        w = ⟨h.make disk (resolve np) (.file m h.now []), t :: tv, sent.length⟩ := ⟨_, rfl⟩
    rw [← hw] at hc
    have hstep : sinkStep d (w.env h sent ⟨f :: fs, .body np sent.length⟩) false sent
        ⟨f :: fs, .body np sent.length⟩ = some ⟨⟨f :: fs, .truncate np .NO⟩,
          sent.drop sent.length, some (.body (sent.take sent.length)), []⟩ :=
      if_pos (Nat.le_refl _)
    have hafter : w.after h sent ⟨f :: fs, .body np sent.length⟩ =
        ⟨h.make disk (resolve np) (.file m h.now sent), t :: tv, sent.length⟩ := by
      refine (if_pos (Nat.le_refl _)).trans ?_
      rw [hw, List.take_length]
      dsimp only
      rw [make_change hup, Inode.write, List.drop_nil, List.append_nil]
    obtain ⟨c', hleads, hc'⟩ := told hc hstep List.drop_length rfl
    rw [show (Item.body sent).bytes = sent from rfl, hafter] at hc'
    exact ⟨c', hleads, hc'⟩

theorem file_accepted {mode : Fin 4096} {sent : Bytes} {k : Unit → Source Unit}
    (hc : Announced h c (sendFile path mode none sent none >>= k) targ fs disk tv mtime)
    (hname : FileName (lastName path)) (hsmall : sent.length < 2147483648)
    (hnone : disk (resolve (joined targ (lastName path))) = none)
    (hcreates : h.creates disk (joined targ (lastName path)) = true) :
    ∃ c', Leads h d c c' ∧ Between h c' (k ()) targ fs
      (h.make disk (resolve (joined targ (lastName path)))
        (.file (h.created mode) (if h.pflag then mtime else h.now) sent)) tv := by
  obtain ⟨f, t, size, htarg, hdir, hset, htime, hstands⟩ := hc
  obtain ⟨np, hnp⟩ : ∃ np, np = joined targ (lastName path) := ⟨_, rfl⟩
  have hfnp : f.np (lastName path) = np := (np_eq htarg hdir _).trans hnp.symm
  rw [← hnp] at hnone hcreates ⊢
  have hup : resolve np ≠ (resolve np).up := by
    rw [hnp, resolve_joined hname]
    exact entry_ne_up _ _
  have hopens : h.opens disk np = true := (opens_of_none hnone).trans hcreates
  have hreads : Reads (.file mode sent.length (lastName path))
      (.file mode sent.length (lastName path)) := reads_item (file_plain mode hsmall hname) rfl
  have hturn : handle d (h.answers disk (f.about (.file mode sent.length (lastName path))) true size)
      f fs [] (.file mode sent.length (lastName path)) =
        ⟨⟨f.next :: fs, if sent = [] then .truncate np .NO else .body np sent.length⟩, [],
          some (.file (Fin.ofNat 4096 mode) (sent.length : Int).toNat (lastName path)),
          [none]⟩ := by
    have hyes : ¬ (!(h.answers disk (f.about (.file mode sent.length (lastName path))) true
        size).opens) = true := by
      change ¬ (!(h.opens disk (f.np (lastName path)))) = true
      rw [hfnp, hopens]
      exact Bool.false_ne_true
    rw [handle, acceptFile, if_neg hyes]
    dsimp only [Host.answers]
    rw [hfnp, Int.toNat_natCast]
    by_cases hsent : sent = []
    · have hzero := List.length_eq_zero_iff.mpr hsent
      rw [if_pos hsent, if_pos (by omega)]
    · have hpos := List.length_pos_iff.mpr hsent
      rw [if_neg hsent, if_neg (by omega)]
  have hworld : World.record h ⟨disk, t :: tv, size⟩ f fs (.file mode sent.length (lastName path)) =
      ⟨h.make disk (resolve np) (.file (h.created mode) h.now []), t :: tv, sent.length⟩ := by
    dsimp only [World.record]
    rw [hfnp, if_pos hopens, if_pos (Option.isNone_iff_eq_none.mpr hnone)]
  obtain ⟨c1, hleads1, hc1⟩ := record_told none (d := d) hstands hreads hturn rfl
    (fun _ h => absurd h (Option.not_mem_none _))
  rw [hworld] at hc1
  have hsource : (sendBody path none sent none >>= k) =
      if sent = [] then .tell (.status none) (.ask fun _ => k ())
      else .tell (.body sent) (.tell (.status none) (.ask fun _ => k ())) := by
    rw [sendBody]
    split
    · rfl
    · rfl
  have hc1' : Stands c1 (sendBody path none sent none >>= k) _ _ := hc1
  rw [hsource] at hc1'
  obtain ⟨c2, hleads2, hc2⟩ := body_told (d := d) hup hc1'
  have hfound : h.found (h.make disk (resolve np) (.file (h.created mode) h.now sent)) np = true :=
    (found_make hup).trans (creates_eq_true.mp hcreates).1
  have hthere : (h.make disk (resolve np) (.file (h.created mode) h.now sent)
      (resolve np)).isSome := by
    rw [make_self hup]
    rfl
  obtain ⟨c3, f', hleads3, htarg', hdir', hset', hc3⟩ :=
    status_told (d := d) hc2 (Int.natCast_nonneg _) hfound hthere
  have htruncate : Inode.truncate (sent.length : Int).toNat (.file (h.created mode) h.now sent) =
      .file (h.created mode) h.now sent := by
    rw [Inode.truncate, Int.toNat_natCast, List.take_length, Nat.sub_self, List.replicate_zero,
      List.append_nil]
  rw [make_change hup, htruncate, make_change hup, show f.next.setimes = h.pflag from hset] at hc3
  have hdisk : (if h.pflag = true then
      h.make disk (resolve np) (Inode.touch t (.file (h.created mode) h.now sent))
      else h.make disk (resolve np) (.file (h.created mode) h.now sent)) =
        h.make disk (resolve np) (.file (h.created mode) (if h.pflag then mtime else h.now) sent) := by
    by_cases hpflag : h.pflag = true
    · rw [if_pos hpflag, if_pos hpflag, htime hpflag]
      rfl
    · rw [if_neg hpflag, if_neg hpflag]
  rw [hdisk] at hc3
  exact ⟨c3, (hleads1.trans hleads2).trans hleads3, f', t, sent.length, htarg'.trans htarg,
    hdir'.trans hdir, fun hset'' => hset ▸ hset' hset'', hc3⟩

/-! ## Directories -/

theorem directory_plain (mode : Fin 4096) {name : Bytes} (hname : FileName name) :
    (Item.directory mode name).Plain := by
  have hlength := hname.length
  refine ⟨hname.newline, hname.nul, ?_⟩
  rw [Item.bytes, octal4, BUFSIZ]
  simp only [List.length_cons, List.length_append, List.length_nil]
  omega

/-- What `rsource` does behind the times. -/
def sendDirectory (path : Bytes) (mode : Fin 4096) (entries : Source Unit) : Source Unit := do
  Program.say (.directory mode (lastName path))
  let ok ← Program.hear
  if ok then do
    entries
    leaveDirectory
  else pure ()

theorem acceptDirectory_new {env : SinkEnv} (hexisting : env.existing = none) (mode : ℕ)
    (name rest : Bytes) : acceptDirectory d env f fs mode name rest =
      if env.mkdir then
        enterSink d env (f.np name) (f :: fs) rest (some (.directory (Fin.ofNat 4096 mode) name))
      else
        ⟨⟨f.next :: fs, .record⟩, rest, some (.directory (Fin.ofNat 4096 mode) name),
          [some (complaint (f.np name) env.strerror)]⟩ := by
  obtain ⟨verified, isDirectory, existing, mkdir, opens, buffer, writes, ftruncate, utimes, strerror⟩ :=
    env
  dsimp only at hexisting
  subst hexisting
  rfl

theorem directory_refused {mode : Fin 4096} {entries : Source Unit} {k : Unit → Source Unit}
    (hc : Announced h c (sendDirectory path mode entries >>= k) targ fs disk tv mtime)
    (hq : Quotable h targ) (hname : FileName (lastName path))
    (hnone : disk (resolve (joined targ (lastName path))) = none)
    (hcreates : ¬ h.creates disk (joined targ (lastName path)) = true) :
    ∃ c', Leads h d c c' ∧ Between h c' (k ()) targ fs disk tv := by
  obtain ⟨f, t, size, htarg, hdir, hset, -, hstands⟩ := hc
  have hnp := np_eq htarg hdir (lastName path)
  have hstat : h.stat disk (f.np (lastName path)) = none := by
    rw [hnp]
    exact stat_of_none hnone
  have hnot : h.creates disk (f.np (lastName path)) = false := by
    rw [hnp]
    exact Bool.eq_false_iff.mpr hcreates
  have hreads : Reads (.directory mode (lastName path)) (.directory mode (lastName path)) :=
    reads_item (directory_plain mode hname) rfl
  apply record_refused hstands htarg hdir hset hq hname hreads
  · have hmkdir : ¬ (h.answers disk (f.np (lastName path)) true size).mkdir = true :=
      Bool.eq_false_iff.mp hnot
    exact (acceptDirectory_new hstat _ _ _).trans (if_neg hmkdir)
  · rfl
  · rfl
  · dsimp only [World.record]
    rw [hstat, hnot]
    rfl

theorem directory_entered {mode : Fin 4096} {entries : Source Unit} {k : Unit → Source Unit}
    (hc : Announced h c (sendDirectory path mode entries >>= k) targ fs disk tv mtime)
    (hname : FileName (lastName path))
    (hnone : disk (resolve (joined targ (lastName path))) = none)
    (hcreates : h.creates disk (joined targ (lastName path)) = true) :
    ∃ c' f t, Leads h d c c' ∧ f.targ = targ ∧ f.targisdir = true ∧ f.setimes = h.pflag ∧
      (h.pflag = true → t = mtime) ∧
      Between h c' (entries >>= fun _ => leaveDirectory >>= k) (joined targ (lastName path))
        (f :: fs) (h.make disk (resolve (joined targ (lastName path)))
          (.directory (h.created mode) h.now)) (t :: tv) := by
  obtain ⟨f, t, size, htarg, hdir, hset, htime, hstands⟩ := hc
  obtain ⟨np, hnp⟩ : ∃ np, np = joined targ (lastName path) := ⟨_, rfl⟩
  have hfnp : f.np (lastName path) = np := (np_eq htarg hdir _).trans hnp.symm
  rw [← hnp] at hnone hcreates ⊢
  have hreads : Reads (.directory mode (lastName path)) (.directory mode (lastName path)) :=
    reads_item (directory_plain mode hname) rfl
  have hstat : h.stat disk np = none := stat_of_none hnone
  have hturn : handle d (h.answers disk (f.about (.directory mode (lastName path))) true size)
      f fs [] (.directory mode (lastName path)) =
        ⟨⟨⟨np, true, false, true⟩ :: f :: fs, .record⟩, [],
          some (.directory (Fin.ofNat 4096 mode) (lastName path)), [none]⟩ := by
    have hmkdir : (h.answers disk np true size).mkdir = true := hcreates
    have hdirectory : (h.answers disk np true size).isDirectory = true := by
      dsimp only [Host.answers]
      rw [hcreates]
      exact Bool.or_true _
    have hverified : ¬ (d = true ∧ (!(h.answers disk np true size).verified) = true) := by
      rintro ⟨-, hno⟩
      rw [show (h.answers disk np true size).verified = true from hdirectory] at hno
      exact Bool.false_ne_true hno
    rw [handle, Frame.about, hfnp, acceptDirectory_new hstat, if_pos hmkdir, hfnp, enterSink,
      if_neg hverified, hdirectory]
  have hworld : World.record h ⟨disk, t :: tv, size⟩ f fs (.directory mode (lastName path)) =
      ⟨h.make disk (resolve np) (.directory (h.created mode) h.now), 0 :: t :: tv, size⟩ := by
    dsimp only [World.record]
    rw [hfnp, hstat]
    dsimp only
    rw [if_pos hcreates]
  obtain ⟨c', hleads, hstands'⟩ := record_told none (d := d) hstands hreads hturn rfl
    (fun _ h => absurd h (Option.not_mem_none _))
  rw [hworld] at hstands'
  have hsource : (entries >>= fun _ => leaveDirectory) >>= k =
      entries >>= fun _ => leaveDirectory >>= k := Program.bind_assoc _ _ _
  have hstands'' : Stands c' ((entries >>= fun _ => leaveDirectory) >>= k) _ _ := hstands'
  rw [hsource] at hstands''
  exact ⟨c', f, t, hleads, htarg, hdir, hset, htime, _, 0, size, rfl, rfl, fun h => absurd h
    Bool.false_ne_true, hstands''⟩

theorem directory_left {np : Bytes} {f : Frame} {t : Int} {k : Unit → Source Unit}
    (hc : Between h c (leaveDirectory >>= k) np (f :: fs) disk (t :: tv))
    (htarg : f.targ = targ) (hdir : f.targisdir = true) (hset : f.setimes = h.pflag)
    (hstat : (h.stat disk np).isSome = true) :
    ∃ c', Leads h d c c' ∧ Between h c' (k ()) targ fs
      (if h.pflag then disk.change (resolve np) (Inode.touch t) else disk) tv := by
  obtain ⟨g, t', size, hnp, -, -, hstands⟩ := hc
  have hreads : Reads .leave .leave := reads_item trivial rfl
  obtain ⟨w, hw⟩ : ∃ w : World, w = ⟨disk, t' :: t :: tv, size⟩ := ⟨_, rfl⟩
  rw [← hw] at hstands
  have hutimes : (h.answers w.disk (g.about .leave) true w.size).utimes = true := by
    rw [hw]
    change (h.stat disk g.targ).isSome = true
    rw [hnp]
    exact hstat
  cases hpflag : h.pflag with
  | true =>
    have hturn : handle d (h.answers w.disk (g.about .leave) true w.size) g (f :: fs) [] .leave =
        ⟨⟨{ f.next with setimes := false } :: fs, .record⟩, [], some .leave, [none]⟩ := by
      rw [handle, leaveSink, if_pos (hset.trans hpflag), if_pos hutimes]
    obtain ⟨c', hleads, hstands'⟩ := record_told none (d := d) hstands hreads hturn rfl
      (fun _ h => absurd h (Option.not_mem_none _))
    have hworld : w.record h g (f :: fs) .leave =
        ⟨disk.change (resolve np) (Inode.touch t), t :: tv, size⟩ := by
      dsimp only [World.record]
      rw [if_pos (hset.trans hpflag), hw, hnp]
      rfl
    rw [hworld] at hstands'
    exact ⟨c', hleads, { f.next with setimes := false }, t, size, htarg, hdir,
      fun h => absurd h Bool.false_ne_true, hstands'⟩
  | false =>
    have hnot : ¬ f.setimes = true := by
      rw [hset, hpflag]
      exact Bool.false_ne_true
    have hturn : handle d (h.answers w.disk (g.about .leave) true w.size) g (f :: fs) [] .leave =
        ⟨⟨f.next :: fs, .record⟩, [], some .leave, [none]⟩ := by
      rw [handle, leaveSink, if_neg hnot]
    obtain ⟨c', hleads, hstands'⟩ := record_told none (d := d) hstands hreads hturn rfl
      (fun _ h => absurd h (Option.not_mem_none _))
    have hworld : w.record h g (f :: fs) .leave = ⟨disk, t :: tv, size⟩ := by
      dsimp only [World.record]
      rw [if_neg hnot, hw]
      rfl
    rw [hworld] at hstands'
    exact ⟨c', hleads, f.next, t, size, htarg, hdir, fun h => absurd h hnot, hstands'⟩

/-! ## Trees -/

/-- A path that goes into the source's messages. -/
structure SourcePath (path : Bytes) : Prop where
  newline : 10 ∉ path
  nul : 0 ∉ path
  length : path.length < MAXPATHLEN

def Arrives (h : Host) (c : Copying) (p : Source Unit) (targ : Bytes) (fs : List Frame)
    (tv : List Int) (i : Installed) : Prop :=
  (i.alive = true → Between h c p targ fs i.disk tv) ∧ (i.alive = false → Dead c i.disk)

theorem arrives_alive {p : Source Unit} (hc : Between h c p targ fs disk tv) :
    Arrives h c p targ fs tv ⟨disk, true⟩ :=
  ⟨fun _ => hc, fun h => absurd h.symm Bool.false_ne_true⟩

theorem arrives_dead {p : Source Unit} (hc : Dead c disk) :
    Arrives h c p targ fs tv ⟨disk, false⟩ :=
  ⟨fun h => absurd h Bool.false_ne_true, fun _ => hc⟩

theorem file_installs {mode : Fin 4096} {sent : Bytes} {k : Unit → Source Unit}
    (hm : IsTime mtime) (ha : IsTime atime) (hsmall : sent.length < 2147483648)
    (hname : FileName (lastName path)) (hq : Quotable h targ)
    (hawaits : Awaits h targ disk [lastName path])
    (hc : Between h c (source ⟨h.pflag, true⟩ path (.file mtime atime mode none sent none) >>= k)
      targ fs disk tv) :
    ∃ c', Leads h d c c' ∧ Arrives h c' (k ()) targ fs tv
      ((Node.file mtime atime mode none sent none).install h targ path disk) := by
  have hnone : disk (resolve (joined targ (lastName path))) = none := by
    rw [resolve_joined hname]
    exact hawaits.none List.mem_cons_self
  rw [source] at hc
  dsimp only [Node.install]
  by_cases htimely : h.Timely mtime atime
  · rw [if_neg (not_not.mpr htimely)]
    obtain ⟨c1, hleads1, hc1⟩ := announced (d := d) hc hm ha htimely
    by_cases hcreates : h.creates disk (joined targ (lastName path)) = true
    · rw [if_pos hcreates]
      obtain ⟨c2, hleads2, hc2⟩ := file_accepted (d := d) hc1 hname hsmall hnone hcreates
      exact ⟨c2, hleads1.trans hleads2, arrives_alive hc2⟩
    · rw [if_neg hcreates]
      obtain ⟨c2, hleads2, hc2⟩ := file_refused (d := d) hc1 hq hname hsmall hnone hcreates
      exact ⟨c2, hleads1.trans hleads2, arrives_alive hc2⟩
  · rw [if_pos htimely]
    obtain ⟨c1, hleads1, hc1⟩ := announced_negative (d := d) hc hm ha htimely
    exact ⟨c1, hleads1, arrives_dead hc1⟩

theorem stat_inside {np : Bytes} {names : List Bytes} {m : ℕ} (hup : resolve np ≠ (resolve np).up)
    (hcreates : h.creates disk np = true) {disk' : Disk}
    (htouches : Touches (resolve np) names
      (h.make disk (resolve np) (.directory m h.now)) disk') :
    (h.stat disk' np).isSome = true := by
  have hfound : h.found disk' np = true := by
    rw [Host.found, htouches.searchable]
    exact (found_make hup).trans (creates_eq_true.mp hcreates).1
  have hself := congrArg Option.isSome htouches.self
  rw [make_self hup, Option.isSome_map] at hself
  rw [stat_of_found hfound, Option.isSome_map, hself]
  rfl

/-- `hinside` says that the entries are installed. -/
theorem directory_installs {mode : Fin 4096} {entries : Entries} {k : Unit → Source Unit}
    (hm : IsTime mtime) (ha : IsTime atime) (htree : entries.Tree)
    (hname : FileName (lastName path)) (hq : Quotable h targ)
    (hawaits : Awaits h targ disk [lastName path])
    (hinside : ∀ c f fs disk tv, Quotable h (joined targ (lastName path)) →
      Awaits h (joined targ (lastName path)) disk entries.names →
      Between h c (sourceEntries ⟨h.pflag, true⟩ path entries >>= fun _ => leaveDirectory >>= k)
        (joined targ (lastName path)) (f :: fs) disk tv →
      ∃ c', Leads h d c c' ∧ Arrives h c' (leaveDirectory >>= k) (joined targ (lastName path))
        (f :: fs) tv (entries.install h (joined targ (lastName path)) path disk))
    (hc : Between h c (source ⟨h.pflag, true⟩ path (.directory mtime atime mode none entries) >>= k)
      targ fs disk tv) :
    ∃ c', Leads h d c c' ∧ Arrives h c' (k ()) targ fs tv
      ((Node.directory mtime atime mode none entries).install h targ path disk) := by
  obtain ⟨np, hnp⟩ : ∃ np, np = joined targ (lastName path) := ⟨_, rfl⟩
  have hup : resolve np ≠ (resolve np).up := by
    rw [hnp, resolve_joined hname]
    exact entry_ne_up _ _
  have hnone : disk (resolve np) = none := by
    rw [hnp, resolve_joined hname]
    exact hawaits.none List.mem_cons_self
  have hsource : source ⟨h.pflag, true⟩ path (.directory mtime atime mode none entries) =
      announce ⟨h.pflag, true⟩ mtime atime
        (sendDirectory path mode (sourceEntries ⟨h.pflag, true⟩ path entries)) := by
    rw [source, if_pos rfl]
    rfl
  rw [hsource] at hc
  dsimp only [Node.install]
  rw [← hnp] at hinside ⊢
  by_cases htimely : h.Timely mtime atime
  · rw [if_neg (not_not.mpr htimely)]
    obtain ⟨c1, hleads1, hc1⟩ := announced (d := d) hc hm ha htimely
    by_cases hcreates : h.creates disk np = true
    · rw [if_pos hcreates]
      have hentered := directory_entered (d := d) hc1 hname (hnp ▸ hnone) (hnp ▸ hcreates)
      rw [← hnp] at hentered
      obtain ⟨c2, f, t, hleads2, htarg, hdir, hset, htime, hc2⟩ := hentered
      obtain ⟨hlength, hsix, -⟩ := (creates_entry hname hawaits.root hawaits.searchable
        (hawaits.none List.mem_cons_self)).mp (hnp ▸ hcreates)
      have hin := awaits_inside (h.created mode) hname hawaits hsix entries.names
      rw [← resolve_joined hname, ← hnp] at hin
      have hquotable : Quotable h np := hnp ▸ hq.inside hname hlength
      obtain ⟨c3, hleads3, halive, hdead⟩ := hinside c2 f fs _ _ hquotable hin hc2
      have htouches := Entries.install_touches (h := h) entries htree np path
        (h.make disk (resolve np) (.directory (h.created mode) h.now))
      generalize entries.install h np path
        (h.make disk (resolve np) (.directory (h.created mode) h.now)) = inside
        at halive hdead htouches ⊢
      have hleads := (hleads1.trans hleads2).trans hleads3
      cases hgoes : inside.alive with
      | true =>
        obtain ⟨c4, hleads4, hc4⟩ := directory_left (d := d) (halive hgoes) htarg hdir hset
          (stat_inside hup hcreates htouches)
        refine ⟨c4, hleads.trans hleads4, ?_⟩
        by_cases hpflag : h.pflag = true
        · rw [if_pos hpflag, htime hpflag] at hc4
          rw [if_pos ⟨rfl, hpflag⟩]
          exact arrives_alive hc4
        · rw [if_neg hpflag] at hc4
          rw [if_neg (fun hboth => hpflag hboth.2)]
          exact ⟨fun _ => hc4, fun h => absurd (hgoes.symm.trans h).symm Bool.false_ne_true⟩
      | false =>
        rw [if_neg (fun hboth => Bool.false_ne_true hboth.1)]
        exact ⟨c3, hleads, fun h => absurd (hgoes.symm.trans h) Bool.false_ne_true,
          fun _ => hdead hgoes⟩
    · rw [if_neg hcreates]
      obtain ⟨c2, hleads2, hc2⟩ := directory_refused (d := d) hc1 hq hname (hnp ▸ hnone)
        (hnp ▸ hcreates)
      exact ⟨c2, hleads1.trans hleads2, arrives_alive hc2⟩
  · rw [if_pos htimely]
    obtain ⟨c1, hleads1, hc1⟩ := announced_negative (d := d) hc hm ha htimely
    exact ⟨c1, hleads1, arrives_dead hc1⟩

theorem note_told {text : Bytes} {next : Source Unit} (htext : Readable text)
    (hc : Between h c (.tell (.note text) next) targ fs disk tv) :
    ∃ c', Leads h d c c' ∧ Between h c' next targ fs disk tv := by
  obtain ⟨f, t, size, htarg, hdir, hset, hstands⟩ := hc
  have hreads : Reads (.note text) (.note text) := reads_item htext rfl
  obtain ⟨hstep, hafter⟩ : _ ∧
      World.after h ⟨disk, t :: tv, size⟩ (Item.note text).bytes ⟨f :: fs, .record⟩ =
        World.record h ⟨disk, t :: tv, size⟩ f fs (.note text) := record_turn (d := d) hreads
  obtain ⟨c', hleads, hstands'⟩ := told hstands hstep rfl rfl
  rw [hafter] at hstands'
  exact ⟨c', hleads, f.next, t, size, htarg, hdir, hset, hstands'⟩

theorem readable_tooLong (hpath : SourcePath path) {name : Bytes} (hname : FileName name) :
    Readable (path ++ 47 :: (name ++ ascii ": name too long.")) := by
  have hlength := hname.length
  have hpathLength := hpath.length
  refine ⟨?_, ?_, ?_⟩
  · simp only [List.mem_append, List.mem_cons, not_or]
    exact ⟨hpath.newline, by decide, hname.newline, by decide⟩
  · simp only [List.mem_append, List.mem_cons, not_or]
    exact ⟨hpath.nul, by decide, hname.nul, by decide⟩
  · have htext : (ascii ": name too long.").length = 16 := rfl
    rw [MAXPATHLEN] at hpathLength
    rw [List.length_append, List.length_cons, List.length_append, htext, BUFSIZ]
    omega

theorem SourcePath.inside (hpath : SourcePath path) {name : Bytes} (hname : FileName name)
    (hlength : ¬ MAXPATHLEN - 1 ≤ path.length + 1 + name.length) :
    SourcePath (path ++ 47 :: name) := by
  refine ⟨?_, ?_, ?_⟩
  · simp only [List.mem_append, List.mem_cons, not_or]
    exact ⟨hpath.newline, by decide, hname.newline⟩
  · simp only [List.mem_append, List.mem_cons, not_or]
    exact ⟨hpath.nul, by decide, hname.nul⟩
  · rw [List.length_append, List.length_cons]
    omega

mutual

theorem Node.installs : (node : Node) → node.Tree → node.Small → ∀ path targ fs disk tv c k,
    SourcePath path → FileName (lastName path) → Quotable h targ →
    Awaits h targ disk [lastName path] →
    Between h c (source ⟨h.pflag, true⟩ path node >>= k) targ fs disk tv →
      ∃ c', Leads h d c c' ∧ Arrives h c' (k ()) targ fs tv (node.install h targ path disk)
  | .file mtime atime mode buffer sent readerr, htree, hsmall, path, targ, fs, disk, tv, c, k, _,
      hname, hq, hawaits, hc => by
    obtain ⟨hm, ha, rfl, rfl, -⟩ := htree
    exact file_installs hm ha hsmall hname hq hawaits hc
  | .directory mtime atime mode opendir entries, htree, hsmall, path, targ, fs, disk, tv, c, k,
      hpath, hname, hq, hawaits, hc => by
    obtain ⟨hm, ha, rfl, hentries⟩ := htree
    exact directory_installs hm ha hentries hname hq hawaits
      (fun c f fs disk tv hq hawaits hc => Entries.installs entries hentries hsmall path _ (f :: fs)
        disk tv c (fun _ => leaveDirectory >>= k) hpath hq hawaits hc) hc
  | .unopened _, htree, _, _, _, _, _, _, _, _, _, _, _, _, _ => htree.elim
  | .special, htree, _, _, _, _, _, _, _, _, _, _, _, _, _ => htree.elim

theorem Entries.installs : (entries : Entries) → entries.Tree → entries.Small →
    ∀ path targ fs disk tv c k, SourcePath path → Quotable h targ →
    Awaits h targ disk entries.names →
    Between h c (sourceEntries ⟨h.pflag, true⟩ path entries >>= k) targ fs disk tv →
      ∃ c', Leads h d c c' ∧ Arrives h c' (k ()) targ fs tv (entries.install h targ path disk)
  | .nil, _, _, _, _, _, _, _, c, _, _, _, _, hc => ⟨c, Leads.refl c, arrives_alive hc⟩
  | .cons name node rest, htree, hsmall, path, targ, fs, disk, tv, c, k, hpath, hq, hawaits,
      hc => by
    obtain ⟨hname, hfresh, hnode, hrest⟩ := htree
    have hlast := lastName_join path hname
    have hawaitsRest {disk' : Disk} (htouches : Touches (resolve targ) [name] disk disk') :
        Awaits h targ disk' rest.names := hawaits.rest hfresh htouches
    dsimp only [Entries.install]
    rw [sourceEntries] at hc
    by_cases hlong : MAXPATHLEN - 1 ≤ path.length + 1 + name.length
    · rw [if_pos hlong] at hc ⊢
      rw [if_pos rfl]
      obtain ⟨c1, hleads1, hc1⟩ := note_told (d := d) (readable_tooLong hpath hname) hc
      obtain ⟨c2, hleads2, hc2⟩ := Entries.installs rest hrest hsmall.2 path targ fs disk tv c1 k
        hpath hq (hawaitsRest (Touches.refl _ _ _)) hc1
      exact ⟨c2, hleads1.trans hleads2, hc2⟩
    · rw [if_neg hlong] at hc ⊢
      rw [Program.bind_assoc] at hc
      have hnamed : FileName (lastName (path ++ 47 :: name)) := hlast.symm ▸ hname
      have hone : Awaits h targ disk [lastName (path ++ 47 :: name)] := by
        refine ⟨hawaits.root, hawaits.searchable, fun c hc => hawaits.absent c ?_⟩
        rw [List.mem_singleton.mp hc, hlast]
        exact List.mem_cons_self
      have htouches := Node.install_touches (h := h) node hnode targ (path ++ 47 :: name) disk hnamed
      rw [hlast] at htouches
      obtain ⟨c1, hleads1, halive, hdead⟩ := Node.installs node hnode hsmall.1 (path ++ 47 :: name)
        targ fs disk tv c (fun _ => sourceEntries ⟨h.pflag, true⟩ path rest >>= k)
        (hpath.inside hname hlong) hnamed hq hone hc
      cases hgoes : (node.install h targ (path ++ 47 :: name) disk).alive with
      | true =>
        rw [if_pos rfl]
        obtain ⟨c2, hleads2, hc2⟩ := Entries.installs rest hrest hsmall.2 path targ fs _ tv c1 k
          hpath hq (hawaitsRest htouches) (halive hgoes)
        exact ⟨c2, hleads1.trans hleads2, hc2⟩
      | false =>
        rw [if_neg Bool.false_ne_true]
        exact ⟨c1, hleads1, fun h => absurd (hgoes.symm.trans h) Bool.false_ne_true,
          fun _ => hdead hgoes⟩

end

/-! ## From the beginning to the end -/

def Final (h : Host) (d : Bool) (c : Copying) : Prop := ∀ side, copyStep h d c side = none

theorem final_of_ended (hsource : c.net.source = .done ()) (hsink : c.net.sink.mode = .ended) :
    Final h d c := by
  intro side
  cases side with
  | source => rw [copyStep, sourceStep, hsource, Option.map_none]
  | sink =>
    obtain ⟨⟨source, ⟨stack, mode⟩, down, up, written, read, said, heard, answers, asks⟩, world⟩ := c
    dsimp only at hsink
    subst hsink
    cases stack with
    | _ => rfl

/-- When the sink has ended, the source does so when it waits for the next response. -/
theorem dead_ends {p : Source Unit} (hsource : c.net.source = p) (hc : Dead c disk) :
    ∃ c', Leads h d c c' ∧ Final h d c' ∧ c'.world.disk = disk := by
  induction p generalizing c with
  | done a => exact ⟨c, Leads.refl c, final_of_ended hsource hc.1, hc.2.2⟩
  | tell i next ih =>
    have hdead : Dead (c.tell i next) disk := hc
    obtain ⟨c', hleads, hfinal, hdisk⟩ := ih rfl hdead
    exact ⟨c', (source_tells hsource).trans hleads, hfinal, hdisk⟩
  | ask next ih =>
    have hstep : copyStep h d c .source =
        some { c with net := { c.net with source := .done (), up := [] } } := by
      rw [copyStep, sourceStep, hsource, hc.2.1]
      exact congrArg (Option.map _) (if_pos hc.1)
    exact ⟨_, Leads.step .source hstep, final_of_ended rfl hc.1, hc.2.2⟩

theorem between_ends (hc : Between h c (.done ()) targ fs disk tv) :
    ∃ c', Leads h d c c' ∧ Final h d c' ∧ c'.world.disk = disk := by
  obtain ⟨f, t, size, -, -, -, hstands⟩ := hc
  have hclosed : c.net.closed = true := by rw [Net.closed, hstands.source]
  have hstep : copyStep h d c .sink =
      some ⟨c.net.turn ⟨⟨f :: fs, .ended⟩, [], none, []⟩, ⟨disk, t :: tv, size⟩⟩ := by
    rw [copyStep, netStep, hstands.sink, hstands.down, hclosed, hstands.world]
    rfl
  exact ⟨_, Leads.step .sink hstep, final_of_ended hstands.source rfl, rfl⟩

/-- An empty directory into which the user can write. -/
structure EmptyTarget (h : Host) (targ : Bytes) (disk : Disk) : Prop where
  root : h.root = resolve targ
  directory : ∃ m t, disk (resolve targ) = some (.directory m t)
  writable : h.Writable disk (resolve targ)
  empty : ∀ r, (resolve targ).Covers r → r ≠ resolve targ → disk r = none

theorem EmptyTarget.searchable (ht : EmptyTarget h targ disk) :
    h.searchable disk (resolve targ) = true := by
  rw [Host.searchable, ht.root, List.all_eq_true]
  intro n hn
  rw [decide_eq_true (List.mem_range.mp hn), Bool.true_or]

theorem EmptyTarget.awaits (ht : EmptyTarget h targ disk) (name : Bytes) :
    Awaits h targ disk [name] := by
  refine ⟨Nat.le_of_eq (by rw [ht.root]), ht.searchable, fun c _ r hr => ?_⟩
  refine ht.empty r ((Resolved.covers_entry _ c).trans hr) ?_
  rintro rfl
  exact not_covers_of_le (Nat.le_refl _) c hr

theorem EmptyTarget.stat (ht : EmptyTarget h targ disk) (hq : Quotable h targ) :
    h.stat disk targ = some true := by
  obtain ⟨m, t, hdirectory⟩ := ht.directory
  rw [stat_of_found (by rw [Host.found, ht.searchable, decide_eq_true hq.targ]; rfl), hdirectory]
  rfl

theorem start_between (remote : Bool) {node : Node} (ht : EmptyTarget h targ disk)
    (hq : Quotable h targ) :
    ∃ c, Leads h d (.start remote h path node targ disk) c ∧
      Between h c (source ⟨h.pflag, true⟩ path node >>= fun _ => pure ()) targ [] disk [] := by
  have hstat := ht.stat hq
  have hdirectory : (h.answers disk targ false 0).isDirectory = true := by
    dsimp only [Host.answers]
    rw [hstat]
    rfl
  have hverified : ¬ (d = true ∧ (!(h.answers disk targ false 0).verified) = true) := by
    rintro ⟨-, hno⟩
    rw [show (h.answers disk targ false 0).verified = true from hdirectory] at hno
    exact Bool.false_ne_true hno
  have hturn : sinkStep d (World.env h ⟨disk, [0], 0⟩ [] ⟨[⟨targ, false, false, true⟩], .start⟩)
      false [] ⟨[⟨targ, false, false, true⟩], .start⟩ =
        some ⟨⟨[⟨targ, true, false, true⟩], .record⟩, [], none, [none]⟩ := by
    change some (enterSink d (h.answers disk targ false 0) targ [] [] none) = _
    rw [enterSink, if_neg hverified, hdirectory]
  obtain ⟨c1, hleads1, hsource, hsink, hdown, hup, hworld⟩ := sink_reads (d := d)
    (c := .start remote h path node targ disk) rfl rfl rfl rfl hturn rfl rfl
  obtain ⟨c2, hleads2, hc2⟩ := heard (h := h) (d := d) none hsource hsink hdown hup hworld
    (fun _ h => absurd h (Option.not_mem_none _))
  exact ⟨c2, hleads1.trans hleads2, ⟨targ, true, false, true⟩, 0, 0, rfl, rfl,
    fun h => absurd h Bool.false_ne_true, hc2⟩

theorem leads_install (remote : Bool) {node : Node} (htree : node.Tree) (hsmall : node.Small)
    (hpath : SourcePath path) (hname : FileName (lastName path)) (hq : Quotable h targ)
    (ht : EmptyTarget h targ disk) :
    ∃ c, Leads h d (.start remote h path node targ disk) c ∧ Final h d c ∧
      c.world.disk = (node.install h targ path disk).disk := by
  obtain ⟨c1, hleads1, hc1⟩ := start_between (d := d) remote ht hq
  obtain ⟨c2, hleads2, halive, hdead⟩ := Node.installs (d := d) node htree hsmall path targ [] disk
    [] c1 (fun _ => pure ()) hpath hname hq (ht.awaits _) hc1
  cases hgoes : (node.install h targ path disk).alive with
  | true =>
    obtain ⟨c3, hleads3, hfinal, hdisk⟩ := between_ends (d := d) (halive hgoes)
    exact ⟨c3, (hleads1.trans hleads2).trans hleads3, hfinal, hdisk⟩
  | false =>
    obtain ⟨c3, hleads3, hfinal, hdisk⟩ := dead_ends (d := d) rfl (hdead hgoes)
    exact ⟨c3, (hleads1.trans hleads2).trans hleads3, hfinal, hdisk⟩

end Netkit.Rcp

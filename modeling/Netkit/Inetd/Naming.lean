import Netkit.Inetd.Selection

/-!
# Canonical service names

`loadconfigent` is to store a service under the name that `getservbyname` has for it, so that a
service listed under two names gets one entry. What it copies into the new block is the name from
the file, and the block has the size for the other one.

* `loads_named`: if no entry of the files is listed under an alias, all goes well in every run.
* `not_named_www`: a service listed under its alias.
-/

namespace Netkit.Inetd

open Netkit.Foundations

/-! ## Canonical names -/

/-- What `getservbyname` has for a service and a protocol: the official name and the port. -/
abbrev Services := Text → Text → Option (Text × Nat)

def canonicalName (names : Services) (c : Conf) : Text :=
  if c.family = .AF_INET ∧ c.rpcversl = 0 then
    ((names c.service c.proto).map Prod.fst).getD c.service
  else c.service

def canonicalKey (names : Services) (c : Conf) : Text × Text × Option Nat :=
  (canonicalName names c, c.proto, c.address.map (fun _ => c.sinAddr))

def Canonical (names : Services) (c : Conf) : Prop := canonicalName names c = c.service

instance (names : Services) (c : Conf) : Decidable (Canonical names c) :=
  inferInstanceAs (Decidable (_ = _))

/-- The entries are stored under their canonical names, no two for one service. -/
structure Named (names : Services) (s : State) : Prop where
  canonical : ∀ e ∈ s.servtab, Canonical names e.conf
  distinct : (s.servtab.map (fun e => canonicalKey names e.conf)).Nodup

/-- There is an entry under the canonical name, with the protocol and the address. -/
def Stored (names : Services) (c : Conf) (s : State) : Prop :=
  ∃ e ∈ s.servtab, e.key = canonicalKey names c

/-- One entry of the file, from the heap that `assemble_entry` leaves. -/
def loadConf (hosts : Hosts) (calls : Calls) (s : State) (c : Conf) : Except Stop State :=
  let b := s.heap.next
  let heap := (s.heap.alloc (6 + c.argv.length)).free [b + 1, b + 3]
  loadconfigent hosts calls (assembled b c) { s with heap }

def unchecked (s : State) : State :=
  { s with servtab := s.servtab.map (fun e => { e with checked := false }) }

/-- After each of the entries the table is as it should be, and no string has been copied past
the end of its block. -/
def LoadsNamed (names : Services) (hosts : Hosts) (calls : Calls) (s : State) (cs : List Conf) :
    Prop :=
  ∀ pre c, pre ++ [c] <+: cs →
    Post (fun stop => stop ≠ .overflow) (fun t => Named names t ∧ Stored names c t)
      ((pre ++ [c]).foldlM (loadConf hosts calls) (unchecked s))

/-- What `assemble_entry` makes of some words. -/
def Assembled (hosts : Hosts) (c : Conf) : Prop :=
  ∃ fields, assembleEntry hosts fields = .ok c

def Listed (names : Services) (_ : State) : Event → Prop
  | .config file hosts _ =>
    ∀ text ∈ file, hosts.getservbyname = names ∧ ∀ c ∈ confs hosts text, Canonical names c
  | _ => True

/-! ## Renaming -/

variable {names : Services} {hosts : Hosts} {calls : Calls} {c : Conf} {s t : State}

theorem Canonical.key (h : Canonical names c) : canonicalKey names c = c.key := by
  unfold canonicalKey
  rw [h]
  rfl

theorem officialName_canonical (h : Canonical hosts.getservbyname c) :
    officialName hosts c = none := by
  unfold Canonical canonicalName at h
  unfold officialName
  split
  · next hinet =>
    rw [if_pos ⟨hinet.1, hinet.2.1⟩] at h
    cases hserv : hosts.getservbyname c.service c.proto with
    | none => rfl
    | some p =>
      obtain ⟨name, port⟩ := p
      rw [hserv, Option.map_some, Option.getD_some] at h
      exact if_neg (not_not.mpr h.symm)
  · rfl

theorem assembled_family (h : Assembled hosts c) : c.family = familyOf c.proto := by
  obtain ⟨fields, h⟩ := h
  refine post_result (E := fun _ => True) (P := fun c => c.family = familyOf c.proto) ?_ h
  unfold assembleEntry
  split
  · refine post_bind (post_true _) (fun a _ => ?_)
    refine post_bind (post_true _) (fun _ _ => ?_)
    refine post_bind (post_true _) (fun v _ => ?_)
    exact post_bind (post_true _) (fun bi _ => rfl)
  · exact trivial

/-! ## The invariant -/

/-- What the entries of a table say: they are listed under their canonical names, their families
go with their protocols, and no two have one key. -/
structure Listing (names : Services) (cs : List Conf) : Prop where
  canonical : ∀ c ∈ cs, Canonical names c
  family : ∀ c ∈ cs, c.family = familyOf c.proto
  keys : (cs.map Conf.key).Nodup

theorem Listing.named (h : Listing names (s.servtab.map Servtab.listed)) : Named names s := by
  have hcanonical : ∀ e ∈ s.servtab, Canonical names e.conf :=
    fun e he => h.canonical e.listed (List.mem_map_of_mem he)
  refine ⟨hcanonical, ?_⟩
  have hkeys : s.servtab.map (fun e => canonicalKey names e.conf) = s.servtab.map Servtab.key :=
    List.map_congr_left (fun e he => (hcanonical e he).key)
  have hdistinct := h.keys
  rw [List.map_map] at hdistinct
  rw [hkeys]
  exact hdistinct

theorem Listing.sublist {cs ds : List Conf} (h : Listing names cs) (hsub : ds.Sublist cs) :
    Listing names ds where
  canonical d hd := h.canonical d (hsub.subset hd)
  family d hd := h.family d (hsub.subset hd)
  keys := (hsub.map Conf.key).nodup h.keys

theorem Listing.perm {cs ds : List Conf} (h : Listing names cs) (hp : cs.Perm ds) :
    Listing names ds where
  canonical d hd := h.canonical d (hp.mem_iff.mpr hd)
  family d hd := h.family d (hp.mem_iff.mpr hd)
  keys := (hp.map Conf.key).nodup_iff.mp h.keys

theorem Listing.cons {cs : List Conf} (h : Listing names cs) (hcanonical : Canonical names c)
    (hfamily : c.family = familyOf c.proto) (hnew : ∀ d ∈ cs, d.key ≠ c.key) :
    Listing names (c :: cs) where
  canonical := List.forall_mem_cons.mpr ⟨hcanonical, h.canonical⟩
  family := List.forall_mem_cons.mpr ⟨hfamily, h.family⟩
  keys := by
    refine List.nodup_cons.mpr ⟨fun hmem => ?_, h.keys⟩
    obtain ⟨d, hd, hkey⟩ := List.mem_map.mp hmem
    exact hnew d hd hkey

theorem Listing.replace {cs : List Conf} {d : Conf} (h : Listing names (d :: cs))
    (hcanonical : Canonical names c) (hfamily : c.family = familyOf c.proto)
    (hkey : c.key = d.key) : Listing names (c :: cs) := by
  have hkeys := h.keys
  rw [List.map_cons, List.nodup_cons] at hkeys
  refine Listing.cons (h.sublist (List.sublist_cons_self d cs)) hcanonical hfamily ?_
  intro e he heq
  rw [hkey] at heq
  exact hkeys.1 (heq ▸ List.mem_map_of_mem he)

theorem merge_canonical {old : Conf} (hold : old.family = familyOf old.proto)
    (hnew : c.family = familyOf c.proto) (hcanonical : Canonical names c)
    (hkey : old.key = c.key) : Canonical names (old.merge c) := by
  have hservice : old.service = c.service := congrArg Prod.fst hkey
  have hproto : old.proto = c.proto := congrArg (fun k => k.2.1) hkey
  have hfamily : old.family = c.family := by rw [hold, hnew, hproto]
  have hname : canonicalName names (old.merge c) = canonicalName names c := by
    unfold canonicalName Conf.merge
    dsimp only
    rw [hservice, hproto, hfamily]
  show canonicalName names (old.merge c) = old.service
  rw [hname, hservice]
  exact hcanonical

/-! ## One entry -/

theorem restart_ne : Stop.restart ≠ Stop.overflow := by decide

theorem badDescriptor_ne : Stop.badDescriptor ≠ Stop.overflow := by decide

theorem fdSet_stop (fd : Int) (net : Net) :
    Post (fun stop => stop ≠ .overflow) (fun _ => True) (fdSet fd net) := by
  unfold fdSet
  split
  · exact trivial
  · exact badDescriptor_ne

theorem setup_stop (calls : Calls) (e : Servtab) (net : Net) :
    Post (fun stop => stop ≠ .overflow) (fun _ => True) (setup calls e net) := by
  unfold setup
  cases calls.socket net.calls with
  | emfile => exact restart_ne
  | error => exact trivial
  | fd n =>
    dsimp only
    split
    · exact trivial
    · split
      · exact trivial
      · generalize (n : Int) = fd
        exact post_bind (fdSet_stop fd net) (fun _ _ => trivial)

theorem openSocket_stop (calls : Calls) (e : Servtab) (net : Net) :
    Post (fun stop => stop ≠ .overflow) (fun _ => True) (openSocket calls e net) := by
  unfold openSocket
  split
  · exact setup_stop calls e net
  · exact trivial

theorem changePort_stop (port : Nat) (e : Servtab) (net : Net) :
    Post (fun stop => stop ≠ .overflow) (fun _ => True) (changePort port e net) := by
  unfold changePort closeit fdClr
  split
  · exact trivial
  · split
    · exact trivial
    · split
      · exact trivial
      · exact badDescriptor_ne

theorem activate_stop (hosts : Hosts) (calls : Calls) (e : Servtab) (net : Net) :
    Post (fun stop => stop ≠ .overflow) (fun _ => True) (activate hosts calls e net) := by
  unfold activate
  split
  · exact openSocket_stop calls e net
  · split
    · split
      · exact trivial
      · exact openSocket_stop calls _ net
    · split
      · exact trivial
      · exact post_bind (changePort_stop _ e net) (fun p _ => openSocket_stop calls p.1 p.2)

theorem loadConf_listing (calls : Calls) (hcanonical : Canonical hosts.getservbyname c)
    (hfamily : c.family = familyOf c.proto)
    (h : Listing hosts.getservbyname (s.servtab.map Servtab.listed)) :
    Post (fun stop => stop ≠ .overflow)
      (fun t => Listing hosts.getservbyname (t.servtab.map Servtab.listed) ∧
        Stored hosts.getservbyname c t) (loadConf hosts calls s c) := by
  have hofficial := officialName_canonical hcanonical
  have hrename (heap : Heap) : rename hosts (assembled s.heap.next c) heap =
      .ok (assembled s.heap.next c, heap) := by
    unfold rename
    rw [assembled_conf, hofficial]
  have hconf := assembled_conf s.heap.next c
  have hkey : (assembled s.heap.next c).key = c.key := congrArg Conf.key hconf
  unfold loadConf Stored
  dsimp only
  rw [hcanonical.key]
  generalize (s.heap.alloc (6 + c.argv.length)).free [s.heap.next + 1, s.heap.next + 3] = heap
  rcases table_cases c.key s.servtab with hnone | ⟨A, e, B, htable, hA, he⟩
  · rw [loadconfigent_new (s := { s with heap := heap }) (hrename heap) (by rwa [hkey])]
    refine post_map (activate_also (activate_stop _ _ _ _)) ?_
    rintro ⟨e', net'⟩ ⟨-, hsame⟩
    have hconf' : e'.conf = c := hsame.conf.trans hconf
    have hlisted : e'.listed = { c with wait := 0 } := by
      unfold Servtab.listed
      rw [hconf']
    refine ⟨?_, e', List.mem_cons_self, congrArg Conf.key hconf'⟩
    show Listing _ (e'.listed :: s.servtab.map Servtab.listed)
    rw [hlisted]
    refine h.cons hcanonical hfamily (fun d hd => ?_)
    obtain ⟨x, hx, rfl⟩ := List.mem_map.mp hd
    exact hnone x hx
  · have hsamekey : e.key = (assembled s.heap.next c).key := he.trans hkey.symm
    rw [loadconfigent_old (s := { s with heap := heap }) (hrename heap) htable (by rwa [hkey])
      hsamekey]
    split
    · refine ⟨h, e, ?_, he⟩
      show e ∈ s.servtab
      rw [htable]
      exact List.mem_append_right A List.mem_cons_self
    · refine post_map (activate_also (activate_stop _ _ _ _)) ?_
      rintro ⟨e', net'⟩ ⟨-, hsame⟩
      have hconf' : e'.conf = e.conf.merge c := by
        have hmerged := hsame.conf.trans (merge_conf hsamekey)
        rwa [hconf] at hmerged
      have hkey' : e'.key = c.key := by
        show e'.conf.key = c.key
        rw [hconf', merge_key e.conf he]
        exact he
      refine ⟨?_, e', List.mem_append_right A List.mem_cons_self, hkey'⟩
      rw [htable, List.map_append, List.map_cons] at h
      show Listing _ ((A ++ e' :: B).map Servtab.listed)
      rw [List.map_append, List.map_cons]
      have hhead := h.perm List.perm_middle
      have hold : e.conf.family = familyOf e.conf.proto := hhead.family e.listed List.mem_cons_self
      have hlisted : e'.listed = { e.conf.merge c with wait := 0 } := by
        unfold Servtab.listed
        rw [hconf']
      refine (hhead.replace (c := e'.listed) ?_ ?_ (hkey'.trans he.symm)).perm List.perm_middle.symm
      · have hmerged : Canonical hosts.getservbyname (e.conf.merge c) :=
          merge_canonical hold hfamily hcanonical he
        rw [hlisted]
        exact hmerged
      · rw [hlisted]
        exact hold

theorem foldlM_listing {cs : List Conf}
    (hcs : ∀ c ∈ cs, c.family = familyOf c.proto ∧ Canonical hosts.getservbyname c)
    (h : Listing hosts.getservbyname (s.servtab.map Servtab.listed)) :
    Post (fun stop => stop ≠ .overflow)
      (fun t => Listing hosts.getservbyname (t.servtab.map Servtab.listed))
      (cs.foldlM (loadConf hosts calls) s) := by
  refine post_foldlM (I := fun l t => (∀ c ∈ l, c ∈ cs) ∧
    Listing hosts.getservbyname (t.servtab.map Servtab.listed)) ?_ ⟨fun c hc => hc, h⟩ |>
      (post_mono · (fun t ht => ht.2))
  rintro c l t ⟨hmem, ht⟩
  obtain ⟨hfamily, hcanonical⟩ := hcs c (hmem c List.mem_cons_self)
  exact post_mono (loadConf_listing _ hcanonical hfamily ht)
    (fun u hu => ⟨fun d hd => hmem d (List.mem_cons_of_mem c hd), hu.1⟩)

/-! ## The runs -/

theorem loadEntry_listing {fields : List Text}
    (hcanonical : ∀ c, assembleEntry hosts fields = .ok c → Canonical hosts.getservbyname c)
    (h : Listing hosts.getservbyname (s.servtab.map Servtab.listed)) :
    Post (fun _ => True) (fun t => Listing hosts.getservbyname (t.servtab.map Servtab.listed))
      (loadEntry hosts calls s fields) := by
  unfold loadEntry
  split
  · exact trivial
  · cases hassemble : assembleEntry hosts fields with
    | error message => exact h
    | ok c =>
      have hload := loadConf_listing calls (hcanonical c hassemble)
        (assembled_family ⟨fields, hassemble⟩) h
      exact post_results (post_true _) (fun t ht _ => (post_result hload ht).1)

theorem config_listing {file : Text}
    (hfile : ∀ c ∈ confs hosts file, Canonical hosts.getservbyname c)
    (h : Listing hosts.getservbyname (s.servtab.map Servtab.listed)) :
    Post (fun _ => True) (fun t => Listing hosts.getservbyname (t.servtab.map Servtab.listed))
      (config hosts calls file s) := by
  have hstart : Listing hosts.getservbyname ((unchecked s).servtab.map Servtab.listed) := by
    unfold unchecked
    rw [List.map_map]
    exact h
  have hloop := post_foldlM (E := fun _ => True)
    (I := fun l t => (∀ fields ∈ l, fields ∈ entries file) ∧
      Listing hosts.getservbyname (t.servtab.map Servtab.listed))
    (f := loadEntry hosts calls) (l := entries file) (fun fields l t ht => by
      obtain ⟨hmem, ht⟩ := ht
      refine post_mono (loadEntry_listing (fun c hc => ?_) ht)
        (fun u hu => ⟨fun x hx => hmem x (List.mem_cons_of_mem fields hx), hu⟩)
      exact hfile c (mem_confs (hmem fields List.mem_cons_self) hc))
    ⟨fun _ hfields => hfields, hstart⟩
  refine post_bind hloop ?_
  rintro t ⟨-, ht⟩
  refine post_bind (purge_sublist t.servtab t.heap t.net) ?_
  rintro ⟨servtab, heap, net⟩ hsub
  exact ht.sublist (hsub.map Servtab.listed)

theorem step_listing {e : Event} (h : Listing names (s.servtab.map Servtab.listed))
    (hlisted : Listed names s e) (hstep : step s e = some t) :
    Listing names (t.servtab.map Servtab.listed) := by
  rcases step_cases hstep with ⟨file, hosts, calls, rfl, hconfig⟩ | ⟨hrecords, -⟩ | ⟨hempty, -⟩
  · obtain ⟨rfl, hfile⟩ := hlisted file rfl
    exact post_result (P := fun u => Listing _ (u.servtab.map Servtab.listed))
      (config_listing hfile h) hconfig
  · rw [listed_of_records hrecords]
    exact h
  · rw [hempty]
    exact ⟨fun c hc => absurd hc List.not_mem_nil, fun c hc => absurd hc List.not_mem_nil,
      List.nodup_nil⟩

/-- **Every service is stored under its canonical name**, in every run, if no entry of the files
is listed under an alias. -/
theorem loads_named {es : List Event} (h : Steps (Listed names) step init es)
    (hs : Reached step init es s) (hnames : hosts.getservbyname = names) {cs : List Conf}
    (hcs : ∀ c ∈ cs, Assembled hosts c ∧ Canonical names c) :
    Named names s ∧ LoadsNamed names hosts calls s cs := by
  subst hnames
  have hinit : Listing hosts.getservbyname (init.servtab.map Servtab.listed) :=
    ⟨fun c hc => absurd hc List.not_mem_nil, fun c hc => absurd hc List.not_mem_nil,
      List.nodup_nil⟩
  have hlisting := steps_reached (fun _ _ _ => step_listing) hinit h hs
  refine ⟨hlisting.named, fun pre c hpre => ?_⟩
  have hstart : Listing hosts.getservbyname ((unchecked s).servtab.map Servtab.listed) := by
    unfold unchecked
    rw [List.map_map]
    exact hlisting
  have hmem (d : Conf) (hd : d ∈ pre ++ [c]) :
      d.family = familyOf d.proto ∧ Canonical hosts.getservbyname d := by
    obtain ⟨hassembled, hcanonical⟩ := hcs d (hpre.subset hd)
    exact ⟨assembled_family hassembled, hcanonical⟩
  obtain ⟨hfamily, hcanonical⟩ := hmem c (List.mem_append_right pre (List.mem_singleton_self c))
  rw [List.foldlM_append]
  refine post_bind (foldlM_listing (fun d hd => hmem d (List.mem_append_left [c] hd)) hstart) ?_
  intro t ht
  rw [List.foldlM_cons]
  refine post_bind (loadConf_listing _ hcanonical hfamily ht) ?_
  rintro u ⟨hu, hstored⟩
  exact ⟨hu.named, hstored⟩

theorem assembled_of_toOption {fields : List Text}
    (h : (assembleEntry hosts fields).toOption = some c) : assembleEntry hosts fields = .ok c := by
  cases hassemble : assembleEntry hosts fields with
  | error message =>
    rw [hassemble] at h
    cases h
  | ok d =>
    rw [hassemble] at h
    exact congrArg Except.ok (Option.some.inj h)

def SameNames (names : Services) : Prop :=
  ∀ service proto name port, names service proto = some (name, port) →
    names name proto = some (name, port)

/-- Two services of `/etc/services`, each with an alias. -/
def webNames : Services := fun service proto =>
  if (service = "http".toList ∨ service = "www".toList) ∧ proto = "tcp".toList then
    some ("http".toList, htons 80)
  else if (service = "domain".toList ∨ service = "nameserver".toList) ∧ proto = "udp".toList then
    some ("domain".toList, htons 53)
  else none

theorem webNames_same : SameNames webNames := by
  intro service proto name port h
  unfold webNames at h
  split at h
  · next hweb =>
    obtain ⟨rfl, rfl⟩ := Prod.mk.inj (Option.some.inj h)
    exact if_pos ⟨Or.inl rfl, hweb.2⟩
  · split at h
    · next hdomain =>
      obtain ⟨rfl, rfl⟩ := Prod.mk.inj (Option.some.inj h)
      have hnot : ¬ (("domain".toList = "http".toList ∨ "domain".toList = "www".toList) ∧
          proto = "tcp".toList) := fun hweb => absurd hweb.1 (by decide)
      exact (if_neg hnot).trans (if_pos ⟨Or.inl rfl, hdomain.2⟩)
    · cases h

def webHosts : Hosts := { bareHosts with getservbyname := webNames }

def webFile : Text :=
  ("http stream tcp nowait root /usr/sbin/httpd httpd\n" ++
    "domain dgram udp wait root /usr/sbin/named named\n").toList

/-- The file is loaded, and then loaded again. -/
theorem loads_named_web :
    ∃ t, run step init [.config (some webFile) webHosts (callsOf 3)] = some t ∧
      (confs webHosts webFile).length = 2 ∧ Named webNames t ∧
      LoadsNamed webNames webHosts (callsOf 4) t (confs webHosts webFile) := by
  have hfile : ∀ c ∈ confs webHosts webFile, Canonical webNames c := by decide +kernel
  have hrun : (run step init [.config (some webFile) webHosts (callsOf 3)]).isSome = true := rfl
  obtain ⟨t, ht⟩ := Option.isSome_iff_exists.mp hrun
  have hsteps : Steps (Listed webNames) step init
      [.config (some webFile) webHosts (callsOf 3)] := by
    refine ⟨?_, fun _ _ => trivial⟩
    rintro text ⟨⟩
    exact ⟨rfl, hfile⟩
  have hnames : webHosts.getservbyname = webNames := rfl
  have hcs (c : Conf) (hc : c ∈ confs webHosts webFile) :
      Assembled webHosts c ∧ Canonical webNames c := by
    obtain ⟨fields, -, hfields⟩ := List.mem_filterMap.mp hc
    exact ⟨⟨fields, assembled_of_toOption hfields⟩, hfile c hc⟩
  exact ⟨t, ht, by decide +kernel, loads_named hsteps ⟨_, List.prefix_rfl, ht⟩ hnames hcs⟩

def wwwFields : List Text :=
  ["www", "stream", "tcp", "nowait", "root", "/usr/sbin/httpd", "httpd"].map String.toList

/-- The web server is stored under its alias. -/
theorem not_named_www :
    ¬ ∀ (hosts : Hosts) (calls : Calls), SameNames hosts.getservbyname →
      ∀ es s, Reached step init es s → ∀ cs, (∀ c ∈ cs, Assembled hosts c) →
        LoadsNamed hosts.getservbyname hosts calls s cs := by
  intro h
  have hsome : (assembleEntry webHosts wwwFields).toOption.isSome = true := by decide +kernel
  obtain ⟨c, hc⟩ := Option.isSome_iff_exists.mp hsome
  have hassemble := assembled_of_toOption hc
  have hloads := h webHosts (callsOf 3) webNames_same [] init (reached_start init []) [c]
    (fun d hd => ⟨wwwFields, (List.mem_singleton.mp hd).symm ▸ hassemble⟩) [] c List.prefix_rfl
  have hwrong : ((assembleEntry webHosts wwwFields).toOption.any fun c =>
      ([c].foldlM (loadConf webHosts (callsOf 3)) (unchecked init)).toOption.any fun t =>
        t.servtab.any (fun e => !decide (Canonical webNames e.conf))) = true := by
    decide +kernel
  rw [hc, Option.any_some] at hwrong
  rw [List.nil_append] at hloads
  cases hload : [c].foldlM (loadConf webHosts (callsOf 3)) (unchecked init) with
  | error stop =>
    rw [hload] at hwrong
    cases hwrong
  | ok t =>
    rw [hload] at hwrong hloads
    obtain ⟨e, he, halias⟩ := List.any_eq_true.mp hwrong
    rw [Bool.not_eq_true', decide_eq_false_iff_not] at halias
    exact halias (hloads.1.canonical e he)

/-- An alias longer than the official name is copied past the end of its block. -/
example : rename webHosts (assembled 0
    { service := "nameserver".toList, address := none, sinAddr := 0, socktype := .SOCK_DGRAM,
      family := .AF_INET, proto := "udp".toList, rpcversl := 0, rpcversh := 0, max := TOOMANY,
      wait := 1, user := "root".toList, group := none, server := "/usr/sbin/named".toList,
      bi := none, argv := ["named".toList] }) ⟨7, []⟩ = .error .overflow := by
  decide +kernel

end Netkit.Inetd

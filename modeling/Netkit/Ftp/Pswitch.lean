import Netkit.Foundations.ByteOrder

/-!
# Two connections of ftp

ftp has one set of variables for its connection. `pswitch` of `ftp.c` saves them in one of two
static structures, and takes what is in the other; `pswitch(1)` goes to the proxy connection and
`pswitch(0)` back to the primary one.

The names are strings; `strncpy` leaves the last byte of an array as it is, which is always NUL.
`stru`, `form`, `mode` and the macros are not in the structures.

* `Restores`, `restores_iff`: the primary connection is as it was before.
-/

namespace Netkit.Ftp.Pswitch

open Netkit.Foundations

/-! ## The variables -/

def MAXHOSTNAMELEN : ℕ := 64

def MAXPATHLEN : ℕ := 4096

/-- A string in an array of `n + 1` bytes. -/
structure Text (n : ℕ) where
  chars : Bytes
  length_le : chars.length ≤ n
deriving DecidableEq

/-- `strncpy` of at most `n` bytes. -/
def strncpy (n : ℕ) (s : Bytes) : Text n := ⟨s.take n, List.length_take_le n s⟩

variable {α β μ η : Type}

/-- The variables of the current connection, with addresses of the type `α` and files of the type
`β`. -/
structure Session (α β : Type) where
  connected : Int
  hostname : Option Bytes
  hisctladdr : α
  myctladdr : α
  cin : Option β
  cout : Option β
  type : Int
  curtype : Int
  cpend : Int
  sunique : Int
  runique : Int
  mcase : Int
  ntflag : Int
  ntin : Text 16
  ntout : Text 16
  mapflag : Int
  mapin : Text (MAXPATHLEN - 1)
  mapout : Text (MAXPATHLEN - 1)

structure Comvars (α β : Type) where
  connect : Int
  name : Text (MAXHOSTNAMELEN - 1)
  mctl : α
  hctl : α
  inn : Option β
  out : Option β
  tpe : Int
  curtpe : Int
  cpnd : Int
  sunqe : Int
  runqe : Int
  mcse : Int
  ntflg : Int
  nti : Text 16
  nto : Text 16
  mapflg : Int
  mi : Text (MAXPATHLEN - 1)
  mo : Text (MAXPATHLEN - 1)

/-- A handler of `SIGINT`. -/
inductive Handler (η : Type) where
  | psabort
  | other (h : η)
deriving DecidableEq

structure Client (α β μ η : Type) where
  session : Session α β
  stru : Int
  form : Int
  mode : Int
  /-- `macnum`, `macros` and `macbuf`. -/
  macros : μ
  proxy : Bool
  abrtflag : Bool
  handler : Handler η
  proxstruct : Comvars α β
  tmpstruct : Comvars α β

/-! ## The function -/

/-- What is stored in `ip`. -/
def save (s : Session α β) : Comvars α β where
  connect := s.connected
  name :=
    match s.hostname with
    | some hostname => strncpy (MAXHOSTNAMELEN - 1) hostname
    | none => ⟨[], Nat.zero_le _⟩
  mctl := s.myctladdr
  hctl := s.hisctladdr
  inn := s.cin
  out := s.cout
  tpe := s.type
  curtpe := s.curtype
  cpnd := s.cpend
  sunqe := s.sunique
  runqe := s.runique
  mcse := s.mcase
  ntflg := s.ntflag
  nti := strncpy 16 s.ntin.chars
  nto := strncpy 16 s.ntout.chars
  mapflg := s.mapflag
  mi := strncpy (MAXPATHLEN - 1) s.mapin.chars
  mo := strncpy (MAXPATHLEN - 1) s.mapout.chars

/-- What is taken from `op`. -/
def load (op : Comvars α β) : Session α β where
  connected := op.connect
  hostname := some op.name.chars
  hisctladdr := op.hctl
  myctladdr := op.mctl
  cin := op.inn
  cout := op.out
  type := op.tpe
  curtype := op.curtpe
  cpend := op.cpnd
  sunique := op.sunqe
  runique := op.runqe
  mcase := op.mcse
  ntflag := op.ntflg
  ntin := op.nti
  ntout := op.nto
  mapflag := op.mapflg
  mapin := op.mi
  mapout := op.mo

/-- `pswitch`, when `SIGINT` comes or not while `psabort` handles it. The second result says whether
the old handler is called at the end. -/
def pswitch (arrives flag : Bool) (s : Client α β μ η) : Client α β μ η × Bool :=
  if flag = s.proxy then ({ s with abrtflag := arrives, handler := .psabort }, false)
  else if flag then
    ({ s with
      proxy := true
      session := load s.proxstruct
      tmpstruct := save s.session
      abrtflag := false }, arrives)
  else
    ({ s with
      proxy := false
      session := load s.tmpstruct
      proxstruct := save s.session
      abrtflag := false }, arrives)

/-! ## The claim -/

def STRU_F : Int := 1

def FORM_N : Int := 1

def MODE_S : Int := 1

/-- Commands have been given to the proxy connection: they may change its variables in any way.
`setpeer` sets the structure, the form and the mode, and other commands do not; the macros are kept
by `disconnect` and `ruserpass` while `proxy` is set. -/
structure Use (s t : Client α β μ η) : Prop where
  proxy : t.proxy = s.proxy
  tmpstruct : t.tmpstruct = s.tmpstruct
  handler : t.handler = s.handler
  macros : t.macros = s.macros
  parameters : (t.stru = s.stru ∧ t.form = s.form ∧ t.mode = s.mode) ∨
    (t.stru = STRU_F ∧ t.form = FORM_N ∧ t.mode = MODE_S)

def Client.primary (s : Client α β μ η) : Session α β :=
  if s.proxy then load s.tmpstruct else s.session

/-- `t` is at the primary connection, which is as in `s`, and so are the handler and what belongs to
no connection. -/
structure SamePrimary (s t : Client α β μ η) : Prop where
  proxy : t.proxy = false
  session : t.session = s.primary
  stru : t.stru = s.stru
  form : t.form = s.form
  mode : t.mode = s.mode
  macros : t.macros = s.macros
  handler : t.handler = s.handler

/-- `pswitch(1)`, any use of the proxy connection and `pswitch(0)` leave the primary one as it
was. -/
def Restores (s : Client α β μ η) : Prop :=
  ∀ (a b : Bool) (t : Client α β μ η), Use (pswitch a true s).1 t →
    SamePrimary s (pswitch b false t).1

def Idle (s : Client α β μ η) : Prop :=
  ∀ a : Bool, (pswitch a s.proxy s).1.session = s.session ∧
    (pswitch a s.proxy s).1.primary = s.primary ∧ (pswitch a s.proxy s).1.handler = s.handler

/-! ## Saving and loading -/

theorem strncpy_chars {n : ℕ} (s : Text n) : strncpy n s.chars = s := by
  obtain ⟨chars, hle⟩ := s
  unfold strncpy
  congr 1
  exact List.take_of_length_le hle

theorem load_save_iff (s : Session α β) :
    load (save s) = s ↔ ∃ hostname, s.hostname = some hostname ∧ hostname.length < 64 := by
  obtain ⟨connected, hostname, hisctladdr, myctladdr, cin, cout, type, curtype, cpend, sunique,
    runique, mcase, ntflag, ntin, ntout, mapflag, mapin, mapout⟩ := s
  simp only [load, save, strncpy_chars, Session.mk.injEq, and_true, true_and]
  cases hostname with
  | none =>
    refine iff_of_false (fun h => ?_) ?_
    · cases h
    · rintro ⟨hostname, h, -⟩
      cases h
  | some hostname =>
    dsimp only
    rw [Option.some.injEq]
    show List.take 63 hostname = hostname ↔ _
    constructor
    · intro h
      have hlength := congrArg List.length h
      rw [List.length_take] at hlength
      exact ⟨hostname, rfl, by omega⟩
    · rintro ⟨other, heq, hlt⟩
      obtain rfl := Option.some.inj heq
      exact List.take_of_length_le (by omega)

/-! ## Calls -/

variable {s t : Client α β μ η}

theorem pswitch_idle (a : Bool) (s : Client α β μ η) :
    (pswitch a s.proxy s).1 = { s with abrtflag := a, handler := .psabort } := by
  unfold pswitch
  rw [if_pos rfl]

theorem pswitch_to (a : Bool) (h : s.proxy = false) : (pswitch a true s).1 =
    { s with
      proxy := true
      session := load s.proxstruct
      tmpstruct := save s.session
      abrtflag := false } := by
  unfold pswitch
  rw [if_neg (by rw [h]; decide), if_pos rfl]

theorem pswitch_back (b : Bool) (h : t.proxy = true) : (pswitch b false t).1 =
    { t with
      proxy := false
      session := load t.tmpstruct
      proxstruct := save t.session
      abrtflag := false } := by
  unfold pswitch
  rw [if_neg (by rw [h]; decide), if_neg Bool.false_ne_true]

/-- After `pswitch(1)` the proxy connection is the current one in any case, and the primary one is
what has been saved. -/
theorem pswitch_true (a : Bool) (s : Client α β μ η) :
    (pswitch a true s).1.proxy = true ∧
      load (pswitch a true s).1.tmpstruct =
        (if s.proxy then s.primary else load (save s.session)) ∧
      (pswitch a true s).1.handler = (if s.proxy then .psabort else s.handler) ∧
      (pswitch a true s).1.macros = s.macros ∧ (pswitch a true s).1.stru = s.stru ∧
      (pswitch a true s).1.form = s.form ∧ (pswitch a true s).1.mode = s.mode := by
  cases h : s.proxy with
  | true =>
    have hidle := pswitch_idle a s
    rw [h] at hidle
    rw [hidle, Client.primary, h]
    exact ⟨rfl, rfl, rfl, rfl, rfl, rfl, rfl⟩
  | false =>
    rw [pswitch_to a h]
    exact ⟨rfl, rfl, rfl, rfl, rfl, rfl, rfl⟩

/-- The structure, the form and the mode are what `setpeer` makes of them. -/
def Client.Defaults (s : Client α β μ η) : Prop :=
  s.stru = STRU_F ∧ s.form = FORM_N ∧ s.mode = MODE_S

/-- The primary connection is restored exactly if it has a host name that fits, or the proxy
connection was the current one already and `psabort` handled `SIGINT`; and a connection has been
opened before. A call that has nothing to switch changes nothing exactly if `psabort` handled
`SIGINT`. -/
theorem restores_iff (s : Client α β μ η) :
    (Restores s ↔ s.Defaults ∧
      if s.proxy then s.handler = .psabort
      else ∃ hostname, s.session.hostname = some hostname ∧ hostname.length < 64) ∧
    (Idle s ↔ s.handler = .psabort) := by
  constructor
  · constructor
    · intro h
      obtain ⟨hproxy, hload, hhandler, hmacros, hstru, hform, hmode⟩ := pswitch_true true s
      let u : Client α β μ η := { (pswitch true true s).1 with
        stru := STRU_F, form := FORM_N, mode := MODE_S }
      have hopened := h true false u ⟨rfl, rfl, rfl, rfl, Or.inr ⟨rfl, rfl, rfl⟩⟩
      rw [pswitch_back false (show u.proxy = true from hproxy)] at hopened
      refine ⟨⟨hopened.stru.symm, hopened.form.symm, hopened.mode.symm⟩, ?_⟩
      split
      · next hon =>
        have hsame := hopened.handler
        exact ((hhandler.trans (if_pos hon)).symm.trans hsame).symm
      · next hoff =>
        have hsame := hopened.session
        rw [Client.primary, if_neg hoff] at hsame
        exact (load_save_iff s.session).mp ((hload.trans (if_neg hoff)).symm.trans hsame)
    · rintro ⟨hdefaults, hcases⟩ a b t hu
      obtain ⟨hproxy, hload, hhandler, hmacros, hstru, hform, hmode⟩ := pswitch_true a s
      have hparameters : t.stru = s.stru ∧ t.form = s.form ∧ t.mode = s.mode := by
        rcases hu.parameters with ⟨h1, h2, h3⟩ | ⟨h1, h2, h3⟩
        · exact ⟨h1.trans hstru, h2.trans hform, h3.trans hmode⟩
        · exact ⟨h1.trans hdefaults.1.symm, h2.trans hdefaults.2.1.symm,
            h3.trans hdefaults.2.2.symm⟩
      rw [pswitch_back b (hu.proxy.trans hproxy)]
      refine ⟨rfl, ?_, hparameters.1, hparameters.2.1, hparameters.2.2,
        hu.macros.trans hmacros, ?_⟩
      · dsimp only
        rw [hu.tmpstruct, hload]
        split at hcases
        · next hon => rw [if_pos hon]
        · next hoff =>
          rw [if_neg hoff, Client.primary, if_neg hoff]
          exact (load_save_iff s.session).mpr hcases
      · dsimp only
        rw [hu.handler, hhandler]
        split at hcases
        · next hon => rw [if_pos hon, hcases]
        · next hoff => rw [if_neg hoff]
  · constructor
    · intro h
      have hsame := (h true).2.2
      rw [pswitch_idle] at hsame
      exact hsame.symm
    · intro h a
      rw [pswitch_idle]
      exact ⟨rfl, rfl, h.symm⟩

/-- A client that is in the proxy connection, as when that is lost during a command. -/
def proxyClient : Client Unit Unit Unit Unit :=
  let comvars : Comvars Unit Unit :=
    { connect := 1, name := ⟨[], by decide⟩, mctl := (), hctl := (), inn := some (),
      out := some (), tpe := 1, curtpe := 1, cpnd := 0, sunqe := 0, runqe := 0, mcse := 0,
      ntflg := 0, nti := ⟨[], by decide⟩, nto := ⟨[], by decide⟩, mapflg := 0,
      mi := ⟨[], by decide⟩, mo := ⟨[], by decide⟩ }
  { session := load comvars, stru := STRU_F, form := FORM_N, mode := MODE_S, macros := (),
    proxy := true, abrtflag := false, handler := .other (), proxstruct := comvars,
    tmpstruct := comvars }

/-- `lostpeer` calls `pswitch(1)` and `pswitch(0)` then. -/
theorem not_restores : ¬ ∀ s : Client Unit Unit Unit Unit, Restores s := by
  intro h
  have hsame := (h proxyClient false false _ ⟨rfl, rfl, rfl, rfl, Or.inl ⟨rfl, rfl, rfl⟩⟩).handler
  cases hsame

end Netkit.Ftp.Pswitch

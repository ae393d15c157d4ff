import Netkit.Telnet.Client.Environ

/-!
# The server asks for the environment

`env_opt` of `telnet.cc` reads the names of a `SEND` out of the buffer and calls `env_opt_add` for
each of them. `env_opt_add` without a name, or with an empty one, calls itself for each variable
that is exported; the last of these calls can be for an empty name again, and then it never
returns.

* `environ_bounded_iff`: the lists for which nothing is written behind the block.
* `environ_send_iff`: the requests that are answered name for name.
-/

namespace Netkit.Telnet.Client

def TELQUAL_SEND : UInt8 := 1

/-- `class enviro`; a variable that is cleared has no name. -/
structure Enviro where
  var : Option (List UInt8)
  value : List UInt8
  doexport : Bool
  deriving DecidableEq

def envFind (vars : List Enviro) (name : List UInt8) : Option Enviro :=
  vars.find? fun e => e.var = some name

/-- `env_getvalue(var, 1)`. -/
def envGetvalue (vars : List Enviro) (name : List UInt8) : Option (List UInt8) :=
  (envFind vars name).bind fun e => if e.doexport then some e.value else none

/-- What `env_next(&i, 1)` returns, one after the other. -/
def exportedNames (vars : List Enviro) : List (List UInt8) :=
  vars.filterMap fun e => if e.doexport then e.var else none

def asked (vars : List Enviro) (name : List UInt8) : Var := (name, envGetvalue vars name)

inductive Outcome (α : Type) where
  /-- A byte has been written behind the block. -/
  | overrun
  /-- The calls have not come to an end. -/
  | unfinished
  | done (result : α)
  deriving DecidableEq

/-- `env_opt_add` for each of the names, in at most `fuel` calls; the names that a call without a
name goes through are put in front of the others. -/
def envOptAddNames (vars : List Enviro) : Nat → List (List UInt8) → OptReply → Outcome OptReply
  | _, [], r => .done r
  | 0, _ :: _, _ => .unfinished
  | fuel + 1, name :: names, r =>
    if name = [] then envOptAddNames vars fuel (exportedNames vars ++ names) r
    else match envOptAdd (asked vars name) r with
      | none => .overrun
      | some r => envOptAddNames vars fuel names r

/-- `env_opt_end` after the calls. -/
def Outcome.finish (emptyok : Bool) : Outcome OptReply → Outcome (List UInt8)
  | .overrun => .overrun
  | .unfinished => .unfinished
  | .done r =>
    match envOptEnd emptyok r with
    | none => .overrun
    | some bytes => .done bytes

/-- `env_opt_start`, `env_opt_add` for the names, `env_opt_end`. -/
def envOptReply (vars : List Enviro) (emptyok : Bool) (fuel : Nat) (names : List (List UInt8)) :
    Outcome (List UInt8) := (envOptAddNames vars fuel names envOptStart).finish emptyok

/-! ## The block -/

/-- With `used` bytes in a block of `size` bytes, what the first calls add fits, the block growing
as `env_opt_add` lets it grow, and if there are no others, so does the end. -/
def NamesFit (vars : List Enviro) (emptyok : Bool) : Nat → List (List UInt8) → Nat → Nat → Prop
  | _, [], used, size => emptyok ∨ used + 2 > 6 → used + 2 ≤ size
  | 0, _ :: _, _, _ => True
  | fuel + 1, name :: names, used, size =>
    if name = [] then NamesFit vars emptyok fuel (exportedNames vars ++ names) used size
    else
      used + addedLength (asked vars name) ≤ grown used size (asked vars name) ∧
        NamesFit vars emptyok fuel names (used + addedLength (asked vars name))
          (grown used size (asked vars name))

variable {vars : List Enviro} {emptyok : Bool} {fuel : Nat} {names : List (List UInt8)}
  {r r' : OptReply}

theorem envOptEnd_overrun (h : r.bytes.length ≤ r.size) :
    (Outcome.done r).finish emptyok ≠ .overrun ↔
      (emptyok ∨ r.bytes.length + 2 > 6 → r.bytes.length + 2 ≤ r.size) := by
  rw [Outcome.finish, envOptEnd_eq emptyok h]
  by_cases hend : emptyok = true ∨ r.bytes.length + 2 > 6
  · rw [if_pos hend]
    by_cases hfit : r.bytes.length + 2 ≤ r.size
    · rw [if_pos hfit]
      exact ⟨fun _ _ => hfit, fun _ => nofun⟩
    · rw [if_neg hfit]
      exact ⟨fun h => absurd rfl h, fun h => absurd (h hend) hfit⟩
  · rw [if_neg hend]
    exact ⟨fun _ h => absurd h hend, fun _ => nofun⟩

/-- The induction is on the calls that are left. -/
theorem envOptAddNames_overrun (h : r.bytes.length ≤ r.size) :
    (envOptAddNames vars fuel names r).finish emptyok ≠ .overrun ↔
      NamesFit vars emptyok fuel names r.bytes.length r.size := by
  induction fuel generalizing names r with
  | zero =>
    cases names with
    | nil => exact envOptEnd_overrun h
    | cons name names => exact ⟨fun _ => trivial, fun _ => nofun⟩
  | succ fuel ih =>
    cases names with
    | nil => exact envOptEnd_overrun h
    | cons name names =>
      rw [envOptAddNames, NamesFit]
      by_cases hname : name = []
      · rw [if_pos hname, if_pos hname]
        exact ih h
      · rw [if_neg hname, if_neg hname, envOptAdd_eq _ h]
        by_cases hfit : r.bytes.length + addedLength (asked vars name) ≤
            grown r.bytes.length r.size (asked vars name)
        · rw [if_pos hfit]
          have hlength : (r.bytes ++ addedBytes (asked vars name)).length =
              r.bytes.length + addedLength (asked vars name) := by
            rw [List.length_append, length_addedBytes]
          have hrest := @ih names ⟨r.bytes ++ addedBytes (asked vars name),
            grown r.bytes.length r.size (asked vars name)⟩ (hlength.le.trans hfit)
          rw [hlength] at hrest
          exact hrest.trans ⟨fun h => ⟨hfit, h⟩, fun h => h.2⟩
        · rw [if_neg hfit]
          exact ⟨fun h => absurd rfl h, fun h => absurd h.1 hfit⟩

/-- Nothing is written behind the block exactly when every variable that is added, with its
escapes, fits after one growth at most, and the end fits. -/
theorem environ_bounded_iff (vars : List Enviro) (emptyok : Bool) (names : List (List UInt8)) :
    (∀ fuel, envOptReply vars emptyok fuel names ≠ .overrun) ↔
      ∀ fuel, NamesFit vars emptyok fuel names 4 OPT_REPLY_SIZE := by
  apply forall_congr'
  intro fuel
  exact envOptAddNames_overrun (by decide)

/-- A value of 200 bytes that are all doubled. -/
theorem environ_overrun : ¬ ∀ (vars : List Enviro) (names : List (List UInt8)) (fuel : Nat),
    envOptReply vars true fuel names ≠ .overrun := by
  intro h
  exact h [⟨some [65], List.replicate 200 IAC, true⟩] [[65]] 1 (by decide +kernel)

/-! ## The scan -/

def cstring (buf : List UInt8) (p : Nat) : List UInt8 := (buf.drop p).takeWhile (· ≠ 0)

/-- The loop of `env_opt` for `SEND`, in at most `fuel` passes: the names with which `env_opt_add`
is called. `ptrs` are the places of `ep` and `epc`, both set or neither. -/
def envOptLoop (len : Nat) : Nat → Nat → List UInt8 → Option (Nat × Nat) → List (List UInt8)
  | 0, _, _, _ => []
  | fuel + 1, i, buf, ptrs =>
    if i < len then
      if buf.getD i 0 = ENV_VALUE then
        match ptrs with
        | none =>
          -- `ep` is set now, so the test behind the `switch` holds
          let buf := buf.set (i + 1) 0
          cstring buf (i + 1) :: envOptLoop len fuel (i + 1) buf (some (i + 1, i + 1))
        | some (ep, epc) =>
          let flushed := buf.set epc 0
          let buf := flushed.set (i + 1) 0
          cstring flushed ep :: cstring buf (i + 1) ::
            envOptLoop len fuel (i + 1) buf (some (i + 1, i + 1))
      else
        let i := if buf.getD i 0 = ENV_ESC then i + 1 else i
        match ptrs with
        | none => envOptLoop len fuel (i + 1) buf none
        | some (ep, epc) =>
          let buf := (buf.set epc (buf.getD i 0)).set (epc + 1) 0
          cstring buf ep :: envOptLoop len fuel (i + 1) buf (some (ep, epc + 1))
    else []

/-- The names with which `env_opt` calls `env_opt_add` for a `SEND`; the null pointer asks for the
same as the empty name. -/
def envOptNames (buf : List UInt8) (len : Nat) : List (List UInt8) :=
  if len = 1 then [[]] else envOptLoop len len 1 buf none

/-- `env_opt`: the reply, if there is one. -/
def envOpt (vars : List Enviro) (fuel : Nat) (buf : List UInt8) (len : Nat) :
    Option (Outcome (List UInt8)) :=
  if buf.getD 0 0 = TELQUAL_SEND then some (envOptReply vars true fuel (envOptNames buf len))
  else none

/-! ## Requests -/

/-- A name as it is quoted in a request. -/
inductive Quoted : List UInt8 → List UInt8 → Prop where
  | nil : Quoted [] []
  | plain {name quoted} (c : UInt8) (hvar : c ≠ ENV_VAR) (hvalue : c ≠ ENV_VALUE)
      (hesc : c ≠ ENV_ESC) (h : Quoted name quoted) : Quoted (c :: name) (c :: quoted)
  | escaped {name quoted} (c : UInt8) (h : Quoted name quoted) :
      Quoted (c :: name) (ENV_ESC :: c :: quoted)

/-- A list of names, each with the type byte in front. -/
inductive Requests (type : UInt8) : List (List UInt8) → List UInt8 → Prop where
  | nil : Requests type [] []
  | cons {name quoted names body} (hname : Quoted name quoted) (h : Requests type names body) :
      Requests type (name :: names) (type :: (quoted ++ body))

/-- The right answer: an entry for each name; without names, one for each variable that is
exported. -/
def answer (vars : List Enviro) (names : List (List UInt8)) : List UInt8 :=
  [IAC, SB, TELOPT_ENVIRON, TELQUAL_IS] ++
    ((if names = [] then exportedNames vars else names).map (asked vars)).flatMap addedBytes ++
    [IAC, SE]

/-! ## What the scan makes of a request -/

variable {type : UInt8} {body rest buf : List UInt8} {len i ep : Nat}

theorem getD_set_zero_self : (buf.set i 0).getD i 0 = 0 := by
  rw [List.getD_eq_getElem?_getD, List.getElem?_set_self']
  cases buf[i]? with
  | none => rfl
  | some c => rfl

theorem getD_set_zero (j : Nat) (h : buf.getD i 0 = 0) : (buf.set j 0).getD i 0 = 0 := by
  by_cases hij : j = i
  · subst hij
    exact getD_set_zero_self
  · rw [List.getD_eq_getElem?_getD, List.getElem?_set_ne hij, ← List.getD_eq_getElem?_getD]
    exact h

theorem cstring_of_zero (h : buf.getD i 0 = 0) : cstring buf i = [] := by
  rw [cstring]
  cases hdrop : buf.drop i with
  | nil => rfl
  | cons c tail =>
    have hc : buf[i]? = some c := by
      rw [← List.head?_drop, hdrop]
      rfl
    rw [List.getD_eq_getElem?_getD, hc] at h
    have hc0 : c = 0 := h
    subst hc0
    rfl

theorem envOptLoop_zeroed (hep : buf.getD ep 0 = 0) (hi : buf.getD i 0 = 0)
    (hfuel : len - i ≤ fuel) :
    envOptLoop len fuel i buf (some (ep, i)) = List.replicate (len - i) [] := by
  induction fuel generalizing i buf with
  | zero =>
    rw [Nat.le_zero.mp hfuel]
    rfl
  | succ fuel ih =>
    rw [envOptLoop]
    by_cases hlt : i < len
    · have hvalue : ¬ (0 : UInt8) = ENV_VALUE := by decide
      have hesc : ¬ (0 : UInt8) = ENV_ESC := by decide
      rw [if_pos hlt, hi, if_neg hvalue, if_neg hesc]
      dsimp only
      rw [hi]
      have hep' := getD_set_zero (i + 1) (getD_set_zero i hep)
      have hi' : ((buf.set i 0).set (i + 1) 0).getD (i + 1) 0 = 0 := getD_set_zero_self
      show cstring ((buf.set i 0).set (i + 1) 0) ep ::
        envOptLoop len fuel (i + 1) ((buf.set i 0).set (i + 1) 0) (some (ep, i + 1)) = _
      rw [cstring_of_zero hep', ih hep' hi' (by omega)]
      have hcount : len - i = len - (i + 1) + 1 := by omega
      rw [hcount, List.replicate_succ]
    · rw [if_neg hlt, Nat.sub_eq_zero_of_le (Nat.le_of_not_lt hlt)]
      rfl

/-- Bytes among which no unquoted `ENV_VALUE` is. -/
inductive Silent : List UInt8 → Prop where
  | nil : Silent []
  | plain {tail} (c : UInt8) (hvalue : c ≠ ENV_VALUE) (hesc : c ≠ ENV_ESC) (h : Silent tail) :
      Silent (c :: tail)
  | escaped {tail} (c : UInt8) (h : Silent tail) : Silent (ENV_ESC :: c :: tail)

theorem Quoted.silent {name quoted : List UInt8} (hname : Quoted name quoted) (h : Silent body) :
    Silent (quoted ++ body) := by
  induction hname with
  | nil => exact h
  | plain c hvar hvalue hesc hname ih => exact .plain c hvalue hesc ih
  | escaped c hname ih => exact .escaped c ih

theorem Requests.silent (hvalue : type ≠ ENV_VALUE) (hesc : type ≠ ENV_ESC)
    (h : Requests type names body) : Silent body := by
  induction h with
  | nil => exact .nil
  | cons hname h ih => exact .plain type hvalue hesc (hname.silent ih)

theorem getD_of_drop {c : UInt8} {tail : List UInt8} (h : buf.drop i = c :: tail) :
    buf.getD i 0 = c ∧ buf.drop (i + 1) = tail := by
  constructor
  · rw [List.getD_eq_getElem?_getD, ← List.head?_drop, h]
    rfl
  · rw [← List.drop_drop, h]
    rfl

theorem envOptLoop_silent (h : Silent body) (hbuf : buf.drop i = body ++ rest)
    (hlen : len = i + body.length) (hfuel : body.length ≤ fuel) :
    envOptLoop len fuel i buf none = [] := by
  induction h generalizing i fuel with
  | nil =>
    have hend : ¬ i < len := by
      rw [hlen, List.length_nil]
      omega
    cases fuel with
    | zero => rfl
    | succ fuel => rw [envOptLoop, if_neg hend]
  | plain c hvalue hesc h ih =>
    rw [List.length_cons] at hlen hfuel
    obtain ⟨fuel, rfl⟩ : ∃ n, fuel = n + 1 := ⟨fuel - 1, by omega⟩
    obtain ⟨hc, htail⟩ := getD_of_drop hbuf
    rw [envOptLoop, if_pos (by omega), hc, if_neg hvalue, if_neg hesc]
    exact ih htail (by omega) (by omega)
  | escaped c h ih =>
    rw [List.length_cons, List.length_cons] at hlen hfuel
    obtain ⟨fuel, rfl⟩ : ∃ n, fuel = n + 1 := ⟨fuel - 1, by omega⟩
    obtain ⟨hc, htail⟩ := getD_of_drop hbuf
    obtain ⟨-, htail'⟩ := getD_of_drop htail
    have hne : ¬ ENV_ESC = ENV_VALUE := by decide
    rw [envOptLoop, if_pos (by omega), hc, if_neg hne, if_pos rfl]
    exact ih htail' (by omega) (by omega)

theorem envOptNames_eq (hesc : type ≠ ENV_ESC) (h : Requests type names body)
    (hnames : names ≠ []) : envOptNames (TELQUAL_SEND :: body ++ rest) (body.length + 1) =
      if type = ENV_VALUE then List.replicate body.length [] else [] := by
  have hpos : body.length + 1 ≠ 1 := by
    cases h with
    | nil => exact absurd rfl hnames
    | cons hname h =>
      rw [List.length_cons]
      omega
  rw [envOptNames, if_neg hpos]
  by_cases hvalue : type = ENV_VALUE
  · rw [if_pos hvalue, envOptLoop, if_pos (by omega)]
    obtain ⟨tail, rfl⟩ : ∃ tail, body = ENV_VALUE :: tail := by
      cases h with
      | nil => exact absurd rfl hnames
      | cons hname h => exact ⟨_, congrArg (· :: _) hvalue⟩
    have hfirst : (TELQUAL_SEND :: ENV_VALUE :: tail ++ rest).getD 1 0 = ENV_VALUE := rfl
    rw [if_pos hfirst]
    dsimp only
    rw [cstring_of_zero getD_set_zero_self,
      envOptLoop_zeroed getD_set_zero_self getD_set_zero_self (by omega), List.length_cons]
    have hcount : tail.length + 1 + 1 - (1 + 1) = tail.length := by omega
    rw [hcount, List.replicate_succ]
  · rw [if_neg hvalue]
    exact envOptLoop_silent (h.silent hvalue hesc) rfl (Nat.add_comm _ _) (Nat.le_succ _)

/-! ## What is added for the names -/

def requested (vars : List Enviro) (name : List UInt8) : List (List UInt8) :=
  if name = [] then exportedNames vars else [name]

theorem requested_named (h : ∀ name ∈ names, name ≠ []) :
    names.flatMap (requested vars) = names := by
  induction names with
  | nil => rfl
  | cons name names ih =>
    rw [List.flatMap_cons, requested, if_neg (h name List.mem_cons_self),
      ih fun n hn => h n (List.mem_cons_of_mem _ hn)]
    rfl

theorem envOptAddNames_done (hvars : [] ∉ exportedNames vars) (h : r.bytes.length ≤ r.size)
    (hdone : envOptAddNames vars fuel names r = .done r') :
    r'.bytes.length ≤ r'.size ∧ r'.bytes =
      r.bytes ++ ((names.flatMap (requested vars)).map (asked vars)).flatMap addedBytes := by
  induction fuel generalizing names r with
  | zero =>
    cases names with
    | nil =>
      cases hdone
      exact ⟨h, (List.append_nil _).symm⟩
    | cons name names => cases hdone
  | succ fuel ih =>
    cases names with
    | nil =>
      cases hdone
      exact ⟨h, (List.append_nil _).symm⟩
    | cons name names =>
      rw [envOptAddNames] at hdone
      rw [List.flatMap_cons, requested]
      by_cases hname : name = []
      · rw [if_pos hname] at hdone
        have hnamed : (exportedNames vars).flatMap (requested vars) = exportedNames vars :=
          requested_named fun n hn he => hvars (he ▸ hn)
        have hrest := ih h hdone
        rw [List.flatMap_append, hnamed] at hrest
        rw [if_pos hname]
        exact hrest
      · rw [if_neg hname, envOptAdd_eq _ h] at hdone
        by_cases hfit : r.bytes.length + addedLength (asked vars name) ≤
            grown r.bytes.length r.size (asked vars name)
        · rw [if_pos hfit] at hdone
          have hlength : (r.bytes ++ addedBytes (asked vars name)).length ≤
              grown r.bytes.length r.size (asked vars name) := by
            rw [List.length_append, length_addedBytes]
            exact hfit
          obtain ⟨hsize, hbytes⟩ := ih hlength hdone
          rw [if_neg hname, List.singleton_append, List.map_cons, List.flatMap_cons,
            ← List.append_assoc]
          exact ⟨hsize, hbytes⟩
        · rw [if_neg hfit] at hdone
          cases hdone

theorem envOptAddNames_endless (hvars : [] ∈ exportedNames vars) (hnames : [] ∈ names) :
    envOptAddNames vars fuel names r ≠ .done r' := by
  intro hdone
  induction fuel generalizing names r with
  | zero =>
    cases names with
    | nil => exact absurd hnames List.not_mem_nil
    | cons name names => cases hdone
  | succ fuel ih =>
    cases names with
    | nil => exact absurd hnames List.not_mem_nil
    | cons name names =>
      rw [envOptAddNames] at hdone
      by_cases hname : name = []
      · rw [if_pos hname] at hdone
        exact ih (List.mem_append_left _ hvars) hdone
      · rw [if_neg hname] at hdone
        have hrest := (List.mem_cons.mp hnames).resolve_left (Ne.symm hname)
        split at hdone
        · cases hdone
        · exact ih hrest hdone

theorem envOptAddNames_mono (k : Nat) (h : envOptAddNames vars fuel names r ≠ .unfinished) :
    envOptAddNames vars (fuel + k) names r = envOptAddNames vars fuel names r := by
  induction fuel generalizing names r with
  | zero =>
    cases names with
    | nil => cases k <;> rfl
    | cons name names => exact absurd rfl h
  | succ fuel ih =>
    rw [Nat.add_right_comm]
    cases names with
    | nil => rfl
    | cons name names =>
      rw [envOptAddNames] at h
      rw [envOptAddNames, envOptAddNames]
      by_cases hname : name = []
      · rw [if_pos hname] at h
        rw [if_pos hname, if_pos hname]
        exact ih h
      · rw [if_neg hname] at h
        rw [if_neg hname, if_neg hname]
        cases hadd : envOptAdd (asked vars name) r with
        | none => rfl
        | some r =>
          rw [hadd] at h
          exact ih h

theorem envOptReply_unique {fuel' : Nat} {o o' : Outcome (List UInt8)}
    (h : envOptReply vars emptyok fuel names = o) (h' : envOptReply vars emptyok fuel' names = o')
    (ho : o ≠ .unfinished) (ho' : o' ≠ .unfinished) : o = o' := by
  have hnames : ∀ fuel, envOptReply vars emptyok fuel names ≠ .unfinished →
      envOptAddNames vars fuel names envOptStart ≠ .unfinished := by
    intro fuel h he
    rw [envOptReply, he] at h
    exact h rfl
  subst h h'
  rw [envOptReply, envOptReply, ← envOptAddNames_mono fuel' (hnames fuel ho),
    ← envOptAddNames_mono fuel (hnames fuel' ho'), Nat.add_comm fuel' fuel]

theorem envOptAddNames_named (h : ∀ name ∈ names, name ≠ []) :
    (envOptAddNames vars names.length names r).finish emptyok =
      match (envOptAddAll (names.map (asked vars)) r).bind (envOptEnd emptyok) with
      | none => .overrun
      | some bytes => .done bytes := by
  induction names generalizing r with
  | nil => rfl
  | cons name names ih =>
    rw [List.length_cons, envOptAddNames, if_neg (h name List.mem_cons_self), List.map_cons,
      envOptAddAll]
    cases envOptAdd (asked vars name) r with
    | none => rfl
    | some r => exact ih fun n hn => h n (List.mem_cons_of_mem _ hn)

theorem envOptReply_all (hvars : [] ∉ exportedNames vars) :
    envOptReply vars true ((exportedNames vars).length + 1) [[]] =
      match envReply true ((exportedNames vars).map (asked vars)) with
      | none => .overrun
      | some bytes => .done bytes := by
  rw [envOptReply, envOptAddNames, if_pos rfl, List.append_nil]
  exact envOptAddNames_named fun n hn he => hvars (he ▸ hn)

theorem finish_eq_done {o : Outcome OptReply} {bytes : List UInt8}
    (h : o.finish emptyok = .done bytes) :
    ∃ r, o = .done r ∧ envOptEnd emptyok r = some bytes := by
  cases o with
  | overrun => cases h
  | unfinished => cases h
  | done r =>
    rw [Outcome.finish] at h
    cases hend : envOptEnd emptyok r with
    | none =>
      rw [hend] at h
      cases h
    | some b =>
      rw [hend] at h
      cases h
      exact ⟨r, rfl, hend⟩

theorem envOptReply_done (hvars : [] ∉ exportedNames vars) {bytes : List UInt8}
    (h : envOptReply vars true fuel names = .done bytes) :
    bytes = [IAC, SB, TELOPT_ENVIRON, TELQUAL_IS] ++
      ((names.flatMap (requested vars)).map (asked vars)).flatMap addedBytes ++ [IAC, SE] := by
  obtain ⟨r, hdone, hend⟩ := finish_eq_done h
  obtain ⟨hsize, hbytes⟩ := envOptAddNames_done hvars (by decide) hdone
  rw [envOptEnd_eq true hsize, if_pos (Or.inl rfl), hbytes] at hend
  split at hend
  · exact (Option.some.inj hend).symm
  · cases hend

/-! ## The entries of a reply -/

def entryStep (s : Bool × Nat) (c : UInt8) : Bool × Nat :=
  if s.1 then (false, s.2)
  else if c = IAC ∨ c = ENV_ESC then (true, s.2)
  else if c = ENV_VAR then (false, s.2 + 1)
  else (false, s.2)

def entries (bytes : List UInt8) : Nat := (bytes.foldl entryStep (false, 0)).2

theorem entryStep_byte (n : Nat) (c : UInt8) :
    (envByte c).foldl entryStep (false, n) = (false, n) := by
  rw [envByte]
  by_cases hiac : c = IAC
  · rw [if_pos hiac]
    rfl
  · rw [if_neg hiac]
    by_cases hmark : c = ENV_VALUE ∨ c = ENV_VAR ∨ c = ENV_ESC
    · rw [if_pos hmark]
      rfl
    · rw [if_neg hmark]
      have hesc : ¬ (c = IAC ∨ c = ENV_ESC) := fun h =>
        h.elim hiac fun h => hmark (Or.inr (Or.inr h))
      have hvar : ¬ c = ENV_VAR := fun h => hmark (Or.inr (Or.inl h))
      show entryStep (false, n) c = _
      rw [entryStep, if_neg Bool.false_ne_true, if_neg hesc, if_neg hvar]

theorem entryStep_text (n : Nat) (text : List UInt8) :
    (text.flatMap envByte).foldl entryStep (false, n) = (false, n) := by
  induction text with
  | nil => rfl
  | cons c text ih => rw [List.flatMap_cons, List.foldl_append, entryStep_byte, ih]

theorem entryStep_var (n : Nat) (v : Var) :
    (addedBytes v).foldl entryStep (false, n) = (false, n + 1) := by
  have hvar : entryStep (false, n) ENV_VAR = (false, n + 1) := rfl
  rw [addedBytes, List.foldl_cons, hvar, List.foldl_append, entryStep_text]
  cases v.2 with
  | none => rfl
  | some value =>
    have hvalue : entryStep (false, n + 1) ENV_VALUE = (false, n + 1) := rfl
    dsimp only
    rw [List.foldl_cons, hvalue, entryStep_text]

theorem entries_eq (vs : List Var) : entries (vs.flatMap addedBytes) = vs.length := by
  have hcount : ∀ n, (vs.flatMap addedBytes).foldl entryStep (false, n) =
      (false, n + vs.length) := by
    induction vs with
    | nil => exact fun n => rfl
    | cons v vs ih =>
      intro n
      rw [List.flatMap_cons, List.foldl_append, entryStep_var, ih, List.length_cons]
      congr 1
      omega
  rw [entries, hcount]
  exact Nat.zero_add _

/-! ## Answers name for name -/

theorem Requests.length_le (h : Requests type names body) :
    names.length ≤ body.length ∧ (names.length = body.length → ∀ name ∈ names, name = []) := by
  induction h with
  | nil => exact ⟨Nat.le_refl _, fun _ _ hn => absurd hn List.not_mem_nil⟩
  | @cons name quoted names body hname h ih =>
    obtain ⟨hle, hempty⟩ := ih
    rw [List.length_cons, List.length_cons, List.length_append]
    refine ⟨by omega, fun heq n hn => ?_⟩
    rcases List.mem_cons.mp hn with rfl | hn
    · cases hname with
      | nil => rfl
      | plain c _ _ _ hname =>
        rw [List.length_cons] at heq
        omega
      | escaped c hname =>
        rw [List.length_cons, List.length_cons] at heq
        omega
    · exact hempty (by omega) n hn

theorem envGetvalue_nil (hvars : [] ∉ exportedNames vars) : envGetvalue vars [] = none := by
  cases hfind : envFind vars [] with
  | none => rw [envGetvalue, hfind, Option.bind_none]
  | some e =>
    have hmem := List.mem_of_find?_eq_some hfind
    have hvar : e.var = some [] := by
      have hp : decide (e.var = some []) = true :=
        @List.find?_some _ (fun e : Enviro => decide (e.var = some [])) _ _ hfind
      exact of_decide_eq_true hp
    have hexport : ¬ e.doexport = true := by
      intro he
      exact hvars (List.mem_filterMap.mpr ⟨e, hmem, by rw [if_pos he, hvar]⟩)
    rw [envGetvalue, hfind, Option.bind_some, if_neg hexport]

theorem repeated_ne_answer (hvars : [] ∉ exportedNames vars) (h : Requests type names body)
    (hnames : names ≠ []) :
    (((List.replicate body.length []).flatMap (requested vars)).map (asked vars)).flatMap
      addedBytes ≠ (names.map (asked vars)).flatMap addedBytes := by
  intro heq
  obtain ⟨hle, hempty⟩ := h.length_le
  have hpos := List.length_pos_iff.mpr hnames
  have hcount := congrArg entries heq
  have hrequested : requested vars [] = exportedNames vars := if_pos rfl
  rw [entries_eq, entries_eq, List.length_map, List.length_map, List.length_flatMap,
    List.map_replicate, List.sum_replicate_nat, hrequested] at hcount
  -- there is one variable, and all the names are empty
  have hone : (exportedNames vars).length = 1 := by
    have hexported : (exportedNames vars).length ≠ 0 := by
      intro h0
      rw [h0, Nat.mul_zero] at hcount
      omega
    by_contra hne
    have htwo : body.length * 2 ≤ body.length * (exportedNames vars).length :=
      Nat.mul_le_mul_left _ (by omega)
    omega
  rw [hone, Nat.mul_one] at hcount
  obtain ⟨e, he⟩ := List.length_eq_one_iff.mp hone
  have hnil : names = List.replicate body.length [] := by
    rw [hcount]
    exact List.eq_replicate_of_mem (hempty hcount.symm)
  have hlength := congrArg List.length heq
  have hrepeat : ∀ m : Nat, (List.replicate m ([] : List UInt8)).flatMap (requested vars) =
      List.replicate m e := by
    intro m
    induction m with
    | zero => rfl
    | succ m ih =>
      rw [List.replicate_succ, List.flatMap_cons, ih, hrequested, he]
      rfl
  have hadded : ∀ m : Nat, ∀ name : List UInt8,
      (((List.replicate m name).map (asked vars)).flatMap addedBytes).length =
        m * addedLength (asked vars name) := by
    intro m name
    rw [List.map_replicate, List.length_flatMap, List.map_replicate,
      List.sum_replicate_nat, length_addedBytes]
  rw [hrepeat, hnil, hadded, hadded] at hlength
  have hlengths := Nat.eq_of_mul_eq_mul_left (by omega) hlength
  have hshort : addedLength (asked vars []) = 1 := by
    rw [asked, envGetvalue_nil hvars]
    rfl
  have hname : e ≠ [] := by
    rintro rfl
    exact hvars (he ▸ List.mem_cons_self)
  have hlong : 2 ≤ addedLength (asked vars e) := by
    have hpos := List.length_pos_iff.mpr hname
    show 2 ≤ 1 + (e.length + _) + _
    omega
  omega

/-- A request is answered as it should be exactly when it names nothing, the calls come to an end
and the block is large enough. -/
theorem environ_send_iff (vars : List Enviro) {type : UInt8} (hesc : type ≠ ENV_ESC)
    {names : List (List UInt8)} {body : List UInt8} (h : Requests type names body)
    (rest : List UInt8) :
    (∃ fuel, envOpt vars fuel (TELQUAL_SEND :: body ++ rest) (body.length + 1) =
        some (.done (answer vars names))) ↔
      names = [] ∧ [] ∉ exportedNames vars ∧
        ReplyFits true 4 OPT_REPLY_SIZE ((exportedNames vars).map (asked vars)) := by
  have hsend : ∀ fuel, envOpt vars fuel (TELQUAL_SEND :: body ++ rest) (body.length + 1) =
      some (envOptReply vars true fuel
        (envOptNames (TELQUAL_SEND :: body ++ rest) (body.length + 1))) := fun fuel => if_pos rfl
  by_cases hnames : names = []
  · subst hnames
    cases h
    have hall : envOptNames (TELQUAL_SEND :: [] ++ rest) (([] : List UInt8).length + 1) = [[]] :=
      if_pos rfl
    obtain ⟨hfit, hnot⟩ := envReply_eq true ((exportedNames vars).map (asked vars))
    constructor
    · rintro ⟨fuel, hfuel⟩
      rw [hsend, hall] at hfuel
      have hdone := Option.some.inj hfuel
      obtain ⟨r, hr, -⟩ := finish_eq_done hdone
      have hvars : [] ∉ exportedNames vars := fun hmem =>
        envOptAddNames_endless hmem List.mem_cons_self hr
      refine ⟨rfl, hvars, ?_⟩
      by_contra hover
      have hoverrun := envOptReply_all hvars
      rw [hnot hover] at hoverrun
      cases envOptReply_unique hdone hoverrun nofun nofun
    · rintro ⟨-, hvars, hfits⟩
      refine ⟨(exportedNames vars).length + 1, ?_⟩
      rw [hsend, hall, envOptReply_all hvars, hfit hfits, if_pos (Or.inl rfl)]
      rfl
  · constructor
    · rintro ⟨fuel, hfuel⟩
      rw [hsend, envOptNames_eq hesc h hnames] at hfuel
      have hdone := Option.some.inj hfuel
      exfalso
      by_cases hvalue : type = ENV_VALUE
      · rw [if_pos hvalue] at hdone
        have hbody : body.length ≠ 0 := by
          have hle := h.length_le.1
          have hpos := List.length_pos_iff.mpr hnames
          omega
        obtain ⟨r, hr, -⟩ := finish_eq_done hdone
        have hvars : [] ∉ exportedNames vars := fun hmem =>
          envOptAddNames_endless hmem (List.mem_replicate.mpr ⟨hbody, rfl⟩) hr
        have hbytes := envOptReply_done hvars hdone
        rw [answer, if_neg hnames] at hbytes
        have heq := List.append_cancel_left (List.append_cancel_right hbytes)
        exact repeated_ne_answer hvars h hnames heq.symm
      · rw [if_neg hvalue] at hdone
        have hnothing : envOptReply vars true fuel [] =
            .done [IAC, SB, TELOPT_ENVIRON, TELQUAL_IS, IAC, SE] := by
          cases fuel with
          | zero => rfl
          | succ fuel => rfl
        rw [hnothing, answer, if_neg hnames] at hdone
        have heq : [IAC, SB, TELOPT_ENVIRON, TELQUAL_IS] ++ [] ++ [IAC, SE] = _ :=
          Outcome.done.inj hdone
        have hempty := List.append_cancel_left (List.append_cancel_right heq)
        have hcount := congrArg entries hempty
        rw [entries_eq, List.length_map] at hcount
        exact hnames (List.length_eq_zero_iff.mp hcount.symm)
    · rintro ⟨hnil, -⟩
      exact absurd hnil hnames

/-- Two variables, and a request without names. -/
theorem environ_send_all :
    ∃ fuel, envOpt [⟨some [65], [66], true⟩, ⟨some [67], [68], true⟩, ⟨some [69], [70], false⟩]
        fuel [TELQUAL_SEND, 0] 1 =
      some (.done [IAC, SB, TELOPT_ENVIRON, TELQUAL_IS, 0, 65, 1, 66, 0, 67, 1, 68, IAC, SE]) :=
  (environ_send_iff [⟨some [65], [66], true⟩, ⟨some [67], [68], true⟩, ⟨some [69], [70], false⟩]
    (by decide) (@Requests.nil 1) [0]).mpr ⟨rfl, by decide, by decide, by decide, fun _ => by decide⟩

/-- A request for the first of two variables. -/
theorem environ_send_name : ¬ ∀ (vars : List Enviro) (names : List (List UInt8))
    (body rest : List UInt8), [] ∉ exportedNames vars → Requests ENV_VALUE names body →
      ∃ fuel, envOpt vars fuel (TELQUAL_SEND :: body ++ rest) (body.length + 1) =
        some (.done (answer vars names)) := by
  intro h
  have hrequest : Requests ENV_VALUE [[65]] [1, 65] :=
    .cons (.plain 65 (by decide) (by decide) (by decide) .nil) .nil
  obtain ⟨fuel, hfuel⟩ := h [⟨some [65], [66], true⟩, ⟨some [67], [68], true⟩] [[65]] [1, 65] [0]
    (by decide) hrequest
  have hreply : envOpt [⟨some [65], [66], true⟩, ⟨some [67], [68], true⟩] 6
      [TELQUAL_SEND, 1, 65, 0] 3 = some (.done [IAC, SB, TELOPT_ENVIRON, TELQUAL_IS, 0, 65, 1, 66,
        0, 67, 1, 68, 0, 65, 1, 66, 0, 67, 1, 68, IAC, SE]) := by decide
  have hdone := Option.some.inj hfuel
  have hdone' := Option.some.inj hreply
  exact absurd (envOptReply_unique hdone hdone' nofun nofun) (by decide)

end Netkit.Telnet.Client

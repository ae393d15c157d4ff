import Netkit.Telnet.Protocol

/-!
# The client's environment reply

`env_opt_start`, `env_opt_add` and `env_opt_end` of `telnet.cc` write a reply into a block from
`malloc`. `env_opt_add` makes the block larger when it seems too small: it counts the bytes of
the name and of the value and six more, but not the bytes that escaping and doubling add, and
grows by one `OPT_REPLY_SIZE` only. Writing behind the block is `none`.
-/

namespace Netkit.Telnet.Client

def OPT_REPLY_SIZE : Nat := 256

structure OptReply where
  /-- The bytes from `opt_reply` to `opt_replyp`. -/
  bytes : List UInt8
  /-- `opt_replyend - opt_reply`. -/
  size : Nat
  deriving DecidableEq

namespace OptReply

/-- `*opt_replyp++ = c`. -/
def put (c : UInt8) (r : OptReply) : Option OptReply :=
  if r.bytes.length < r.size then some { r with bytes := r.bytes ++ [c] } else none

def putAll : List UInt8 → OptReply → Option OptReply
  | [], r => some r
  | c :: cs, r => (r.put c).bind (putAll cs)

theorem putAll_eq (cs : List UInt8) (r : OptReply) (h : r.bytes.length ≤ r.size) :
    r.putAll cs =
      if r.bytes.length + cs.length ≤ r.size then some { r with bytes := r.bytes ++ cs }
      else none := by
  induction cs generalizing r with
  | nil => simp [putAll, h]
  | cons c cs ih =>
    rw [putAll, put]
    by_cases hlt : r.bytes.length < r.size
    · have hlen : (r.bytes ++ [c]).length = r.bytes.length + 1 := by simp
      rw [if_pos hlt, Option.bind_some, ih _ (by simp only [hlen]; omega)]
      simp only [hlen, List.length_cons, List.append_assoc, List.singleton_append]
      congr 2
      omega
    · rw [if_neg hlt, if_neg (by rw [List.length_cons]; omega)]
      rfl

theorem putAll_append (cs ds : List UInt8) (r : OptReply) :
    r.putAll (cs ++ ds) = (r.putAll cs).bind (putAll ds) := by
  induction cs generalizing r with
  | nil => rfl
  | cons c cs ih =>
    rw [List.cons_append, putAll, putAll]
    cases r.put c with
    | none => rfl
    | some r' => exact ih r'

end OptReply

open OptReply

/-! ## The functions -/

def envOptStart : OptReply := ⟨[IAC, SB, TELOPT_ENVIRON, TELQUAL_IS], OPT_REPLY_SIZE⟩

def envByte (c : UInt8) : List UInt8 :=
  if c = IAC then [IAC, c]
  else if c = ENV_VALUE ∨ c = ENV_VAR ∨ c = ENV_ESC then [ENV_ESC, c]
  else [c]

/-- `strlen` of a value, 0 if the variable is not defined. -/
def valueLength (value : Option (List UInt8)) : Nat := (value.map List.length).getD 0

/-- The size of the block after the test at the head of `env_opt_add`. -/
def grown (used size : Nat) (v : Var) : Nat :=
  if used + valueLength v.2 + v.1.length + 6 > size then size + OPT_REPLY_SIZE else size

/-- `env_opt_add` for a variable with a name; `v.2` is `env_getvalue(ep, 1)`. -/
def envOptAdd (v : Var) (r : OptReply) : Option OptReply :=
  let r := { r with size := grown r.bytes.length r.size v }
  match (r.put ENV_VAR).bind (putAll (v.1.flatMap envByte)) with
  | none => none
  | some r =>
    match v.2 with
    | none => some r
    | some value => (r.put ENV_VALUE).bind (putAll (value.flatMap envByte))

/-- `env_opt_end`: the bytes handed to `netoring`. -/
def envOptEnd (emptyok : Bool) (r : OptReply) : Option (List UInt8) :=
  if emptyok ∨ r.bytes.length + 2 > 6 then
    ((r.put IAC).bind (put SE)).map OptReply.bytes
  else some []

def envOptAddAll : List Var → OptReply → Option OptReply
  | [], r => some r
  | v :: vars, r => (envOptAdd v r).bind (envOptAddAll vars)

def envReply (emptyok : Bool) (vars : List Var) : Option (List UInt8) :=
  (envOptAddAll vars envOptStart).bind (envOptEnd emptyok)

/-! ## When the block is large enough -/

def addedBytes (v : Var) : List UInt8 :=
  ENV_VAR :: (v.1.flatMap envByte ++
    match v.2 with
    | none => []
    | some value => ENV_VALUE :: value.flatMap envByte)

/-- How many bytes a name or a value takes: one for each byte, and one more for each `IAC` and
each of the three marks. -/
def textLength (text : List UInt8) : Nat :=
  text.length + text.countP (fun c => c = IAC ∨ c = ENV_VALUE ∨ c = ENV_VAR ∨ c = ENV_ESC)

def addedLength (v : Var) : Nat :=
  1 + textLength v.1 + (v.2.map fun value => 1 + textLength value).getD 0

/-- With `used` bytes in a block of `size` bytes, the rest of the reply fits, the block growing
as `env_opt_add` lets it grow. -/
def ReplyFits (emptyok : Bool) : Nat → Nat → List Var → Prop
  | used, size, [] => emptyok ∨ used + 2 > 6 → used + 2 ≤ size
  | used, size, v :: vars =>
    used + addedLength v ≤ grown used size v ∧
      ReplyFits emptyok (used + addedLength v) (grown used size v) vars

theorem length_flatMap_envByte (text : List UInt8) :
    (text.flatMap envByte).length = textLength text := by
  induction text with
  | nil => rfl
  | cons c text ih =>
    rw [List.flatMap_cons, List.length_append, ih, textLength, textLength, List.length_cons,
      List.countP_cons]
    unfold envByte
    by_cases h1 : c = IAC
    · simp [h1]
      omega
    · by_cases h2 : c = ENV_VALUE ∨ c = ENV_VAR ∨ c = ENV_ESC
      · simp [h1, h2]
        omega
      · simp [h1, h2]
        omega

theorem length_addedBytes (v : Var) : (addedBytes v).length = addedLength v := by
  unfold addedBytes addedLength
  cases v.2 with
  | none =>
    simp only [List.length_cons, List.length_append, length_flatMap_envByte, List.length_nil,
      Option.map_none, Option.getD_none]
    omega
  | some value =>
    simp only [List.length_cons, List.length_append, length_flatMap_envByte, Option.map_some,
      Option.getD_some]
    omega

theorem envOptAdd_eq (v : Var) {r : OptReply} (h : r.bytes.length ≤ r.size) :
    envOptAdd v r =
      if r.bytes.length + addedLength v ≤ grown r.bytes.length r.size v then
        some ⟨r.bytes ++ addedBytes v, grown r.bytes.length r.size v⟩
      else none := by
  have hgrown : r.bytes.length ≤ grown r.bytes.length r.size v := by
    unfold grown
    split <;> omega
  have hwhole : envOptAdd v r =
      OptReply.putAll (addedBytes v) { r with size := grown r.bytes.length r.size v } := by
    unfold envOptAdd addedBytes
    cases v.2 with
    | none =>
      dsimp only
      rw [List.append_nil, OptReply.putAll]
      cases (OptReply.put ENV_VAR { r with size := grown r.bytes.length r.size v }).bind
        (putAll (v.1.flatMap envByte)) <;> rfl
    | some value =>
      dsimp only
      rw [← List.cons_append, OptReply.putAll_append, OptReply.putAll]
      cases (OptReply.put ENV_VAR { r with size := grown r.bytes.length r.size v }).bind
        (putAll (v.1.flatMap envByte)) <;> rfl
  rw [hwhole, OptReply.putAll_eq _ _ hgrown, length_addedBytes]

theorem envOptEnd_eq (emptyok : Bool) {r : OptReply} (h : r.bytes.length ≤ r.size) :
    envOptEnd emptyok r =
      if emptyok ∨ r.bytes.length + 2 > 6 then
        if r.bytes.length + 2 ≤ r.size then some (r.bytes ++ [IAC, SE]) else none
      else some [] := by
  have hput : (r.put IAC).bind (put SE) = r.putAll [IAC, SE] := by
    simp only [OptReply.putAll]
    cases r.put IAC with
    | none => rfl
    | some r' => simp only [Option.bind_some]; cases r'.put SE <;> rfl
  unfold envOptEnd
  rw [hput, OptReply.putAll_eq _ _ h]
  split
  · simp only [List.length_cons, List.length_nil]
    split <;> rfl
  · rfl

theorem envOptAddAll_eq (emptyok : Bool) (vars : List Var) {r : OptReply}
    (h : r.bytes.length ≤ r.size) (hstart : 4 ≤ r.bytes.length) :
    (ReplyFits emptyok r.bytes.length r.size vars →
      (envOptAddAll vars r).bind (envOptEnd emptyok) =
        if emptyok ∨ r.bytes.length + 2 > 6 ∨ vars ≠ [] then
          some (r.bytes ++ vars.flatMap addedBytes ++ [IAC, SE])
        else some []) ∧
    (¬ ReplyFits emptyok r.bytes.length r.size vars →
      (envOptAddAll vars r).bind (envOptEnd emptyok) = none) := by
  induction vars generalizing r with
  | nil =>
    simp only [envOptAddAll, Option.bind_some, ReplyFits, envOptEnd_eq emptyok h]
    constructor
    · intro hfits
      by_cases hc : emptyok ∨ r.bytes.length + 2 > 6
      · rw [if_pos hc, if_pos (hfits hc), if_pos (by simpa using hc)]
        simp
      · rw [if_neg hc, if_neg (by simpa using hc)]
    · intro hfits
      rw [Classical.not_imp] at hfits
      rw [if_pos hfits.1, if_neg hfits.2]
  | cons v vars ih =>
    simp only [envOptAddAll, ReplyFits]
    rw [envOptAdd_eq v h]
    have hpos : 0 < addedLength v := by
      unfold addedLength
      omega
    by_cases hfit : r.bytes.length + addedLength v ≤ grown r.bytes.length r.size v
    · rw [if_pos hfit]
      have hlen : (r.bytes ++ addedBytes v).length = r.bytes.length + addedLength v := by
        rw [List.length_append, length_addedBytes]
      have hrest := ih (r := ⟨r.bytes ++ addedBytes v, grown r.bytes.length r.size v⟩)
        (by rw [hlen]; exact hfit) (by rw [hlen]; omega)
      simp only [hlen] at hrest
      rw [Option.bind_some]
      constructor
      · rintro ⟨-, hfits⟩
        rw [hrest.1 hfits, if_pos (Or.inr (Or.inl (by omega))), if_pos (by simp)]
        simp [List.append_assoc]
      · intro hfits
        exact hrest.2 fun hc => hfits ⟨hfit, hc⟩
    · rw [if_neg hfit]
      exact ⟨fun hfits => absurd hfits.1 hfit, fun _ => rfl⟩

theorem envReply_eq (emptyok : Bool) (vars : List Var) :
    (ReplyFits emptyok 4 OPT_REPLY_SIZE vars →
      envReply emptyok vars =
        if emptyok ∨ vars ≠ [] then
          some ([IAC, SB, TELOPT_ENVIRON, TELQUAL_IS] ++ vars.flatMap addedBytes ++ [IAC, SE])
        else some []) ∧
    (¬ ReplyFits emptyok 4 OPT_REPLY_SIZE vars → envReply emptyok vars = none) := by
  have h := envOptAddAll_eq emptyok vars (r := envOptStart) (by decide) (by decide)
  have hlen : envOptStart.bytes.length = 4 := rfl
  have hsize : envOptStart.size = OPT_REPLY_SIZE := rfl
  have hshort : ¬ (4 + 2 > 6) := by decide
  rw [hlen, hsize] at h
  simp only [hshort, false_or] at h
  exact h

end Netkit.Telnet.Client

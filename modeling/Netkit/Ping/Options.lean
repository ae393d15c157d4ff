import Netkit.Foundations.Runs
import Netkit.Ping.Data

/-!
# The IP options of a reply

`pr_opts` goes through the option area of a reply. It prints the addresses of route options, and
keeps the bytes of the record route that it has printed last in `old_rr`: a reply that begins with
the same ones is `(same route)`.

An address is converted by `ntohl` and then printed by `pr_addr`, which takes it in network order.
Of a record route the unused slots are not skipped, of a loose source route they are printed. The
bytes that are kept begin with the pointer, so that one or two bytes of the last address are not
among them.

* `prOpts_faithful`: in every run with such areas everything is printed as expected.
-/

namespace Netkit.Ping

open Netkit.Foundations

/-! ## Addresses -/

/-- The bytes of a `u_int32_t` in memory. -/
structure Addr where
  b0 : UInt8
  b1 : UInt8
  b2 : UInt8
  b3 : UInt8
deriving DecidableEq

def Addr.bytes (a : Addr) : Bytes := [a.b0, a.b1, a.b2, a.b3]

def Addr.reverse (a : Addr) : Addr := ⟨a.b3, a.b2, a.b1, a.b0⟩

/-- `inet_ntoa` of an address whose bytes are in network order. -/
def Addr.ntoa (a : Addr) : String :=
  toString a.b0.toNat ++ "." ++ toString a.b1.toNat ++ "." ++ toString a.b2.toNat ++ "." ++
    toString a.b3.toNat

/-- The host, the options `-n` and `-f`, and what `gethostbyaddr` finds. -/
structure Printer where
  order : ByteOrder
  numeric : Bool
  flood : Bool
  names : Addr → Option String

def ntohl : ByteOrder → Addr → Addr
  | .big, a => a
  | .little, a => a.reverse

def Addr.zero : Addr := ⟨0, 0, 0, 0⟩

/-- `%s (%s)`. -/
def withName (name : String) (a : Addr) : String := name ++ " (" ++ a.ntoa ++ ")"

/-- `pr_addr`; `snprintf` leaves at most 255 characters in `buf`. -/
def prAddr (h : Printer) (l : Addr) : String :=
  if l = .zero then "0.0.0.0"
  else if h.numeric then l.ntoa
  else match h.names l with
    | some name => String.ofList ((withName name l).toList.take 255)
    | none => l.ntoa

/-! ## Options -/

def IPOPT_EOL : UInt8 := 0

def IPOPT_NOP : UInt8 := 1

def IPOPT_RR : UInt8 := 7

def IPOPT_LSRR : UInt8 := 131

def IPOPT_MINOFF : Nat := 4

def MAX_IPOPTLEN : Nat := 40

/-- The loop over the slots of a loose source route, with what is behind `cp[i]`. The result has
what is printed, and what is then behind `cp[i]`. -/
def lsrrRoute (h : Printer) : Nat → Bytes → Option (String × Bytes)
  | j, a :: b :: c :: d :: w =>
    let text := "\t" ++ prAddr h (ntohl h.order ⟨a, b, c, d⟩)
    if j - 4 ≤ IPOPT_MINOFF then some (text, w)
    else (lsrrRoute h (j - 4) w).map fun r => (text ++ "\n" ++ r.1, r.2)
  | _, _ => none

/-- A loose source route; the pointer is skipped, and the loop not entered behind the area. -/
def prLsrr (h : Printer) : Bytes → Option (String × Bytes)
  | [] => none
  | [_] => some ("", [])
  | j :: _ :: w => if j.toNat > IPOPT_MINOFF then lsrrRoute h j.toNat w else some ("", w)

def rrRoute (h : Printer) : Nat → Nat → Bytes → Option (String × Bytes)
  | k, j, a :: b :: c :: d :: w =>
    let text := "\t" ++ prAddr h (ntohl h.order ⟨a, b, c, d⟩)
    if k ≤ 4 then some (text, w)
    else if j + 4 ≥ MAX_IPOPTLEN then some (text ++ "\t(truncated route)", w)
    else (rrRoute h (k - 4) (j + 4) w).map fun r => (text ++ "\n" ++ r.1, r.2)
  | _, _, _ => none

/-- A record route. `old` is the part of `old_rr` that `old_rrlen` counts; `first` says that `i` is
2, that is, that the option is the first of the area. -/
def prRr (h : Printer) (first : Bool) (old : Bytes) : Bytes → Option (String × Bytes × Bytes)
  | j :: p :: w =>
    let k := min p.toNat j.toNat - IPOPT_MINOFF
    if k = 0 then some ("", old, w)
    else if k < MAX_IPOPTLEN ∧ w.length + 1 < k then none
    else if k = old.length ∧ first = true ∧ (p :: w).take k = old ∧ h.flood = false then
      some ("\t(same route)", old, w.drop ((k + 3) / 4 * 4))
    else
      let old' := if k < MAX_IPOPTLEN then (p :: w).take k else []
      (rrRoute h k 0 w).map fun r => ("\nRR: " ++ r.1, old', r.2)
  | _ => none

/-- One turn of the loop: the option `c`, with what is behind it. -/
def prOption (h : Printer) (first : Bool) (old : Bytes) (c : UInt8) (w : Bytes) :
    Option (String × Bytes × Bytes) :=
  if c = IPOPT_LSRR then (prLsrr h w).map fun r => ("\nLSRR: " ++ r.1, old, r.2)
  else if c = IPOPT_RR then prRr h first old w
  else if c = IPOPT_NOP then some ("\nNOP", old, w)
  else some ("\nunknown option " ++ hex c, old, w)

/-- The loop, for at most `fuel` turns. -/
def prOptsFrom (h : Printer) : Nat → Bool → Bytes → Bytes → Option (String × Bytes)
  | _, _, [], old => some ("", old)
  | 0, _, _ :: _, _ => none
  | fuel + 1, first, c :: w, old =>
    if c = IPOPT_EOL then some ("", old)
    else (prOption h first old c w).bind fun r =>
      (prOptsFrom h fuel false r.2.2 r.2.1).map fun rest => (r.1 ++ rest.1, rest.2)

def prOpts (h : Printer) (area old : Bytes) : Option (String × Bytes) :=
  prOptsFrom h area.length true area old

/-! ## Option areas -/

/-- The slots of a route are used up to the pointer. -/
inductive Opt where
  | nop
  | lsrr (used unused : List Addr)
  | rr (used unused : List Addr)
deriving DecidableEq

def slots (as : List Addr) : Bytes := as.flatMap Addr.bytes

def routeBytes (used unused : List Addr) : Bytes :=
  UInt8.ofNat (3 + 4 * (used.length + unused.length)) :: UInt8.ofNat (4 + 4 * used.length) ::
    (slots used ++ slots unused)

def Opt.bytes : Opt → Bytes
  | .nop => [IPOPT_NOP]
  | .lsrr used unused => IPOPT_LSRR :: routeBytes used unused
  | .rr used unused => IPOPT_RR :: routeBytes used unused

/-- A well-formed option area: it may have an end of list, and anything behind it. -/
structure Area where
  opts : List Opt
  rest : Bytes
  ends : rest = [] ∨ rest.head? = some IPOPT_EOL
  length_le : (opts.flatMap Opt.bytes ++ rest).length ≤ MAX_IPOPTLEN

def Area.bytes (r : Area) : Bytes := r.opts.flatMap Opt.bytes ++ r.rest

def Area.leading (r : Area) : Option (List Addr) :=
  match r.opts with
  | .rr used _ :: _ => some used
  | _ => none

/-! ## What is to be printed -/

/-- The address in network notation, behind the name of the host if it is to be found. -/
def addrText (h : Printer) (a : Addr) : String :=
  if a = .zero then "0.0.0.0"
  else if h.numeric then a.ntoa
  else match h.names a with
    | some name => withName name a
    | none => a.ntoa

def routeText (h : Printer) : List Addr → String
  | [] => ""
  | [a] => "\t" ++ addrText h a
  | a :: as => "\t" ++ addrText h a ++ "\n" ++ routeText h as

/-- The text of one option; `known` is the route that is not to be printed again. -/
def Opt.text (h : Printer) (known : Option (List Addr)) : Opt → String
  | .nop => "\nNOP"
  | .lsrr used _ => "\nLSRR: " ++ routeText h used
  | .rr used _ =>
    if known = some used then "\t(same route)"
    else if used = [] then ""
    else "\nRR: " ++ routeText h used

def expected (h : Printer) : Option (List Addr) → List Opt → String
  | _, [] => ""
  | known, o :: opts => o.text h known ++ expected h none opts

/-! ## What is kept -/

/-- A route that has been printed, and whether all its slots were used. -/
structure Saved where
  used : List Addr
  full : Bool
deriving DecidableEq

/-- The bytes of a route that `pr_opts` keeps and compares. -/
def imprint (used : List Addr) (full : Bool) : Bytes :=
  (UInt8.ofNat (4 + 4 * used.length) :: slots used).take
    (4 * used.length - if full then 1 else 0)

/-- `old` holds what can be kept of the route. -/
def Stores (old : Bytes) : Option Saved → Prop
  | none => old = []
  | some s => s.used ≠ [] ∧ s.used.length ≤ 9 ∧ old = imprint s.used s.full

/-- The two routes have the same length and are full or not; their addresses agree but for the
last byte, or the last two bytes if they are full. -/
def alike : Option Saved → List Addr → Bool → Bool
  | some s, used, full =>
    let n := 4 * used.length - if full then 2 else 1
    s.full = full && s.used.length = used.length && (slots s.used).take n = (slots used).take n
  | none, _, _ => false

def remember (h : Printer) (first : Bool) (saved : Option Saved) : Opt → Option Saved
  | .rr used unused =>
    if used = [] ∨ (first = true ∧ alike saved used (unused = []) = true ∧ h.flood = false) then
      saved
    else some ⟨used, unused = []⟩
  | _ => saved

def rememberAll (h : Printer) : Bool → Option Saved → List Opt → Option Saved
  | _, saved, [] => saved
  | first, saved, o :: opts => rememberAll h false (remember h first saved o) opts

/-! ## The conditions -/

/-- The address reads the same from behind, if the host needs it, and fits into `buf` with the name. -/
def Shown (h : Printer) (a : Addr) : Prop :=
  (h.order = .big ∨ a.reverse = a) ∧
    (h.numeric = true ∨ a = .zero ∨
      ∀ name, h.names a = some name → (withName name a).toList.length ≤ 255)

/-- A source route has no unused slots. A record route is shown if it is not the one that is known,
and the one that is kept in its place tells whether it is. -/
def Opt.Clean (h : Printer) (known : Option (List Addr)) (saved : Option Saved) : Opt → Prop
  | .nop => True
  | .lsrr used unused => unused = [] ∧ ∀ a ∈ used, Shown h a
  | .rr used unused =>
    (known ≠ some used → ∀ a ∈ used, Shown h a) ∧ (used = [] → known ≠ some []) ∧
      (used ≠ [] →
        (known = some used ↔ alike saved used (unused = []) = true ∧ h.flood = false))

/-- The unused slots of the option are taken for an end of list, and nothing is behind them. -/
def Opt.Ends (opts : List Opt) : Opt → Prop
  | .rr _ unused => unused = [] ∨ (opts = [] ∧ (slots unused).head? = some IPOPT_EOL)
  | _ => True

def Clean (h : Printer) : Option (List Addr) → Option Saved → List Opt → Prop
  | _, _, [] => True
  | known, saved, o :: opts => o.Clean h known saved ∧ o.Ends opts ∧ Clean h none none opts

/-! ## Routes -/

variable {h : Printer} {a : Addr} {as used unused : List Addr} {w rest old : Bytes}
  {known : Option (List Addr)} {saved : Option Saved} {first : Bool} {opts : List Opt} {o : Opt}

theorem slots_cons (a : Addr) (as : List Addr) :
    slots (a :: as) = a.b0 :: a.b1 :: a.b2 :: a.b3 :: slots as := rfl

theorem length_slots (as : List Addr) : (slots as).length = 4 * as.length := by
  induction as with
  | nil => rfl
  | cons a as ih =>
    rw [slots_cons, List.length_cons, List.length_cons, List.length_cons, List.length_cons, ih,
      List.length_cons]
    omega

theorem length_routeBytes (used unused : List Addr) :
    (routeBytes used unused).length = 2 + 4 * (used.length + unused.length) := by
  rw [routeBytes, List.length_cons, List.length_cons, List.length_append, length_slots,
    length_slots]
  omega

theorem toNat_ofNat_of_lt {n : Nat} (hn : n < 256) : (UInt8.ofNat n).toNat = n := by
  rw [UInt8.toNat_ofNat']
  exact Nat.mod_eq_of_lt hn

theorem prAddr_shown (ha : Shown h a) : prAddr h (ntohl h.order a) = addrText h a := by
  have hsame : ntohl h.order a = a := by
    rcases ha.1 with hbig | hrev
    · rw [hbig, ntohl]
    · cases h.order with
      | big => rfl
      | little => exact hrev
  rw [hsame, prAddr, addrText]
  split
  · rfl
  · next hzero =>
    split
    · rfl
    · next hnumeric =>
      split
      · next name hname =>
        have hlength : (withName name a).toList.length ≤ 255 := by
          rcases ha.2 with hn | hz | hfit
          · exact absurd hn hnumeric
          · exact absurd hz hzero
          · exact hfit name hname
        rw [List.take_of_length_le hlength, String.ofList_toList]
      · rfl

theorem lsrrRoute_slots (hshown : ∀ a ∈ as, Shown h a) (hne : as ≠ []) (w : Bytes) :
    lsrrRoute h (3 + 4 * as.length) (slots as ++ w) = some (routeText h as, w) := by
  induction as with
  | nil => exact absurd rfl hne
  | cons a as ih =>
    have ha := prAddr_shown (hshown a List.mem_cons_self)
    rw [slots_cons, List.cons_append, List.cons_append, List.cons_append, List.cons_append,
      lsrrRoute, ha]
    cases as with
    | nil => rfl
    | cons b as =>
      have hmore : ¬ 3 + 4 * (a :: b :: as).length - 4 ≤ IPOPT_MINOFF := by
        simp only [List.length_cons, IPOPT_MINOFF]
        omega
      have hnext : 3 + 4 * (a :: b :: as).length - 4 = 3 + 4 * (b :: as).length := by
        simp only [List.length_cons]
        omega
      rw [if_neg hmore, hnext, ih (fun c hc => hshown c (List.mem_cons_of_mem a hc))
        (List.cons_ne_nil b as)]
      rfl

theorem rrRoute_slots (hshown : ∀ a ∈ as, Shown h a) (hne : as ≠ []) (w : Bytes) {k j : Nat}
    (hle : k ≤ 4 * as.length) (hge : 4 * as.length ≤ k + 1) (hj : j + 4 * as.length ≤ 40) :
    rrRoute h k j (slots as ++ w) = some (routeText h as, w) := by
  induction as generalizing k j with
  | nil => exact absurd rfl hne
  | cons a as ih =>
    have ha := prAddr_shown (hshown a List.mem_cons_self)
    rw [slots_cons, List.cons_append, List.cons_append, List.cons_append, List.cons_append,
      rrRoute, ha]
    cases as with
    | nil => rw [if_pos (show k ≤ 4 from hle)]; rfl
    | cons b as =>
      simp only [List.length_cons] at hle hge hj
      have hmore : ¬ k ≤ 4 := by omega
      have hroom : ¬ j + 4 ≥ MAX_IPOPTLEN := by
        unfold MAX_IPOPTLEN
        omega
      rw [if_neg hmore, if_neg hroom,
        ih (fun c hc => hshown c (List.mem_cons_of_mem a hc)) (List.cons_ne_nil b as)
          (by simp only [List.length_cons]; omega) (by simp only [List.length_cons]; omega)
          (by simp only [List.length_cons]; omega)]
      rfl

/-! ## The route that is kept -/

theorem length_imprint (used : List Addr) (full : Bool) :
    (imprint used full).length = 4 * used.length - if full then 1 else 0 := by
  rw [imprint, List.length_take, List.length_cons, length_slots]
  exact Nat.min_eq_left (by omega)

theorem imprint_cons (hne : used ≠ []) (full : Bool) :
    imprint used full = UInt8.ofNat (4 + 4 * used.length) ::
      (slots used).take (4 * used.length - if full then 2 else 1) := by
  have hpos : 0 < used.length := List.length_pos_iff.mpr hne
  have hsucc : (4 * used.length - if full then 1 else 0) =
      (4 * used.length - if full then 2 else 1) + 1 := by
    cases full with
    | false => simp only [Bool.false_eq_true, if_false]; omega
    | true => simp only [if_true]; omega
  rw [imprint, hsucc, List.take_succ_cons]

theorem imprint_eq_iff (hsaved : Stores old saved) (hne : used ≠ []) (hle : used.length ≤ 9)
    (full : Bool) : imprint used full = old ↔ alike saved used full = true := by
  cases saved with
  | none =>
    rw [show old = [] from hsaved, imprint_cons hne]
    exact ⟨fun h => absurd h (List.cons_ne_nil _ _), fun h => absurd h Bool.false_ne_true⟩
  | some s =>
    obtain ⟨hsne, hsle, rfl⟩ := hsaved
    rw [alike, Bool.and_eq_true, Bool.and_eq_true, decide_eq_true_eq, decide_eq_true_eq,
      decide_eq_true_eq]
    constructor
    · intro heq
      have hlengths := congrArg List.length heq
      rw [length_imprint, length_imprint] at hlengths
      rw [imprint_cons hne, imprint_cons hsne, List.cons.injEq] at heq
      have hpointer := congrArg UInt8.toNat heq.1
      rw [toNat_ofNat_of_lt (by omega), toNat_ofNat_of_lt (by omega)] at hpointer
      have hlen : s.used.length = used.length := by omega
      have hfull : s.full = full := by
        rw [hlen] at hlengths
        have hpos := List.length_pos_iff.mpr hne
        cases hs : s.full <;> cases full <;> simp only [hs, if_true, Bool.false_eq_true, if_false]
          at hlengths ⊢ <;> omega
      refine ⟨⟨hfull, hlen⟩, ?_⟩
      rw [hfull, hlen] at heq
      exact heq.2.symm
    · rintro ⟨⟨hfull, hlen⟩, htake⟩
      rw [imprint_cons hne, imprint_cons hsne, hfull, hlen, htake]

/-! ## One option -/

theorem prRr_routeBytes (hle : used.length + unused.length ≤ 9) (hsaved : Stores old saved)
    (hclean : (Opt.rr used unused).Clean h known (if first then saved else none)) (w : Bytes) :
    ∃ old', prRr h first old (routeBytes used unused ++ w) =
        some ((Opt.rr used unused).text h known, old', slots unused ++ w) ∧
      Stores old' (remember h first saved (.rr used unused)) := by
  obtain ⟨hshown, hknown, hrecognised⟩ := hclean
  have hk : min (4 + 4 * used.length) (3 + 4 * (used.length + unused.length)) - IPOPT_MINOFF =
      4 * used.length - if decide (unused = []) = true then 1 else 0 := by
    unfold IPOPT_MINOFF
    by_cases hfull : unused = []
    · simp only [hfull, List.length_nil, decide_true, if_true]
      omega
    · have hpos := List.length_pos_iff.mpr hfull
      simp only [hfull, decide_false, Bool.false_eq_true, if_false]
      omega
  rw [routeBytes, List.cons_append, List.cons_append, prRr, toNat_ofNat_of_lt (by omega),
    toNat_ofNat_of_lt (by omega), List.append_assoc, hk]
  by_cases hused : used = []
  · -- nothing is recorded, and nothing is printed
    subst hused
    refine ⟨old, ?_, ?_⟩
    · rw [if_pos (by simp only [List.length_nil]; omega), Opt.text, if_neg (hknown rfl),
        if_pos rfl]
      rfl
    · rw [remember, if_pos (Or.inl rfl)]
      exact hsaved
  have hpos := List.length_pos_iff.mpr hused
  have hlength := length_imprint used (decide (unused = []))
  have htake : (UInt8.ofNat (4 + 4 * used.length) :: (slots used ++ (slots unused ++ w))).take
      (4 * used.length - if decide (unused = []) = true then 1 else 0) =
        imprint used (decide (unused = [])) := by
    rw [imprint, ← List.cons_append, List.take_append_of_le_length]
    rw [List.length_cons, length_slots]
    omega
  generalize hn : (4 * used.length - if decide (unused = []) = true then 1 else 0) = k at *
  have hbounds : k ≤ 4 * used.length ∧ 4 * used.length ≤ k + 1 := by
    split at hn <;> omega
  have hread : ¬ (k < MAX_IPOPTLEN ∧ (slots used ++ (slots unused ++ w)).length + 1 < k) := by
    rw [List.length_append, length_slots]
    omega
  rw [if_neg (by omega), if_neg hread, htake]
  by_cases hsame : first = true ∧ alike saved used (unused = []) = true ∧ h.flood = false
  · obtain ⟨hfirst, halike, hflood⟩ := hsame
    have hold := (imprint_eq_iff hsaved hused (by omega) _).mpr halike
    rw [hfirst, if_pos rfl] at hrecognised
    refine ⟨old, ?_, ?_⟩
    · rw [if_pos ⟨by rw [← hold, hlength], hfirst, hold, hflood⟩, Opt.text,
        if_pos ((hrecognised hused).mpr ⟨halike, hflood⟩),
        List.drop_left' (by rw [length_slots]; omega)]
    · rw [remember, if_pos (Or.inr ⟨hfirst, halike, hflood⟩)]
      exact hsaved
  · have hnew : ¬ (k = old.length ∧ first = true ∧ imprint used (decide (unused = [])) = old ∧
        h.flood = false) := by
      rintro ⟨-, hfirst, hold, hflood⟩
      exact hsame ⟨hfirst, (imprint_eq_iff hsaved hused (by omega) _).mp hold, hflood⟩
    have hother : known ≠ some used := by
      intro hknown'
      obtain ⟨halike, hflood⟩ := (hrecognised hused).mp hknown'
      cases first with
      | true => exact hsame ⟨rfl, halike, hflood⟩
      | false => exact absurd halike Bool.false_ne_true
    refine ⟨imprint used (decide (unused = [])), ?_, ?_⟩
    · rw [if_neg hnew, rrRoute_slots (hshown hother) hused (slots unused ++ w) hbounds.1 hbounds.2
        (by omega), Opt.text, if_neg hother, if_neg hused,
        if_pos (show k < MAX_IPOPTLEN by unfold MAX_IPOPTLEN; omega)]
      rfl
    · rw [remember, if_neg (by rintro (hnil | hall); exact hused hnil; exact hsame hall)]
      exact ⟨hused, show used.length ≤ 9 by omega, rfl⟩

theorem prLsrr_routeBytes (hle : used.length ≤ 9) (hshown : ∀ a ∈ used, Shown h a) (w : Bytes) :
    prLsrr h (routeBytes used [] ++ w) = some (routeText h used, w) := by
  rw [routeBytes, List.cons_append, List.cons_append, prLsrr, List.length_nil, Nat.add_zero,
    toNat_ofNat_of_lt (by omega), List.append_assoc]
  cases used with
  | nil => rfl
  | cons a as =>
    have hlong : 3 + 4 * (a :: as).length > IPOPT_MINOFF := by
      simp only [List.length_cons, IPOPT_MINOFF]
      omega
    rw [if_pos hlong]
    exact lsrrRoute_slots hshown (List.cons_ne_nil a as) w

/-- The unused slots of a record route; the other options leave nothing. -/
def Opt.left : Opt → Bytes
  | .rr _ unused => slots unused
  | _ => []

theorem prOption_text (hle : o.bytes.length ≤ MAX_IPOPTLEN) (hsaved : Stores old saved)
    (hclean : o.Clean h known (if first then saved else none)) (w : Bytes) :
    ∃ c body old', o.bytes = c :: body ∧ c ≠ IPOPT_EOL ∧
      prOption h first old c (body ++ w) = some (o.text h known, old', o.left ++ w) ∧
      Stores old' (remember h first saved o) := by
  unfold MAX_IPOPTLEN at hle
  cases o with
  | nop => exact ⟨IPOPT_NOP, [], old, rfl, by decide, rfl, hsaved⟩
  | lsrr used unused =>
    obtain ⟨rfl, hshown⟩ := hclean
    rw [Opt.bytes, List.length_cons, length_routeBytes, List.length_nil] at hle
    refine ⟨IPOPT_LSRR, routeBytes used [], old, rfl, by decide, ?_, hsaved⟩
    rw [prOption, if_pos rfl, prLsrr_routeBytes (by omega) hshown]
    rfl
  | rr used unused =>
    rw [Opt.bytes, List.length_cons, length_routeBytes] at hle
    obtain ⟨old', hrun, hstores⟩ := prRr_routeBytes (by omega) hsaved hclean w
    refine ⟨IPOPT_RR, routeBytes used unused, old', rfl, by decide, ?_, hstores⟩
    rw [prOption, if_neg (by decide), if_pos rfl]
    exact hrun

/-! ## All options -/

theorem prOptsFrom_eol {fuel : Nat} (hw : w = [] ∨ w.head? = some IPOPT_EOL)
    (hfuel : w.length ≤ fuel) : prOptsFrom h fuel first w old = some ("", old) := by
  cases w with
  | nil => rw [prOptsFrom]
  | cons c w =>
    obtain ⟨fuel, rfl⟩ : ∃ n, fuel = n + 1 := ⟨fuel - 1, by
      rw [List.length_cons] at hfuel
      omega⟩
    rcases hw with hw | hw
    · cases hw
    · rw [prOptsFrom, if_pos (Option.some.inj hw)]

/-- The induction is on the options; behind the first one, no route is known. -/
theorem prOptsFrom_expected (hrest : rest = [] ∨ rest.head? = some IPOPT_EOL)
    (hle : (opts.flatMap Opt.bytes).length ≤ MAX_IPOPTLEN) {fuel : Nat}
    (hfuel : (opts.flatMap Opt.bytes ++ rest).length ≤ fuel) (hsaved : Stores old saved)
    (hclean : Clean h known (if first then saved else none) opts) :
    ∃ old', prOptsFrom h fuel first (opts.flatMap Opt.bytes ++ rest) old =
        some (expected h known opts, old') ∧ Stores old' (rememberAll h first saved opts) := by
  induction opts generalizing fuel first saved known old with
  | nil => exact ⟨old, prOptsFrom_eol hrest hfuel, hsaved⟩
  | cons o opts ih =>
    obtain ⟨ho, hends, hopts⟩ := hclean
    rw [List.flatMap_cons, List.length_append] at hle
    obtain ⟨c, body, old₁, hbytes, hc, hoption, hstores⟩ :=
      prOption_text (by omega) hsaved ho (opts.flatMap Opt.bytes ++ rest)
    rw [List.flatMap_cons, hbytes, List.append_assoc, List.cons_append] at hfuel ⊢
    obtain ⟨fuel, rfl⟩ : ∃ n, fuel = n + 1 := ⟨fuel - 1, by
      rw [List.length_cons] at hfuel
      omega⟩
    rw [prOptsFrom, if_neg hc, hoption, Option.bind_some]
    dsimp only
    rw [List.length_cons, List.length_append] at hfuel
    have hnext : ∃ old', prOptsFrom h fuel false (o.left ++ (opts.flatMap Opt.bytes ++ rest)) old₁ =
        some (expected h none opts, old') ∧
          Stores old' (rememberAll h false (remember h first saved o) opts) := by
      by_cases hleft : o.left = []
      · rw [hleft, List.nil_append]
        exact ih (by omega) (by omega) hstores hopts
      · -- the unused slots end the list
        cases o with
        | nop => exact absurd rfl hleft
        | lsrr used unused => exact absurd rfl hleft
        | rr used unused =>
          rcases hends with hunused | ⟨rfl, hhead⟩
          · exact absurd (congrArg slots hunused) hleft
          · refine ⟨old₁, prOptsFrom_eol (Or.inr ?_) ?_, hstores⟩
            · rw [Opt.left, List.head?_append, hhead]
              rfl
            · have hbody := congrArg List.length hbytes
              rw [Opt.bytes, List.length_cons, List.length_cons, length_routeBytes] at hbody
              rw [Opt.left, List.length_append, length_slots]
              omega
    obtain ⟨old', hrun, hstores'⟩ := hnext
    exact ⟨old', by rw [hrun]; rfl, hstores'⟩

/-! ## Replies -/

/-- What `pr_opts` keeps; the route of the last reply that began with one, and the route that has
been printed last, are not in the code. -/
structure Shows where
  old : Bytes
  known : Option (List Addr)
  saved : Option Saved

def Shows.start : Shows := ⟨[], none, none⟩

def showStep (h : Printer) (s : Shows) (r : Area) : Option Shows :=
  (prOpts h r.bytes s.old).map fun result =>
    { old := result.2
      known := r.leading.or s.known
      saved := rememberAll h true s.saved r.opts }

/-- The function comes to its end within the area, and has printed what is in it. -/
def Faithful (h : Printer) (s : Shows) (r : Area) : Prop :=
  ∃ old', prOpts h r.bytes s.old = some (expected h s.known r.opts, old')

/-- A run of replies with areas that are clean is printed to its end, and every one of them as it
is. -/
theorem prOpts_faithful (h : Printer) (replies : List Area)
    (hclean : Steps (fun s r => Clean h s.known s.saved r.opts) (showStep h) .start replies) :
    Steps (Faithful h) (showStep h) .start replies ∧
      ∃ u, run (showStep h) .start replies = some u := by
  have hstep (s : Shows) (r : Area) (hs : Stores s.old s.saved)
      (hr : Clean h s.known s.saved r.opts) : Faithful h s r ∧
        ∃ t, showStep h s r = some t ∧ Stores t.old t.saved := by
    have hle := r.length_le
    rw [List.length_append] at hle
    obtain ⟨old', hrun, hstores⟩ := @prOptsFrom_expected h r.rest s.old s.known s.saved true r.opts
      r.ends (by omega) r.bytes.length (Nat.le_refl _) hs hr
    have hprints : prOpts h r.bytes s.old = some (expected h s.known r.opts, old') := hrun
    exact ⟨⟨old', hprints⟩, _, by rw [showStep, hprints]; rfl, hstores⟩
  suffices hall : ∀ s : Shows, Stores s.old s.saved →
      Steps (fun s r => Clean h s.known s.saved r.opts) (showStep h) s replies →
        Steps (Faithful h) (showStep h) s replies ∧ ∃ u, run (showStep h) s replies = some u from
    hall .start rfl hclean
  clear hclean
  induction replies with
  | nil => exact fun s _ _ => ⟨trivial, s, rfl⟩
  | cons r replies ih =>
    intro s hs hclean
    obtain ⟨hfaithful, t, ht, hstores⟩ := hstep s r hs hclean.1
    obtain ⟨hsteps, u, hu⟩ := ih t hstores (hclean.2 t ht)
    refine ⟨⟨hfaithful, fun v hv => ?_⟩, u, run_cons_eq_some.mpr ⟨t, ht, hu⟩⟩
    obtain rfl := Option.some.inj (ht.symm.trans hv)
    exact hsteps

def areaOne : Area where
  opts := [.rr [⟨10, 0, 0, 1⟩] []]
  rest := [IPOPT_EOL]
  ends := Or.inr rfl
  length_le := by decide

/-- `ping -n` on a host of the byte order. -/
def printer (order : ByteOrder) : Printer := ⟨order, true, false, fun _ => none⟩

/-- The address `10.0.0.1` is printed as `1.0.0.10`. -/
theorem not_prOpts_faithful :
    ¬ ∀ (h : Printer) (replies : List Area), Steps (Faithful h) (showStep h) .start replies := by
  intro h
  obtain ⟨old', hrun⟩ := (h (printer .little) [areaOne]).1
  have htext := congrArg (Option.map Prod.fst) hrun
  have hwrong : Option.map Prod.fst (prOpts (printer .little) areaOne.bytes []) ≠
      some (expected (printer .little) none areaOne.opts) := by
    decide +kernel
  exact hwrong htext

/-- The same route twice. -/
theorem prOpts_faithful_same :
    Steps (Faithful (printer .big)) (showStep (printer .big)) .start [areaOne, areaOne] ∧
      ∃ u, run (showStep (printer .big)) .start [areaOne, areaOne] = some u := by
  have hshown : ∀ a ∈ [(⟨10, 0, 0, 1⟩ : Addr)], Shown (printer .big) a := fun a _ =>
    ⟨Or.inl rfl, Or.inl rfl⟩
  refine prOpts_faithful (printer .big) [areaOne, areaOne] ⟨?_, fun t ht => ⟨?_, fun _ _ => trivial⟩⟩
  · exact ⟨⟨fun _ => hshown, fun h => absurd h (by decide), fun _ => by decide⟩, Or.inl rfl, trivial⟩
  · obtain rfl := Option.some.inj ht
    exact ⟨⟨fun _ => hshown, fun h => absurd h (by decide), fun _ => by decide⟩, Or.inl rfl, trivial⟩

end Netkit.Ping

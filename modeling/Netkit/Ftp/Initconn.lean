import Netkit.Ftp.Framing
import Netkit.Ftpd.Sentences

/-!
# The address of the data connection

For a transfer one side listens, and tells the other one where, as six numbers in a line of the
control connection. With `PORT` the client listens, and the line goes through the scanner and the
grammar of ftpd; with `PASV` the server does, and `getreply` takes the numbers out of its reply.

* `port_agreed`, `pasv_agreed`: either way, the other side has the address that is meant.
-/

namespace Netkit.Ftp

open Netkit.Foundations

/-- The bytes of `sin_addr` and of `sin_port`. -/
structure Endpoint where
  h1 : UInt8
  h2 : UInt8
  h3 : UInt8
  h4 : UInt8
  p1 : UInt8
  p2 : UInt8

def Endpoint.address (e : Endpoint) : Ftpd.Data.Address where
  host := ((e.h1.toNat * 256 + e.h2.toNat) * 256 + e.h3.toNat) * 256 + e.h4.toNat
  port := e.p1.toNat * 256 + e.p2.toNat

/-- `%d,%d,%d,%d,%d,%d`, as both sides print it. -/
def Endpoint.numbers (e : Endpoint) : Bytes := passiveAddress e.h1 e.h2 e.h3 e.h4 e.p1 e.p2

/-- What `command` writes. -/
def commandLine (text : Bytes) : Bytes := text ++ [13, 10]

def portLine (e : Endpoint) : Bytes := commandLine (ascii "PORT " ++ e.numbers)

/-! ## The numbers of a reply -/

def isSpace (c : UInt8) : Bool := c == 32 || (decide (9 ≤ c.toNat) && decide (c.toNat ≤ 13))

/-- `%ld` of `sscanf`, stored as an `u_long`, and the text behind it. -/
def scanLong (text : Bytes) : Option (UInt64 × Bytes) :=
  let text := text.dropWhile isSpace
  let signed := decide (text.head? = some 45 ∨ text.head? = some 43)
  let body := if signed then text.tail else text
  let digits := body.takeWhile isDigit
  if digits = [] then none
  else
    let n := value digits
    let long := if text.head? = some 45 then - UInt64.ofNat (min n 9223372036854775808)
      else UInt64.ofNat (min n 9223372036854775807)
    some (long, body.dropWhile isDigit)

/-- `n` numbers with commas between them. -/
def scanLongs : ℕ → Bytes → Option (List UInt64)
  | 0, _ => some []
  | 1, text => (scanLong text).map fun r => [r.1]
  | n + 1, text =>
    match scanLong text with
    | some (long, 44 :: rest) => (scanLongs n rest).map (long :: ·)
    | _ => none

/-- The address that `initconn` connects to in passive mode, if it finds one in `pasv`. `htonl` and
`htons` keep the low bits of their arguments. -/
def passiveTarget (pasv : Bytes) : Option Ftpd.Data.Address :=
  match scanLongs 6 (cstring pasv) with
  | some [a1, a2, a3, a4, p1, p2] =>
    some ⟨((a1 <<< 24) ||| (a2 <<< 16) ||| (a3 <<< 8) ||| a4).toUInt32.toNat,
      ((p1 <<< 8) ||| p2).toUInt16.toNat⟩
  | _ => none

theorem decimal_head (n : ℕ) : ∃ d ds, Foundations.decimal n = d :: ds ∧ isDigit d = true := by
  have hpos := Nat.length_toDigits_pos (b := 10) (n := n)
  cases h : Foundations.decimal n with
  | nil =>
    rw [Foundations.decimal, List.map_eq_nil_iff] at h
    rw [h] at hpos
    exact absurd hpos (Nat.lt_irrefl 0)
  | cons d ds => exact ⟨d, ds, rfl, decimal_digits n d (h ▸ List.mem_cons_self)⟩

theorem scanLong_decimal (b : UInt8) {rest : Bytes} (hrest : ∀ c ∈ rest.head?, isDigit c = false) :
    scanLong (decimal b ++ rest) = some (b.toUInt64, rest) := by
  have hspan : (decimal b ++ rest).takeWhile isDigit = decimal b ∧
      (decimal b ++ rest).dropWhile isDigit = rest := by
    have hall : ∀ c ∈ decimal b, isDigit c = true := decimal_digits b.toNat
    rw [List.takeWhile_append_of_pos hall, List.dropWhile_append_of_pos hall]
    cases rest with
    | nil => exact ⟨List.append_nil _, rfl⟩
    | cons c rest =>
      have hc : ¬ isDigit c = true := by
        rw [hrest c rfl]
        exact Bool.false_ne_true
      rw [List.takeWhile_cons_of_neg hc, List.dropWhile_cons_of_neg hc, List.append_nil]
      exact ⟨rfl, rfl⟩
  obtain ⟨d, ds, hd, hdigit⟩ := decimal_head b.toNat
  have hcons : decimal b ++ rest = d :: (ds ++ rest) := congrArg (· ++ rest) hd
  have hbounds : 48 ≤ d.toNat ∧ d.toNat ≤ 57 := by
    rwa [isDigit, Bool.and_eq_true, decide_eq_true_iff, decide_eq_true_iff] at hdigit
  have hspace : isSpace d = false := by
    rw [isSpace, Bool.or_eq_false_iff, beq_eq_false_iff_ne, Bool.and_eq_false_iff,
      decide_eq_false_iff_not, decide_eq_false_iff_not]
    refine ⟨?_, Or.inr (by omega)⟩
    rintro rfl
    exact absurd hbounds.1 (by decide)
  have hdrop : (decimal b ++ rest).dropWhile isSpace = decimal b ++ rest := by
    rw [hcons, List.dropWhile_cons_of_neg (by rw [hspace]; exact Bool.false_ne_true)]
  have hsign : (decimal b ++ rest).head? ≠ some 45 ∧ (decimal b ++ rest).head? ≠ some 43 := by
    rw [hcons, List.head?_cons]
    constructor <;>
    · intro h
      rw [Option.some.inj h] at hbounds
      exact absurd hbounds.1 (by decide)
  have hne : decimal b ≠ [] := by
    intro h
    rw [show decimal b = d :: ds from hd] at h
    cases h
  have hvalue : value (decimal b) = b.toNat := value_decimal b.toNat
  have hlt := b.toNat_lt
  unfold scanLong
  dsimp only
  rw [hdrop, decide_eq_false (not_or.mpr hsign), if_neg Bool.false_ne_true, hspan.1, hspan.2,
    if_neg hne, if_neg hsign.1, hvalue, Nat.min_eq_left (by omega),
    UInt64.ofNat_uInt8ToNat]

theorem shifted_or {a b i : ℕ} (h : b < 2 ^ i) : a <<< i ||| b = a * 2 ^ i + b := by
  rw [← Nat.shiftLeft_add_eq_or_of_lt h, Nat.shiftLeft_eq]

theorem packed_address (e : Endpoint) :
    (⟨((e.h1.toUInt64 <<< 24) ||| (e.h2.toUInt64 <<< 16) ||| (e.h3.toUInt64 <<< 8) |||
        e.h4.toUInt64).toUInt32.toNat,
      ((e.p1.toUInt64 <<< 8) ||| e.p2.toUInt64).toUInt16.toNat⟩ : Ftpd.Data.Address) =
        e.address := by
  have h1 := e.h1.toNat_lt
  have h2 := e.h2.toNat_lt
  have h3 := e.h3.toNat_lt
  have h4 := e.h4.toNat_lt
  have p1 := e.p1.toNat_lt
  have p2 := e.p2.toNat_lt
  have hshift (b : UInt8) (k : ℕ) (hk : k ≤ 24) :
      b.toNat <<< k % 2 ^ 64 = b.toNat <<< k := by
    apply Nat.mod_eq_of_lt
    rw [Nat.shiftLeft_eq]
    have hpow : 2 ^ k ≤ 2 ^ 24 := Nat.pow_le_pow_right (by decide) hk
    have hle := Nat.mul_le_mul (Nat.le_of_lt b.toNat_lt) hpow
    omega
  have hhost : e.h1.toNat <<< 24 ||| e.h2.toNat <<< 16 ||| e.h3.toNat <<< 8 ||| e.h4.toNat =
      e.address.host := by
    have hlow := @shifted_or e.h3.toNat _ 8 h4
    have hmiddle := @shifted_or e.h2.toNat (e.h3.toNat * 2 ^ 8 + e.h4.toNat) 16 (by omega)
    rw [Nat.or_assoc, Nat.or_assoc, hlow, hmiddle, shifted_or (by omega), Endpoint.address]
    dsimp only
    omega
  have hport : e.p1.toNat <<< 8 ||| e.p2.toNat = e.address.port :=
    shifted_or p2
  have hless : e.address.host < 2 ^ 32 ∧ e.address.port < 2 ^ 16 := by
    rw [Endpoint.address]
    dsimp only
    omega
  have heq : e.address = ⟨e.address.host, e.address.port⟩ := rfl
  rw [heq]
  congr 1
  · rw [UInt64.toNat_toUInt32, UInt64.toNat_or, UInt64.toNat_or, UInt64.toNat_or,
      UInt64.toNat_shiftLeft, UInt64.toNat_shiftLeft, UInt64.toNat_shiftLeft]
    show (e.h1.toNat <<< 24 % 2 ^ 64 ||| e.h2.toNat <<< 16 % 2 ^ 64 |||
      e.h3.toNat <<< 8 % 2 ^ 64 ||| e.h4.toNat) % 2 ^ 32 = _
    rw [hshift _ _ (by omega), hshift _ _ (by omega), hshift _ _ (by omega), hhost,
      Nat.mod_eq_of_lt hless.1]
  · rw [UInt64.toNat_toUInt16, UInt64.toNat_or, UInt64.toNat_shiftLeft]
    show (e.p1.toNat <<< 8 % 2 ^ 64 ||| e.p2.toNat) % 2 ^ 16 = _
    rw [hshift _ _ (by omega), hport, Nat.mod_eq_of_lt hless.2]

theorem passiveTarget_numbers (e : Endpoint) (rest : Bytes) :
    passiveTarget (e.numbers ++ 0 :: rest) = some e.address := by
  have hcomma (text : Bytes) : ∀ c ∈ ((44 : UInt8) :: text).head?, isDigit c = false := by
    intro c hc
    rw [← Option.some.inj hc]
    rfl
  have hzero : (0 : UInt8) ∉ e.numbers := by
    have hdecimal (b : UInt8) : (0 : UInt8) ∉ decimal b :=
      fun hmem => absurd (decimal_digits b.toNat 0 hmem) (by decide)
    simp [Endpoint.numbers, passiveAddress, hdecimal]
  have hscan : scanLongs 6 e.numbers = some [e.h1.toUInt64, e.h2.toUInt64, e.h3.toUInt64,
      e.h4.toUInt64, e.p1.toUInt64, e.p2.toUInt64] := by
    have hlast := @scanLong_decimal e.p2 [] (fun c hc => absurd hc (by simp))
    rw [List.append_nil] at hlast
    simp only [Endpoint.numbers, passiveAddress, scanLongs, scanLong_decimal _ (hcomma _), hlast,
      Option.map_some]
  unfold passiveTarget
  rw [cstring_append_zero, cstring_eq_self hzero, hscan]
  exact congrArg some (packed_address e)

/-! ## What ftpd reads -/

def Endpoint.hostPort (e : Endpoint) : Ftpd.Data.HostPort :=
  ⟨e.h1.toNat, e.h2.toNat, e.h3.toNat, e.h4.toNat, e.p1.toNat, e.p2.toNat⟩

def Endpoint.tokens (e : Endpoint) : List Ftpd.Token :=
  [.SP, .NUMBER e.h1.toNat, .COMMA, .NUMBER e.h2.toNat, .COMMA, .NUMBER e.h3.toNat, .COMMA,
    .NUMBER e.h4.toNat, .COMMA, .NUMBER e.p1.toNat, .COMMA, .NUMBER e.p2.toNat]

theorem tokens_text (e : Endpoint) : e.tokens.flatMap Ftpd.Token.text = 32 :: e.numbers := by
  have hdecimal (b : UInt8) : Foundations.decimal b.toNat = decimal b := rfl
  simp [Endpoint.tokens, Endpoint.numbers, passiveAddress, Ftpd.Token.text, hdecimal]

theorem tokens_written (e : Endpoint) : Ftpd.Written .ARGS e.tokens := by
  have hlt (b : UInt8) : b.toNat < 2147483648 := Nat.lt_trans b.toNat_lt (by decide)
  have hcomma (ts : List Ftpd.Token) (i : Int) :
      (Ftpd.Token.COMMA :: ts).head? ≠ some (.NUMBER i) := fun h => nomatch Option.some.inj h
  exact .args rfl (.number (hlt _) (hcomma _) (.args rfl (.number (hlt _) (hcomma _) (.args rfl
    (.number (hlt _) (hcomma _) (.args rfl (.number (hlt _) (hcomma _) (.args rfl
      (.number (hlt _) (hcomma _) (.args rfl (.number (hlt _) (fun i h => nomatch h)
        .argsEnd)))))))))))

theorem numbers_visible (e : Endpoint) : ∀ c ∈ e.numbers, 13 < c.toNat ∧ c.toNat < 64 := by
  have hdecimal (b : UInt8) : ∀ c ∈ decimal b, 13 < c.toNat ∧ c.toNat < 64 := by
    intro c hc
    have hdigit := decimal_digits b.toNat c hc
    rw [isDigit, Bool.and_eq_true, decide_eq_true_iff, decide_eq_true_iff] at hdigit
    omega
  have hcomma : 13 < (44 : UInt8).toNat ∧ (44 : UInt8).toNat < 64 := by decide
  simp only [Endpoint.numbers, passiveAddress, List.forall_mem_append, List.forall_mem_cons]
  exact ⟨hdecimal _, hcomma, hdecimal _, hcomma, hdecimal _, hcomma, hdecimal _, hcomma,
    hdecimal _, hcomma, hdecimal _⟩

theorem plain_self {w : Bytes} (hw : Telnet.IAC ∉ w) : Ftpd.plain w = some w := by
  induction w with
  | nil => rfl
  | cons c w ih =>
    rw [List.mem_cons, not_or] at hw
    rw [Ftpd.plain.eq_def]
    dsimp only
    rw [if_neg (Ne.symm hw.1), ih hw.2]
    rfl

theorem port_sentence (e : Endpoint) :
    Ftpd.Sentence (Ftpd.tab "PORT" .PORT .ARGS true "<sp> b0, b1, b2, b3, b4") e.tokens
      (ascii "PORT " ++ e.numbers ++ [13]) := by
  have hnumbers := numbers_visible e
  have hmem {c : UInt8} (hc : ¬ (13 < c.toNat ∧ c.toNat < 64))
      (hword : c ∉ ascii "PORT " ∧ c ∉ ([13] : Bytes)) :
      c ∉ ascii "PORT " ++ e.numbers ++ [13] := by
    simp only [List.mem_append, not_or]
    exact ⟨⟨hword.1, fun h => hc (hnumbers c h)⟩, hword.2⟩
  have htext : ascii "PORT" ++ e.tokens.flatMap Ftpd.Token.text = ascii "PORT " ++ e.numbers := by
    rw [tokens_text]
    rfl
  refine ⟨⟨rfl, rfl⟩, tokens_written e, ?_, hmem (by decide) (by decide), ?_, ?_⟩
  · intro t ht
    exact (Option.some.inj ht).symm
  · rw [plain_self (hmem (by decide) (by decide))]
    exact congrArg (fun w => some (w ++ [13])) htext.symm
  · show (ascii "PORT" ++ e.tokens.flatMap Ftpd.Token.text).length < 510
    have hlength := (passiveAddress_spec e.h1 e.h2 e.h3 e.h4 e.p1 e.p2).1
    rw [htext, List.length_append]
    have hword : (ascii "PORT ").length = 5 := rfl
    unfold Endpoint.numbers
    omega

/-- The server waits for a command of a client that has logged in. -/
structure Waits (s : Ftpd.Server) : Prop where
  present : s.login.exited = false ∧ s.data.astray = false
  state : s.lexer.state = .CMD
  tmpline : s.lexer.tmpline = []
  loggedIn : s.login.loggedIn = true

/-- The server lets the address be reached: if it checks that, the port is not a reserved one and
the host is that of the client. -/
def Permits (d : Ftpd.Data.Session) (e : Endpoint) : Prop :=
  d.portcheck = true →
    Ftpd.Data.IPPORT_RESERVED ≤ e.address.port ∧ e.address.host = d.hisAddr.host

variable {s : Ftpd.Server} {env : Ftpd.LineEnv} {e : Endpoint} {rest : Bytes}

theorem cycle_sentence {p : Ftpd.Tab} {ts : List Ftpd.Token} {content : Bytes} {c : Ftpd.Command}
    {u : Ftpd.Server} (hs : Waits s) (h : Ftpd.Sentence p ts content)
    (hstdin : s.lexer.stdin = content ++ 10 :: rest)
    (hread : (Ftpd.ruleOf p.token).read env.glob none (ts ++ [.CRLF]) { s with replies := [] } =
      some (c, u)) :
    ∃ m : Ftpd.Lexer, Ftpd.commandCycle s env =
        some (Ftpd.finishTurn env (.command c { u with lexer := m })) ∧
      m.state = .CMD ∧ m.tmpline = [] ∧ m.stdin = rest := by
  obtain ⟨k, hparse, hoffers, hrest, hempty⟩ := Ftpd.parse_sentence env.glob
    (s := { s with replies := [] }) hs.state hs.tmpline h hstdin
  obtain ⟨m, hm, hstreams, hstate⟩ := Ftpd.parse_read env.glob hread hoffers
  refine ⟨m, ?_, hstate, hstreams.tmpline.trans hempty, hstreams.stdin.trans hrest⟩
  unfold Ftpd.commandCycle
  rw [hs.present.1, hs.present.2, Ftpd.parseCommand, hparse, hm]
  rfl

theorem read_check (hs : Waits s) (next : Bool → Ftpd.Rule) (ts : List Ftpd.Token) :
    (Ftpd.Rule.check next).read env.glob none ts { s with replies := [] } =
      (next true).read env.glob none ts { s with replies := [] } := by
  have hcheck : Ftpd.Server.checkLogin { s with replies := [] } = { s with replies := [] } := by
    unfold Ftpd.Server.checkLogin
    rw [if_pos hs.loggedIn]
  show (next s.login.loggedIn).read env.glob none ts (Ftpd.Server.checkLogin _) = _
  rw [hcheck, hs.loggedIn]

theorem hostPort_address (e : Endpoint) : e.hostPort.inRange = true ∧
    e.hostPort.address = e.address := by
  have hbyte (b : UInt8) :
      (decide ((0 : Int) ≤ b.toNat) && decide ((b.toNat : Int) ≤ 255)) = true := by
    have hlt := b.toNat_lt
    rw [Bool.and_eq_true, decide_eq_true_iff, decide_eq_true_iff]
    omega
  constructor
  · simp only [Ftpd.Data.HostPort.inRange, Endpoint.hostPort, List.all_cons, List.all_nil, hbyte,
      Bool.and_self]
  · unfold Ftpd.Data.HostPort.address Endpoint.hostPort Endpoint.address
    rfl

theorem portAction_spec {d u : Ftpd.Data.Session} (hdest : d.conns.dataDest = e.address)
    (hreplies : d.replies = []) (hu : Ftpd.Data.portAction e.hostPort d = u) :
    u.astray = d.astray ∧ u.conns.dataDest = e.address ∧
      (Permits d e → u.replies.map Ftpd.Reply.code = [200] ∧ u.conns.usedefault = false ∧
        u.conns.due = .port e.address) ∧
      (¬ Permits d e → u.replies.map Ftpd.Reply.code = [500] ∧ u.conns.usedefault = true) := by
  have hrejected (why : Bytes) (hnot : ¬ Permits d e) (heq : d.rejectPort why = u) :
      u.astray = d.astray ∧ u.conns.dataDest = e.address ∧
        (Permits d e → u.replies.map Ftpd.Reply.code = [200] ∧ u.conns.usedefault = false ∧
          u.conns.due = .port e.address) ∧
        (¬ Permits d e → u.replies.map Ftpd.Reply.code = [500] ∧ u.conns.usedefault = true) := by
    subst heq
    refine ⟨rfl, hdest, fun h => absurd h hnot, fun _ => ⟨?_, rfl⟩⟩
    exact congrArg (fun rs => (rs ++ [_]).map Ftpd.Reply.code) hreplies
  unfold Ftpd.Data.portAction at hu
  rw [(hostPort_address e).1, hdest, if_neg (by decide)] at hu
  by_cases hport : d.portcheck = true ∧ e.address.port < Ftpd.Data.IPPORT_RESERVED
  · rw [if_pos hport] at hu
    exact hrejected _ (fun h => Nat.not_lt.mpr (h hport.1).1 hport.2) hu
  · by_cases hhost : d.portcheck = true ∧ e.address.host ≠ d.hisAddr.host
    · rw [if_neg hport, if_pos hhost] at hu
      exact hrejected _ (fun h => hhost.2 (h hhost.1).2) hu
    · rw [if_neg hport, if_neg hhost] at hu
      subst hu
      have hpermits : Permits d e := fun hcheck =>
        ⟨Nat.le_of_not_lt fun h => hport ⟨hcheck, h⟩, by_contra fun h => hhost ⟨hcheck, h⟩⟩
      have hclosed : d.conns.closePassive.dataDest = e.address := by
        unfold Ftpd.Data.Conns.closePassive
        split
        · exact hdest
        · exact hdest
      refine ⟨rfl, hclosed, fun _ => ⟨?_, rfl, congrArg _ hdest⟩, fun h => absurd hpermits h⟩
      exact congrArg (fun rs => (rs ++ [_]).map Ftpd.Reply.code) hreplies

/-- **`PORT`.** Whatever the address: the server that reads the line has exactly this address, it
takes no other one for the next transfer unless its check forbids it, and it reads no more. -/
theorem port_agreed (hs : Waits s) (hstdin : s.lexer.stdin = portLine e ++ rest) :
    ∃ t, Ftpd.commandCycle s env = some t ∧ t.lexer.stdin = rest ∧ Waits t ∧
      t.data.conns.dataDest = e.address ∧
      (Permits s.data e → t.replies.map Ftpd.Reply.code = [200] ∧
        t.data.conns.usedefault = false ∧ t.data.conns.due = .port e.address) ∧
      (¬ Permits s.data e → t.replies.map Ftpd.Reply.code = [500] ∧
        t.data.conns.usedefault = true) := by
  obtain ⟨hrange, haddress⟩ := hostPort_address e
  have hline : s.lexer.stdin = (ascii "PORT " ++ e.numbers ++ [13]) ++ 10 :: rest := by
    rw [hstdin, portLine, commandLine]
    simp
  have hread : (Ftpd.ruleOf .PORT).read env.glob none (e.tokens ++ [.CRLF])
      { s with replies := [] } = some (.port true e.hostPort,
        Ftpd.Server.hostPort { s with replies := [] } e.hostPort) := (read_check hs _ _).trans rfl
  obtain ⟨m, hcycle, hstate, htmpline, hrest⟩ := cycle_sentence hs (port_sentence e) hline hread
  have hdest : (s.data.conns.hostPort e.hostPort).dataDest = e.address := by
    unfold Ftpd.Data.Conns.hostPort
    rw [if_pos hrange]
    exact haddress
  obtain ⟨u, hu⟩ : ∃ u, Ftpd.Data.portAction e.hostPort
    { s.data with conns := s.data.conns.hostPort e.hostPort, replies := [] } = u := ⟨_, rfl⟩
  obtain ⟨hastray, haddr, hyes, hno⟩ := portAction_spec hdest rfl hu
  refine ⟨_, hcycle, ?_⟩
  unfold Ftpd.finishTurn Ftpd.Server.execute Ftpd.Server.withLogin Ftpd.Server.onData
  dsimp only [Ftpd.Server.hostPort, if_true]
  rw [hu]
  exact ⟨hrest, ⟨⟨hs.present.1, hastray.trans hs.present.2⟩, hstate, htmpline, hs.loggedIn⟩, haddr,
    hyes, hno⟩

def serving (stdin : Bytes) : Ftpd.Server :=
  let s := Ftpd.Server.start ⟨0x0a000002, 1031⟩ true [] stdin
  { s with login := { s.login with loggedIn := true } }

theorem port_agreed_two : ∃ t,
    Ftpd.commandCycle (serving (portLine ⟨10, 0, 0, 2, 4, 7⟩)) Ftpd.obliging = some t ∧
      t.lexer.stdin = [] ∧ Waits t ∧ t.data.conns.dataDest = ⟨0x0a000002, 1031⟩ ∧
      t.data.conns.due = .port ⟨0x0a000002, 1031⟩ := by
  obtain ⟨t, ht, hrest, hwaits, hdest, hpermitted, -⟩ := @port_agreed
    (serving (portLine ⟨10, 0, 0, 2, 4, 7⟩)) Ftpd.obliging ⟨10, 0, 0, 2, 4, 7⟩ []
    ⟨⟨rfl, rfl⟩, rfl, rfl, rfl⟩ (List.append_nil _).symm
  exact ⟨t, ht, hrest, hwaits, hdest, (hpermitted (fun _ => ⟨by decide, rfl⟩)).2.2⟩

/-! ## What ftp reads -/

/-- What `reply` writes. -/
def sent (r : Ftpd.Reply) : Bytes :=
  Ftpd.Data.number r.code ++ (if r.more then 45 else 32) :: (r.text ++ [13, 10])

theorem ofText_line {w : Bytes} (hw : ∀ c ∈ w, c ≠ 10 ∧ c ≠ Telnet.IAC) :
    (Line.ofText w).text = w ∧ (Line.ofText w).bytes = w ++ [10] := by
  unfold Line.ofText Line.text Line.bytes
  induction w with
  | nil => exact ⟨rfl, rfl⟩
  | cons c w ih =>
    obtain ⟨htext, hbytes⟩ := ih (fun d hd => hw d (List.mem_cons_of_mem c hd))
    rw [List.filterMap_cons, dif_pos (hw c List.mem_cons_self)]
    exact ⟨congrArg (c :: ·) htext, congrArg (c :: ·) hbytes⟩

theorem pasv_sentence :
    Ftpd.Sentence (Ftpd.tab "PASV" .PASV .ARGS true "(set server in passive mode)") []
      (ascii "PASV" ++ [13]) :=
  ⟨⟨rfl, rfl⟩, .argsEnd, (fun _ h => nomatch h), by decide, rfl, by decide⟩

/-- **`PASV`.** Whatever the address on which the server listens: when the client has read the
reply, whatever it held from earlier ones, it connects to exactly this address, and has read no
more. -/
theorem pasv_agreed (hs : Waits s) (hstdin : s.lexer.stdin = commandLine (ascii "PASV") ++ rest)
    (hlistens : (env.passive.socket && (env.passive.bind && env.passive.getsockname &&
      env.passive.listen)) = true) (haddress : env.passive.address = e.numbers)
    (m : Mode) {f : Control} (hpasv : f.pasv.length = 64) (cin : Bytes) :
    ∃ t f', Ftpd.commandCycle s env = some t ∧ t.lexer.stdin = rest ∧ Waits t ∧
      (∃ h, t.data.conns.pdata = some h ∧ t.data.conns.due = .passive h) ∧
      getreply m f (t.replies.flatMap sent ++ cin) = .ok ⟨2, f', cin⟩ ∧
      passiveTarget f'.pasv = some e.address := by
  obtain ⟨hsocket, hothers⟩ := Bool.and_eq_true_iff.mp hlistens
  have hread : (Ftpd.ruleOf .PASV).read env.glob none ([] ++ [.CRLF])
      { s with replies := [] } = some (.pasv true, { s with replies := [] }) :=
    (read_check hs _ _).trans rfl
  have hline : s.lexer.stdin = (ascii "PASV" ++ [13]) ++ 10 :: rest := hstdin
  obtain ⟨k, hcycle, hstate, htmpline, hrest⟩ := cycle_sentence hs pasv_sentence hline hread
  have hpassive : Ftpd.Data.passive env.passive { s.data with replies := [] } =
      Ftpd.Data.Session.reply { s.data with conns := s.data.conns.listenPassive, replies := [] }
        227 (ascii "Entering Passive Mode (" ++ e.numbers ++ ascii ")") := by
    unfold Ftpd.Data.passive
    rw [hsocket, hothers, haddress]
    rfl
  -- The text of the reply is the one that `getreply` looks for.
  have hwire : sent ⟨227, ascii "Entering Passive Mode (" ++ e.numbers ++ ascii ")", false⟩ =
      passiveReply e.h1 e.h2 e.h3 e.h4 e.p1 e.p2 ++ [10] := by
    have hnumber : Ftpd.Data.number 227 = ascii "227" := by decide +kernel
    unfold sent passiveReply
    rw [hnumber]
    simp [ascii, Endpoint.numbers]
  have hvisible : ∀ c ∈ passiveReply e.h1 e.h2 e.h3 e.h4 e.p1 e.p2, c ≠ 10 ∧ c ≠ Telnet.IAC := by
    have hnumbers := numbers_visible e
    unfold passiveReply
    simp only [List.forall_mem_append]
    refine ⟨by decide +kernel, fun c hc => ?_, by decide +kernel⟩
    have hc' := hnumbers c hc
    constructor <;>
    · rintro rfl
      exact absurd hc' (by decide)
  obtain ⟨htext, hbytes⟩ := ofText_line hvisible
  have hcode : (⟨2, 2, 7, by decide, by decide⟩ : Code).digits ++ [32] <+:
      (Line.ofText (passiveReply e.h1 e.h2 e.h3 e.h4 e.p1 e.p2)).text := by
    rw [htext]
    exact ⟨_, rfl⟩
  have hlength := (passiveAddress_spec e.h1 e.h2 e.h3 e.h4 e.p1 e.p2).1
  have hframed : (Reply.single ⟨2, 2, 7, by decide, by decide⟩ _ hcode).Framed := by
    refine (framed_single hcode).mpr ⟨?_, fun _ => by decide⟩
    rw [htext, passiveReply, List.length_append, List.length_append]
    have hstart : (ascii "227 Entering Passive Mode (").length = 27 := rfl
    have hend : ([41, 13] : Bytes).length = 2 := rfl
    omega
  obtain ⟨f', hgot, -, -, hheld, -⟩ := getreply_framed (m := m) hpasv hframed cin
  obtain ⟨tail, htail⟩ := hheld e.h1 e.h2 e.h3 e.h4 e.p1 e.p2 (congrArg (fun w => [w]) htext)
  refine ⟨_, f', hcycle, ?_⟩
  unfold Ftpd.finishTurn Ftpd.Server.execute Ftpd.Server.withLogin Ftpd.Server.onData
  dsimp only [if_true]
  rw [hpassive]
  refine ⟨hrest, ⟨⟨hs.present.1, hs.present.2⟩, hstate, htmpline, hs.loggedIn⟩, ⟨_, rfl, rfl⟩, ?_,
    ?_⟩
  · have hsent : (Reply.single ⟨2, 2, 7, by decide, by decide⟩ _ hcode).bytes =
        [(⟨227, ascii "Entering Passive Mode (" ++ e.numbers ++ ascii ")", false⟩ :
          Ftpd.Reply)].flatMap sent := by
      unfold Reply.bytes Reply.lines
      rw [List.flatMap_singleton, List.flatMap_singleton, hbytes, hwire]
    rw [hsent] at hgot
    exact hgot
  · rw [htail]
    exact passiveTarget_numbers e tail

def listening : Ftpd.LineEnv :=
  { Ftpd.obliging with passive := ⟨true, true, true, true, ascii "10,0,0,1,4,8", []⟩ }

theorem pasv_agreed_one : ∃ t f',
    Ftpd.commandCycle (serving (commandLine (ascii "PASV"))) listening = some t ∧
      getreply quiet idle (t.replies.flatMap sent ++ []) = .ok ⟨2, f', []⟩ ∧
      passiveTarget f'.pasv = some ⟨0x0a000001, 1032⟩ := by
  obtain ⟨t, f', ht, -, -, -, hgot, htarget⟩ := @pasv_agreed
    (serving (commandLine (ascii "PASV"))) listening ⟨10, 0, 0, 1, 4, 8⟩ []
    ⟨⟨rfl, rfl⟩, rfl, rfl, rfl⟩ (List.append_nil _).symm rfl (by decide +kernel) quiet idle rfl []
  exact ⟨t, f', ht, hgot, htarget⟩

end Netkit.Ftp

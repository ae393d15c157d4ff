import Netkit.Foundations.Decimal

/-!
# Records of rcp

What the two ends of rcp write on their connection, and what they make of it.
-/

namespace Netkit.Rcp

open Netkit.Foundations

def BUFSIZ : Nat := 8192

/-! ## The source -/

/-- What the source writes: a message of `error`, the records, the contents of a file, its final
status, and the end of a directory. A mode is `st_mode & 07777`. -/
inductive Item where
  | note (text : Bytes)
  | times (mtime atime : Int)
  | file (mode : Fin 4096) (size : Nat) (name : Bytes)
  | directory (mode : Fin 4096) (name : Bytes)
  | body (contents : Bytes)
  | status (why : Option Bytes)
  | leave
deriving DecidableEq

/-- `error`; its texts end in a newline. -/
def errorBytes (text : Bytes) : Bytes := 1 :: (text ++ [10])

/-- `%ld`. -/
def number (n : Int) : Bytes := if n < 0 then 45 :: decimal n.natAbs else decimal n.toNat

/-- `\\0` or a message. -/
def responseBytes (why : Option Bytes) : Bytes := (why.map errorBytes).getD [0]

def Item.bytes : Item → Bytes
  | .note text => errorBytes text
  | .times mtime atime =>
    84 :: (number mtime ++ 32 :: 48 :: 32 :: (number atime ++ [32, 48, 10]))
  | .file mode size name => 67 :: (octal4 mode ++ 32 :: (decimal size ++ 32 :: (name ++ [10])))
  | .directory mode name => 68 :: (octal4 mode ++ 32 :: 48 :: 32 :: (name ++ [10]))
  | .body contents => contents
  | .status why => responseBytes why
  | .leave => [69, 10]

/-! ## The sink -/

/-- What the sink makes of a record. -/
inductive Record where
  | note (text : Bytes)
  | fatal
  | times (mtime atime : Nat)
  | file (mode : Nat) (size : Int) (name : Bytes)
  | directory (mode : Nat) (name : Bytes)
  | leave
  | garbage (text : Bytes)
  | screwup (why : Bytes)
deriving DecidableEq

/-- `getnum`, and the byte behind it. -/
def getnum (s : Bytes) (delimiter : Option UInt8) : Option (Nat × Bytes) :=
  if (s.dropWhile isDigit).head? = delimiter then
    some (value (s.takeWhile isDigit), (s.dropWhile isDigit).drop 1)
  else none

/-- A `T`, behind its letter; the string ends where there is no byte. -/
def parseTimes (s : Bytes) : Record :=
  match getnum s (some 32) with
  | none => .screwup (ascii "mtime.sec not delimited")
  | some (mtime, s) =>
    match getnum s (some 32) with
    | none => .screwup (ascii "mtime.usec not delimited")
    | some (_, s) =>
      match getnum s (some 32) with
      | none => .screwup (ascii "atime.sec not delimited")
      | some (atime, s) =>
        match getnum s none with
        | none => .screwup (ascii "atime.usec not delimited")
        | some _ => .times mtime atime

/-- `size` is an `int`. -/
def wrap (n : Nat) : Int :=
  if n % 4294967296 < 2147483648 then ((n % 4294967296 : Nat) : Int)
  else ((n % 4294967296 : Nat) : Int) - 4294967296

/-- A `C` or a `D`, behind its letter. -/
def parseFile (directory : Bool) (s : Bytes) : Record :=
  if (s.take 4).length < 4 then .screwup (ascii "bad mode")
  else
    match octalValue (s.take 4) with
    | none => .screwup (ascii "bad mode")
    | some mode =>
      if (s.drop 4).head? ≠ some 32 then .screwup (ascii "mode not delimited")
      else
        match getnum (s.drop 5) (some 32) with
        | none => .screwup (ascii "size not delimited")
        | some (size, name) =>
          if directory then .directory mode name else .file mode (wrap size) name

def chomp (line : Bytes) : Bytes := if line.getLast? = some 10 then line.dropLast else line

def parseRecord (line : Bytes) : Record :=
  match line with
  | [] => .screwup (ascii "lost connection")
  | c :: line =>
    let s := cstring (chomp line)
    if c = 10 then .screwup (ascii "unexpected <newline>")
    else if c = 1 then .note s
    else if c = 2 then .fatal
    else if c = 69 then .leave
    else if c = 84 then parseTimes s
    else if c = 67 then parseFile false s
    else if c = 68 then parseFile true s
    else .garbage (c :: s)

def takeRecord : Bytes → Option (Bytes × Bytes)
  | [] => none
  | c :: stream =>
    if c = 10 then some ([10], stream)
    else (takeLine (BUFSIZ - 2) stream).map (fun p => (c :: p.1, p.2))

/-! ## Responses -/

/-- What `response` comes to: `0`, `-1` with its message, or the end of the program. -/
inductive Response where
  | ok
  | error (text : Bytes)
  | fatal
deriving DecidableEq

def takeResponse : Bytes → Option (Response × Bytes)
  | [] => none
  | c :: stream =>
    if c = 0 then some (.ok, stream)
    else
      (takeLine (BUFSIZ - 1) stream).map (fun p =>
        (if c = 1 then .error (chomp p.1) else .fatal, p.2))

/-! ## What is written is read -/

/-- A text that fits into the buffers, with its newline and the byte in front of it. -/
structure Readable (text : Bytes) : Prop where
  newline : 10 ∉ text
  nul : 0 ∉ text
  length : text.length + 2 < BUFSIZ

/-- An item that the sink reads as it is meant: its names and texts have no newline, its line fits
into the buffer, its times are not negative and its size is an `int`. -/
def Item.Plain : Item → Prop
  | .note text => Readable text
  | .times mtime atime => 0 ≤ mtime ∧ 0 ≤ atime ∧ (Item.times mtime atime).bytes.length < BUFSIZ
  | .file mode size name => size < 2147483648 ∧ 10 ∉ name ∧ 0 ∉ name ∧
    (Item.file mode size name).bytes.length < BUFSIZ
  | .directory mode name => 10 ∉ name ∧ 0 ∉ name ∧
    (Item.directory mode name).bytes.length < BUFSIZ
  | .body _ => True
  | .status why => ∀ text ∈ why, Readable text
  | .leave => True

def Item.record : Item → Option Record
  | .note text => some (.note text)
  | .times mtime atime => some (.times mtime.toNat atime.toNat)
  | .file mode size name => some (.file mode size name)
  | .directory mode name => some (.directory mode name)
  | .body _ => none
  | .status _ => none
  | .leave => some .leave

theorem chomp_line (line : Bytes) : chomp (line ++ [10]) = line := by
  rw [chomp, if_pos List.getLast?_concat, List.dropLast_concat]

theorem not_mem_digits {c : UInt8} (hc : isDigit c = false) (n : Nat) : c ∉ decimal n :=
  fun hmem => absurd (hc.symm.trans (decimal_digits n c hmem)) Bool.false_ne_true

theorem getnum_decimal (n : Nat) {c : UInt8} (hc : isDigit c = false) (rest : Bytes) :
    getnum (decimal n ++ c :: rest) (some c) = some (n, rest) := by
  obtain ⟨htake, hdrop⟩ := decimal_span n hc rest
  rw [getnum, hdrop, htake, if_pos List.head?_cons, value_decimal]
  rfl

theorem octal4_digits (mode : Nat) : ∀ c ∈ octal4 mode, 48 ≤ c.toNat ∧ c.toNat ≤ 55 := by
  have hdigit (k : Nat) : (UInt8.ofNat (48 + k % 8)).toNat = 48 + k % 8 := by
    rw [UInt8.toNat_ofNat']
    omega
  intro c hc
  simp only [octal4, List.mem_cons, List.not_mem_nil, or_false] at hc
  rcases hc with rfl | rfl | rfl | rfl
  all_goals
    rw [hdigit]
    omega

theorem not_mem_octal4 {c : UInt8} (hc : c.toNat < 48) (mode : Nat) : c ∉ octal4 mode :=
  fun hmem => Nat.not_le_of_lt hc (octal4_digits mode c hmem).1

theorem ne_of_low {c : UInt8} (hc : c.toNat < 32) : c ≠ 32 := by
  rintro rfl
  exact absurd hc (by decide)

theorem ne_of_low' {c : UInt8} (hc : c.toNat < 32) : c ≠ 48 := by
  rintro rfl
  exact absurd hc (by decide)

theorem isDigit_low {c : UInt8} (hc : c.toNat < 32) : isDigit c = false := by
  rw [isDigit, decide_eq_false (by omega), Bool.false_and]

theorem takeRecord_line {c : UInt8} (hc : c ≠ 10) {line : Bytes} (hline : 10 ∉ line)
    (hlength : line.length + 2 < BUFSIZ) (rest : Bytes) :
    takeRecord (c :: (line ++ [10]) ++ rest) = some (c :: (line ++ [10]), rest) := by
  have hsplit : c :: (line ++ [10]) ++ rest = c :: (line ++ 10 :: rest) := by
    rw [List.cons_append, List.append_assoc]
    rfl
  rw [hsplit, takeRecord, if_neg hc, takeLine_line hline (Nat.lt_sub_of_add_lt hlength)]
  rfl

theorem parseFile_directory (mode : Fin 4096) (name : Bytes) :
    parseFile true (octal4 mode ++ 32 :: 48 :: 32 :: name) = .directory mode name := by
  have hmode := octalValue_octal4 mode.isLt
  have htake : (octal4 mode ++ 32 :: 48 :: 32 :: name).take 4 = octal4 mode := rfl
  have hdrop : (octal4 mode ++ 32 :: 48 :: 32 :: name).drop 4 = 32 :: 48 :: 32 :: name := rfl
  have hdrop' : (octal4 mode ++ 32 :: 48 :: 32 :: name).drop 5 = 48 :: 32 :: name := rfl
  have hsize : getnum (48 :: 32 :: name) (some 32) = some (0, name) := rfl
  have hfour : ¬ (octal4 mode).length < 4 := Nat.lt_irrefl 4
  unfold parseFile
  rw [htake, if_neg hfour, hmode]
  dsimp only
  rw [hdrop, if_neg (fun h => h rfl), hdrop', hsize]
  rfl

theorem wrap_eq {n : Nat} (hn : n < 2147483648) : wrap n = n := by
  rw [wrap, Nat.mod_eq_of_lt (Nat.lt_trans hn (by decide)), if_pos hn]

theorem parseFile_file (mode : Fin 4096) {size : Nat} (hsize : size < 2147483648)
    (name : Bytes) :
    parseFile false (octal4 mode ++ 32 :: (decimal size ++ 32 :: name)) =
      .file mode size name := by
  have hmode := octalValue_octal4 mode.isLt
  have htake : (octal4 mode ++ 32 :: (decimal size ++ 32 :: name)).take 4 = octal4 mode := rfl
  have hdrop : (octal4 mode ++ 32 :: (decimal size ++ 32 :: name)).drop 4 =
      32 :: (decimal size ++ 32 :: name) := rfl
  have hdrop' : (octal4 mode ++ 32 :: (decimal size ++ 32 :: name)).drop 5 =
      decimal size ++ 32 :: name := rfl
  have hfour : ¬ (octal4 mode).length < 4 := Nat.lt_irrefl 4
  unfold parseFile
  rw [htake, if_neg hfour, hmode]
  dsimp only
  rw [hdrop, if_neg (fun h => h rfl), hdrop', getnum_decimal size rfl name]
  dsimp only
  rw [if_neg Bool.false_ne_true, wrap_eq hsize]

theorem parseTimes_times (mtime atime : Nat) :
    parseTimes (decimal mtime ++ 32 :: 48 :: 32 :: (decimal atime ++ [32, 48])) =
      .times mtime atime := by
  have hzero (rest : Bytes) : getnum (48 :: 32 :: rest) (some 32) = some (0, rest) := rfl
  have hend : getnum [48] none = some (0, []) := rfl
  unfold parseTimes
  rw [getnum_decimal mtime rfl]
  dsimp only
  rw [hzero]
  dsimp only
  rw [getnum_decimal atime rfl]
  dsimp only
  rw [hend]

theorem number_eq {n : Int} (hn : 0 ≤ n) : number n = decimal n.toNat :=
  if_neg (Int.not_lt.mpr hn)

theorem takeRecord_item {i : Item} {c : UInt8} (hc : c ≠ 10) {line : Bytes}
    (hbytes : i.bytes = c :: (line ++ [10])) (hline : 10 ∉ line) (hlength : i.bytes.length < BUFSIZ)
    (rest : Bytes) : takeRecord (i.bytes ++ rest) = some (c :: (line ++ [10]), rest) := by
  rw [hbytes, List.length_cons, List.length_append, List.length_singleton] at hlength
  rw [hbytes]
  exact takeRecord_line hc hline (by omega) rest

theorem parseRecord_item {i : Item} {r : Record} (hplain : i.Plain) (hr : i.record = some r)
    (rest : Bytes) :
    ∃ line, takeRecord (i.bytes ++ rest) = some (line, rest) ∧ parseRecord line = r := by
  have hself {s : Bytes} (hs : 0 ∉ s) : cstring (chomp (s ++ [10])) = s := by
    rw [chomp_line, cstring_eq_self hs]
  cases i with
  | body contents => exact nomatch hr
  | status why => exact nomatch hr
  | leave =>
    obtain rfl := Option.some.inj hr
    exact ⟨_, @takeRecord_line _ (by decide) [] (by decide) (by decide) rest, rfl⟩
  | note text =>
    obtain rfl := Option.some.inj hr
    refine ⟨_, takeRecord_line (by decide) hplain.newline hplain.length rest, ?_⟩
    rw [parseRecord, if_neg (by decide), if_pos rfl, hself hplain.nul]
  | directory mode name =>
    obtain rfl := Option.some.inj hr
    obtain ⟨hnewline, hnul, hlength⟩ := hplain
    have hbytes : (Item.directory mode name).bytes =
        68 :: ((octal4 mode ++ 32 :: 48 :: 32 :: name) ++ [10]) := by
      simp only [Item.bytes, List.append_assoc, List.cons_append]
    have hline {c : UInt8} (hc : c.toNat < 32) (hname : c ∉ name) :
        c ∉ octal4 mode ++ 32 :: 48 :: 32 :: name := by
      simp only [List.mem_append, List.mem_cons, not_or]
      exact ⟨not_mem_octal4 (by omega) mode, ne_of_low hc, ne_of_low' hc, ne_of_low hc, hname⟩
    refine ⟨_, takeRecord_item (by decide) hbytes (hline (by decide) hnewline) hlength rest, ?_⟩
    rw [parseRecord, if_neg (by decide), if_neg (by decide), if_neg (by decide), if_neg (by decide),
      if_neg (by decide), if_neg (by decide), if_pos rfl, hself (hline (by decide) hnul),
      parseFile_directory]
  | file mode size name =>
    obtain rfl := Option.some.inj hr
    obtain ⟨hsize, hnewline, hnul, hlength⟩ := hplain
    have hbytes : (Item.file mode size name).bytes =
        67 :: ((octal4 mode ++ 32 :: (decimal size ++ 32 :: name)) ++ [10]) := by
      simp only [Item.bytes, List.append_assoc, List.cons_append]
    have hline {c : UInt8} (hc : c.toNat < 32) (hname : c ∉ name) :
        c ∉ octal4 mode ++ 32 :: (decimal size ++ 32 :: name) := by
      simp only [List.mem_append, List.mem_cons, not_or]
      exact ⟨not_mem_octal4 (by omega) mode, ne_of_low hc, not_mem_digits (isDigit_low hc) size,
        ne_of_low hc, hname⟩
    refine ⟨_, takeRecord_item (by decide) hbytes (hline (by decide) hnewline) hlength rest, ?_⟩
    rw [parseRecord, if_neg (by decide), if_neg (by decide), if_neg (by decide), if_neg (by decide),
      if_neg (by decide), if_pos rfl, hself (hline (by decide) hnul), parseFile_file mode hsize]
  | times mtime atime =>
    obtain rfl := Option.some.inj hr
    obtain ⟨hmtime, hatime, hlength⟩ := hplain
    have hbytes : (Item.times mtime atime).bytes = 84 :: ((decimal mtime.toNat ++
        32 :: 48 :: 32 :: (decimal atime.toNat ++ [32, 48])) ++ [10]) := by
      simp only [Item.bytes, number_eq hmtime, number_eq hatime, List.append_assoc,
        List.cons_append, List.nil_append]
    have hline {c : UInt8} (hc : c.toNat < 32) :
        c ∉ decimal mtime.toNat ++ 32 :: 48 :: 32 :: (decimal atime.toNat ++ [32, 48]) := by
      simp only [List.mem_append, List.mem_cons, not_or]
      exact ⟨not_mem_digits (isDigit_low hc) _, ne_of_low hc, ne_of_low' hc, ne_of_low hc,
        not_mem_digits (isDigit_low hc) _, ne_of_low hc, ne_of_low' hc, List.not_mem_nil⟩
    refine ⟨_, takeRecord_item (by decide) hbytes (hline (by decide)) hlength rest, ?_⟩
    rw [parseRecord, if_neg (by decide), if_neg (by decide), if_neg (by decide), if_neg (by decide),
      if_pos rfl, hself (hline (by decide)), parseTimes_times]

/-- An answer comes to the source as it is meant. -/
theorem takeResponse_bytes {why : Option Bytes} (hwhy : ∀ text ∈ why, Readable text)
    (rest : Bytes) :
    takeResponse (responseBytes why ++ rest) = some ((why.map Response.error).getD .ok, rest) := by
  cases why with
  | none => rfl
  | some text =>
    obtain ⟨hnewline, -, hlength⟩ := hwhy text rfl
    have hbytes : responseBytes (some text) ++ rest = 1 :: (text ++ 10 :: rest) := by
      simp only [responseBytes, errorBytes, Option.map_some, Option.getD_some, List.cons_append,
        List.append_assoc, List.nil_append]
    rw [hbytes, takeResponse, if_neg (by decide), takeLine_line hnewline (by omega)]
    dsimp only [Option.map_some]
    rw [if_pos rfl, chomp_line]
    rfl

end Netkit.Rcp

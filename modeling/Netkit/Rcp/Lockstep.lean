import Netkit.Rcp.Connection

/-!
# The ends of rcp in lockstep

The sink answers what the source has written, record by record, as long as it has one thing to
say: then what is on its way between the ends is determined by the phase of the source and the
place of the sink.

* `lockstep_of_clean`: a run of steps that meet the condition.
-/

namespace Netkit.Rcp

open Netkit.Foundations

/-! ## The sink without its file system -/

/-- What the sink is about to do; `depth` counts the directories that it has entered. `early` says
that it has complained about the file already. -/
inductive Place where
  | start
  | record (depth : Nat)
  | body (size depth : Nat)
  | truncate (depth : Nat)
  | status (early : Bool) (depth : Nat)
  | ended
deriving DecidableEq

inductive At : Sink → Place → Prop where
  | start (f : Frame) : At ⟨[f], .start⟩ .start
  | record (f : Frame) (fs : List Frame) : At ⟨f :: fs, .record⟩ (.record fs.length)
  | body (f : Frame) (fs : List Frame) (np : Bytes) (size : Nat) :
    At ⟨f :: fs, .body np size⟩ (.body size fs.length)
  | truncate (f : Frame) (fs : List Frame) (np : Bytes) {w : Wrerr} (hw : w ≠ .DISPLAYED) :
    At ⟨f :: fs, .truncate np w⟩ (.truncate fs.length)
  | status (f : Frame) (fs : List Frame) (np : Bytes) {w : Wrerr} (hw : w ≠ .DISPLAYED) :
    At ⟨f :: fs, .status np w⟩ (.status false fs.length)
  | displayed (f : Frame) (fs : List Frame) (np : Bytes) :
    At ⟨f :: fs, .status np .DISPLAYED⟩ (.status true fs.length)
  | ended (fs : List Frame) : At ⟨fs, .ended⟩ .ended

/-- A step of the sink: the place, what is unread and what it says, and the place and what is
unread behind it. -/
inductive Handles (remote closed : Bool) :
    Place → List Item → List (Option Bytes) → Place → List Item → Prop where
  | enter {u : List Item} : Handles remote closed .start u [none] (.record 0) u
  | refuse {u : List Item} (text : Bytes) (hremote : remote = false) :
    Handles remote closed .start u [some text] .ended u
  | note {depth : Nat} {u : List Item} (text : Bytes) :
    Handles remote closed (.record depth) (.note text :: u) [] (.record depth) u
  | times {depth : Nat} {u : List Item} (mtime atime : Int) :
    Handles remote closed (.record depth) (.times mtime atime :: u) [none] (.record depth) u
  | refuseFile {depth : Nat} {u : List Item} (mode : Fin 4096) (size : Nat) (name text : Bytes) :
    Handles remote closed (.record depth) (.file mode size name :: u) [some text] (.record depth) u
  | emptyFile {depth : Nat} {u : List Item} (mode : Fin 4096) (name : Bytes) :
    Handles remote closed (.record depth) (.file mode 0 name :: u) [none] (.truncate depth) u
  | file {depth : Nat} {u : List Item} (mode : Fin 4096) {size : Nat} (name : Bytes)
      (hsize : size ≠ 0) :
    Handles remote closed (.record depth) (.file mode size name :: u) [none] (.body size depth) u
  | refuseDirectory {depth : Nat} {u : List Item} (mode : Fin 4096) (name text : Bytes) :
    Handles remote closed (.record depth) (.directory mode name :: u) [some text] (.record depth) u
  | directory {depth : Nat} {u : List Item} (mode : Fin 4096) (name : Bytes) :
    Handles remote closed (.record depth) (.directory mode name :: u) [none]
      (.record (depth + 1)) u
  | leave {depth : Nat} {u : List Item} :
    Handles remote closed (.record (depth + 1)) (.leave :: u) [none] (.record depth) u
  | body {size depth : Nat} {u : List Item} (contents : Bytes) (hsize : contents.length = size) :
    Handles remote closed (.body size depth) (.body contents :: u) [] (.truncate depth) u
  | truncate {depth : Nat} {u : List Item} :
    Handles remote closed (.truncate depth) u [] (.status false depth) u
  | cantTruncate {depth : Nat} {u : List Item} (text : Bytes) :
    Handles remote closed (.truncate depth) u [some text] (.status true depth) u
  | status {depth : Nat} {u : List Item} (why answer : Option Bytes) :
    Handles remote closed (.status false depth) (.status why :: u) [answer] (.record depth) u
  | displayed {depth : Nat} {u : List Item} (why : Option Bytes) :
    Handles remote closed (.status true depth) (.status why :: u) [] (.record depth) u
  | close (hclosed : closed = true) : Handles remote closed (.record 0) [] [] .ended []

def Due (closed : Bool) : Place → List Item → Prop
  | .record depth, [] => closed = true → depth = 0
  | .record depth, i :: _ => i.record.isSome = true ∧ (i = .leave → 0 < depth)
  | .body size _, [] => closed = false ∧ size ≠ 0
  | .body size _, i :: _ => ∃ contents, i = .body contents ∧ contents.length = size
  | .status _ _, [] => closed = false
  | .status _ _, i :: _ => ∃ why, i = .status why
  | _, _ => True

/-- A step of the sink does what it does without its file system. -/
structure Serves (remote closed : Bool) (place : Place) (unread : List Item) (t : SinkTurn)
    (unread' : List Item) (place' : Place) : Prop where
  stands : At t.sink place'
  split : unread = t.read.toList ++ unread'
  rest : t.rest = unread'.flatMap Item.bytes
  handles : Handles remote closed place unread t.said place' unread'
  said : ∀ text, some text ∈ t.said → Readable text

/-! ## Its messages -/

theorem readable_of_fits {subject strerror a b c : Bytes} (h : Fits subject strerror)
    (hnewline : 10 ∉ a ++ (b ++ c)) (hnul : 0 ∉ a ++ (b ++ c))
    (hlength : (a ++ (b ++ c)).length ≤ 29) :
    Readable (a ++ subject ++ b ++ strerror ++ c) := by
  obtain ⟨h10, h0, hl⟩ := h
  simp only [List.mem_append, not_or] at h10 h0 hnewline hnul
  simp only [List.length_append] at hl hlength
  refine ⟨?_, ?_, ?_⟩
  · simp only [List.mem_append, not_or]
    exact ⟨⟨⟨⟨hnewline.1, h10.1⟩, hnewline.2.1⟩, h10.2⟩, hnewline.2.2⟩
  · simp only [List.mem_append, not_or]
    exact ⟨⟨⟨⟨hnul.1, h0.1⟩, hnul.2.1⟩, h0.2⟩, hnul.2.2⟩
  · simp only [List.length_append]
    omega

theorem readable_complaint {subject strerror : Bytes} (h : Fits subject strerror) :
    Readable (complaint subject strerror) := by
  have hr := readable_of_fits (a := ascii "rcp: ") (b := ascii ": ") (c := []) h (by decide)
    (by decide) (by decide)
  rwa [List.append_nil] at hr

theorem readable_verifydir {subject strerror : Bytes} (h : Fits subject strerror) :
    Readable (complaint subject strerror ++ ascii ".") :=
  readable_of_fits h (by decide) (by decide) (by decide)

theorem readable_cantSetTimes {subject strerror : Bytes} (h : Fits subject strerror) :
    Readable (cantSetTimes subject strerror) := by
  have hr := readable_of_fits (a := ascii "rcp: can't set times on ") (b := ascii ": ") (c := []) h
    (by decide) (by decide) (by decide)
  rwa [List.append_nil] at hr

theorem readable_cantTruncate {subject strerror : Bytes} (h : Fits subject strerror) :
    Readable (cantTruncate subject strerror) := by
  have hr := readable_of_fits (a := ascii "rcp: can't truncate ") (b := ascii ": ") (c := []) h
    (by decide) (by decide) (by decide)
  rwa [List.append_nil] at hr

theorem said_none (text : Bytes) (h : some text ∈ [(none : Option Bytes)]) : Readable text :=
  nomatch List.mem_singleton.mp h

theorem said_some {why : Bytes} (hwhy : Readable why) (text : Bytes)
    (h : some text ∈ [some why]) : Readable text := by
  obtain rfl := Option.some.inj (List.mem_singleton.mp h)
  exact hwhy

theorem said_nothing (text : Bytes) (h : some text ∈ ([] : List (Option Bytes))) :
    Readable text := absurd h List.not_mem_nil

/-! ## Its steps -/

section Steps

variable {remote closed d : Bool} {env : SinkEnv}

theorem enterSink_serves {f : Frame} (hfits : Fits f.targ env.strerror)
    (hrefuse : d = true → env.verified = false → remote = false) (unread : List Item) :
    ∃ place', Serves remote closed .start unread
      (enterSink d env f.targ [] (unread.flatMap Item.bytes) none) unread place' := by
  unfold enterSink
  split
  case isTrue h =>
    have hremote := hrefuse h.1 ((Bool.not_eq_eq_eq_not ..).mp h.2)
    exact ⟨.ended, .ended [], rfl, rfl, .refuse _ hremote,
      said_some (readable_verifydir hfits)⟩
  case isFalse => exact ⟨.record 0, .record _ [], rfl, rfl, .enter, said_none⟩

theorem acceptFile_serves {f : Frame} (fs : List Frame) (mode : Fin 4096) (size : Nat)
    {name : Bytes} (hfits : Fits (f.np name) env.strerror) (hbuffer : env.buffer = none)
    (unread : List Item) :
    ∃ place', Serves remote closed (.record fs.length) (.file mode size name :: unread)
      (acceptFile env f fs mode size name (unread.flatMap Item.bytes)) unread place' := by
  have hitem : Item.file (Fin.ofNat 4096 mode) (size : Int).toNat name = .file mode size name := by
    rw [Fin.ofNat_val_eq_self, Int.toNat_natCast]
  unfold acceptFile
  dsimp only
  rw [hitem, hbuffer, Int.toNat_natCast]
  split
  · exact ⟨.record fs.length, .record _ fs, rfl, rfl, .refuseFile mode size name _,
      said_some (readable_complaint hfits)⟩
  · dsimp only
    split
    case isTrue hsize =>
      obtain rfl : size = 0 := by omega
      exact ⟨.truncate fs.length, .truncate _ fs _ (by decide), rfl, rfl, .emptyFile mode name,
        said_none⟩
    case isFalse hsize =>
      have hsize : size ≠ 0 := by omega
      exact ⟨.body size fs.length, .body _ fs _ size, rfl, rfl, .file mode name hsize, said_none⟩

theorem acceptDirectory_serves {f : Frame} (fs : List Frame) (mode : Fin 4096) {name : Bytes}
    (hfits : Fits (f.np name) env.strerror) (hverified : d = true → env.verified = true)
    (unread : List Item) :
    ∃ place', Serves remote closed (.record fs.length) (.directory mode name :: unread)
      (acceptDirectory d env f fs mode name (unread.flatMap Item.bytes)) unread place' := by
  have henter : ¬ (d = true ∧ (!env.verified) = true) := by
    rintro ⟨hd, hnot⟩
    rw [hverified hd] at hnot
    exact Bool.false_ne_true hnot
  have hmade (made : Bool) : ∃ place', Serves remote closed (.record fs.length)
      (.directory mode name :: unread)
      (if made then
        enterSink d env (f.np name) (f :: fs) (unread.flatMap Item.bytes)
          (some (.directory mode name))
      else ⟨⟨f.next :: fs, .record⟩, unread.flatMap Item.bytes, some (.directory mode name),
        [some (complaint (f.np name) env.strerror)]⟩) unread place' := by
    cases made with
    | true =>
      rw [if_pos rfl, enterSink, if_neg henter]
      exact ⟨.record (fs.length + 1), .record _ (f :: fs), rfl, rfl, .directory mode name,
        said_none⟩
    | false =>
      exact ⟨.record fs.length, .record _ fs, rfl, rfl, .refuseDirectory mode name _,
        said_some (readable_complaint hfits)⟩
  unfold acceptDirectory
  dsimp only
  rw [Fin.ofNat_val_eq_self]
  cases env.existing with
  | none => exact hmade env.mkdir
  | some isDirectory => exact hmade isDirectory

theorem leaveSink_serves {f : Frame} {fs : List Frame} (hfs : 0 < fs.length)
    (hutimes : ∀ g ∈ fs.head?, g.setimes = true → env.utimes = true) (unread : List Item) :
    ∃ place', Serves remote closed (.record fs.length) (.leave :: unread)
      (leaveSink env f fs (unread.flatMap Item.bytes)) unread place' := by
  cases fs with
  | nil => exact absurd hfs (Nat.lt_irrefl 0)
  | cons g fs =>
    refine ⟨.record fs.length, ?_⟩
    unfold leaveSink
    dsimp only
    split
    case isTrue hset =>
      rw [if_pos (hutimes g rfl hset)]
      exact ⟨.record _ fs, rfl, rfl, .leave, said_none⟩
    case isFalse => exact ⟨.record _ fs, rfl, rfl, .leave, said_none⟩

theorem handle_serves {f : Frame} {fs : List Frame} {i : Item} {r : Record} (hplain : i.Plain)
    (hr : i.record = some r) (hleave : i = .leave → 0 < fs.length)
    (hclean : CleanRecord d env f fs r) (unread : List Item) :
    ∃ place', Serves remote closed (.record fs.length) (i :: unread)
      (handle d env f fs (unread.flatMap Item.bytes) r) unread place' := by
  cases i with
  | body contents => exact nomatch hr
  | status why => exact nomatch hr
  | note text =>
    obtain rfl := Option.some.inj hr
    exact ⟨.record fs.length, .record _ fs, rfl, rfl, .note text, said_nothing⟩
  | times mtime atime =>
    obtain rfl := Option.some.inj hr
    obtain ⟨hmtime, hatime, -⟩ := hplain
    refine ⟨.record fs.length, .record _ fs, ?_, rfl, .times mtime atime, said_none⟩
    change _ = Item.times mtime.toNat atime.toNat :: unread
    rw [Int.toNat_of_nonneg hmtime, Int.toNat_of_nonneg hatime]
  | file mode size name =>
    obtain rfl := Option.some.inj hr
    exact acceptFile_serves fs mode size hclean.1 hclean.2 unread
  | directory mode name =>
    obtain rfl := Option.some.inj hr
    exact acceptDirectory_serves fs mode hclean.1 hclean.2 unread
  | leave =>
    obtain rfl := Option.some.inj hr
    exact leaveSink_serves (hleave rfl) hclean unread

theorem record_serves {f : Frame} {fs : List Frame} {unread : List Item} {t : SinkTurn}
    (hdue : Due closed (.record fs.length) unread) (hplain : ∀ i ∈ unread, i.Plain)
    (hclean : CleanSink remote d env (unread.flatMap Item.bytes) ⟨f :: fs, .record⟩)
    (ht : sinkStep d env closed (unread.flatMap Item.bytes) ⟨f :: fs, .record⟩ = some t) :
    ∃ unread' place', Serves remote closed (.record fs.length) unread t unread' place' := by
  cases unread with
  | nil =>
    change (if closed = true then _ else none) = some t at ht
    split at ht
    case isFalse => exact nomatch ht
    case isTrue hclosed =>
      obtain rfl := Option.some.inj ht
      have hfs : fs.length = 0 := hdue hclosed
      refine ⟨[], .ended, .ended _, rfl, rfl, ?_, said_nothing⟩
      rw [hfs]
      exact .close hclosed
  | cons i unread =>
    obtain ⟨hrecord, hleave⟩ := hdue
    obtain ⟨r, hr⟩ := Option.isSome_iff_exists.mp hrecord
    obtain ⟨line, htake, hparse⟩ := parseRecord_item (hplain i List.mem_cons_self) hr
      (unread.flatMap Item.bytes)
    have hclean' := hclean (line, _) (by rw [List.flatMap_cons, htake]; rfl)
    rw [hparse] at hclean'
    unfold sinkStep at ht
    dsimp only at ht
    rw [List.flatMap_cons, htake] at ht
    dsimp only at ht
    rw [hparse] at ht
    obtain rfl := Option.some.inj ht
    exact ⟨unread, handle_serves (hplain i List.mem_cons_self) hr hleave hclean' unread⟩

theorem body_serves {f : Frame} {fs : List Frame} {np : Bytes} {size : Nat} {unread : List Item}
    {t : SinkTurn} (hdue : Due closed (.body size fs.length) unread)
    (ht : sinkStep d env closed (unread.flatMap Item.bytes) ⟨f :: fs, .body np size⟩ = some t) :
    ∃ unread' place', Serves remote closed (.body size fs.length) unread t unread' place' := by
  unfold sinkStep at ht
  dsimp only at ht
  cases unread with
  | nil =>
    obtain ⟨hclosed, hsize⟩ := hdue
    have hlength : ¬ size ≤ ([] : Bytes).length := fun h => hsize (Nat.le_zero.mp h)
    rw [List.flatMap_nil, if_neg hlength, hclosed, if_neg Bool.false_ne_true] at ht
    exact nomatch ht
  | cons i unread =>
    obtain ⟨contents, rfl, rfl⟩ := hdue
    have hlength : contents.length ≤ (contents ++ unread.flatMap Item.bytes).length := by
      rw [List.length_append]
      exact Nat.le_add_right _ _
    rw [List.flatMap_cons] at ht
    change (if contents.length ≤ (contents ++ unread.flatMap Item.bytes).length then _ else _) =
      some t at ht
    rw [if_pos hlength] at ht
    obtain rfl := Option.some.inj ht
    have hw : (if env.writes then Wrerr.NO else .YES) ≠ .DISPLAYED := by
      split <;> decide
    refine ⟨unread, .truncate fs.length, .truncate f fs np hw, ?_, List.drop_left,
      .body contents rfl, said_nothing⟩
    change _ = Item.body ((contents ++ unread.flatMap Item.bytes).take contents.length) :: unread
    rw [List.take_left]

theorem truncate_serves {f : Frame} {fs : List Frame} {np : Bytes} {w : Wrerr} (hw : w ≠ .DISPLAYED)
    (hfits : Fits np env.strerror) {unread : List Item} {t : SinkTurn}
    (ht : sinkStep d env closed (unread.flatMap Item.bytes) ⟨f :: fs, .truncate np w⟩ = some t) :
    ∃ place', Serves remote closed (.truncate fs.length) unread t unread place' := by
  unfold sinkStep at ht
  dsimp only at ht
  split at ht
  · obtain rfl := Option.some.inj ht
    exact ⟨.status false fs.length, .status f fs np hw, rfl, rfl, .truncate, said_nothing⟩
  · obtain rfl := Option.some.inj ht
    exact ⟨.status true fs.length, .displayed f fs np, rfl, rfl, .cantTruncate _,
      said_some (readable_cantTruncate hfits)⟩

theorem finishFile_serves {f : Frame} (fs : List Frame) {np : Bytes} {w : Wrerr} {early : Bool}
    (hw : early = true ↔ w = .DISPLAYED) (hfits : Fits np env.strerror) (why : Option Bytes)
    (unread : List Item) :
    ∃ place', Serves remote closed (.status early fs.length) (.status why :: unread)
      (finishFile env f fs np w (unread.flatMap Item.bytes) why) unread place' := by
  refine ⟨.record fs.length, ?_⟩
  unfold finishFile
  dsimp only
  split
  case isTrue h =>
    obtain rfl : early = false := by
      rw [Bool.eq_false_iff]
      intro hearly
      rw [h.2] at hw
      exact nomatch hw.mp hearly
    refine ⟨.record _ fs, rfl, rfl, .status why _, ?_⟩
    split
    · exact said_none
    · exact said_some (readable_cantSetTimes hfits)
  case isFalse =>
    cases w with
    | YES =>
      obtain rfl : early = false := Bool.eq_false_iff.mpr (fun h => nomatch hw.mp h)
      exact ⟨.record _ fs, rfl, rfl, .status why _, said_some (readable_complaint hfits)⟩
    | NO =>
      obtain rfl : early = false := Bool.eq_false_iff.mpr (fun h => nomatch hw.mp h)
      exact ⟨.record _ fs, rfl, rfl, .status why _, said_none⟩
    | DISPLAYED =>
      obtain rfl : early = true := hw.mpr rfl
      exact ⟨.record _ fs, rfl, rfl, .displayed why, said_nothing⟩

theorem status_serves {f : Frame} {fs : List Frame} {np : Bytes} {w : Wrerr} {early : Bool}
    (hw : early = true ↔ w = .DISPLAYED) (hfits : Fits np env.strerror) {unread : List Item}
    {t : SinkTurn} (hdue : Due closed (.status early fs.length) unread)
    (hplain : ∀ i ∈ unread, i.Plain)
    (ht : sinkStep d env closed (unread.flatMap Item.bytes) ⟨f :: fs, .status np w⟩ = some t) :
    ∃ unread' place', Serves remote closed (.status early fs.length) unread t unread' place' := by
  unfold sinkStep at ht
  dsimp only at ht
  cases unread with
  | nil =>
    have hclosed : closed = false := hdue
    rw [hclosed] at ht
    exact nomatch ht
  | cons i unread =>
    obtain ⟨why, rfl⟩ := hdue
    have hwhy : ∀ text ∈ why, Readable text := hplain _ List.mem_cons_self
    have htake := takeResponse_bytes hwhy (unread.flatMap Item.bytes)
    rw [List.flatMap_cons, Item.bytes, htake] at ht
    cases why with
    | none =>
      obtain rfl := Option.some.inj ht
      exact ⟨unread, finishFile_serves fs hw hfits none unread⟩
    | some text =>
      obtain rfl := Option.some.inj ht
      exact ⟨unread, finishFile_serves fs hw hfits (some text) unread⟩

theorem sink_serves {s : Sink} {place : Place} {unread : List Item} {t : SinkTurn}
    (hat : At s place) (hdue : Due closed place unread) (hplain : ∀ i ∈ unread, i.Plain)
    (hclean : CleanSink remote d env (unread.flatMap Item.bytes) s)
    (ht : sinkStep d env closed (unread.flatMap Item.bytes) s = some t) :
    ∃ unread' place', Serves remote closed place unread t unread' place' := by
  cases hat with
  | start f =>
    obtain rfl := Option.some.inj ht
    exact ⟨unread, enterSink_serves hclean.1 hclean.2 unread⟩
  | record f fs => exact record_serves hdue hplain hclean ht
  | body f fs np size => exact body_serves hdue ht
  | truncate f fs np hw => exact ⟨unread, truncate_serves hw hclean ht⟩
  | status f fs np hw =>
    exact status_serves (iff_of_false Bool.false_ne_true hw) hclean hdue hplain ht
  | displayed f fs np => exact status_serves (iff_of_true rfl rfl) hclean hdue hplain ht
  | ended fs => exact nomatch ht

end Steps

/-! ## What is on its way -/

/-- The sink comes to the next record without another answer. -/
inductive Silent (depth : Nat) : Place → List Item → Prop where
  | record {notes : List Item} (hnotes : ∀ i ∈ notes, ∃ text, i = .note text) :
    Silent depth (.record depth) notes
  | displayed (why : Option Bytes) {notes : List Item} (hnotes : ∀ i ∈ notes, ∃ text, i = .note text) :
    Silent depth (.status true depth) (.status why :: notes)

/-- The sink has the contents of a file, and may have complained about it. -/
inductive Finishing (depth : Nat) : Place → List (Option Bytes) → Prop where
  | truncate : Finishing depth (.truncate depth) []
  | status : Finishing depth (.status false depth) []
  | displayed (text : Bytes) : Finishing depth (.status true depth) [some text]

/-- The phase of the source and the place of the sink, with what the sink has not read and what the
source has not heard. -/
inductive Meets (remote closed : Bool) :
    Phase → Place → List Item → List (Option Bytes) → Prop where
  | greeting : Meets remote closed .greeting .start [] []
  | greeted : Meets remote closed .greeting (.record 0) [] [none]
  | turnedAway (text : Bytes) (hremote : remote = false) :
    Meets remote closed .greeting .ended [] [some text]
  | refused : Meets remote closed .refused .ended [] []
  | idle {depth : Nat} {place : Place} {unread : List Item} (h : Silent depth place unread) :
    Meets remote closed (.idle depth) place unread []
  | finished (hclosed : closed = true) : Meets remote closed (.idle 0) .ended [] []
  | times {depth : Nat} {place : Place} {unread : List Item} (h : Silent depth place unread)
      (mtime atime : Int) :
    Meets remote closed (.times depth) place (unread ++ [.times mtime atime]) []
  | timesAnswered (depth : Nat) (why : Option Bytes) :
    Meets remote closed (.times depth) (.record depth) [] [why]
  | file {depth : Nat} {place : Place} {unread : List Item} (h : Silent depth place unread)
      (mode : Fin 4096) (size : Nat) (name : Bytes) :
    Meets remote closed (.file size depth) place (unread ++ [.file mode size name]) []
  | fileRefused (size depth : Nat) (text : Bytes) :
    Meets remote closed (.file size depth) (.record depth) [] [some text]
  | emptyFile {depth : Nat} {place : Place} {early : List (Option Bytes)}
      (h : Finishing depth place early) :
    Meets remote closed (.file 0 depth) place [] (none :: early)
  | fileAccepted {size : Nat} (depth : Nat) (hsize : size ≠ 0) :
    Meets remote closed (.file size depth) (.body size depth) [] [none]
  | directory {depth : Nat} {place : Place} {unread : List Item} (h : Silent depth place unread)
      (mode : Fin 4096) (name : Bytes) :
    Meets remote closed (.directory depth) place (unread ++ [.directory mode name]) []
  | directoryRefused (depth : Nat) (text : Bytes) :
    Meets remote closed (.directory depth) (.record depth) [] [some text]
  | directoryEntered (depth : Nat) :
    Meets remote closed (.directory depth) (.record (depth + 1)) [] [none]
  | leave {depth : Nat} {place : Place} {unread : List Item} (h : Silent (depth + 1) place unread) :
    Meets remote closed (.leave depth) place (unread ++ [.leave]) []
  | left (depth : Nat) : Meets remote closed (.leave depth) (.record depth) [] [none]
  | body {size : Nat} (depth : Nat) (hsize : size ≠ 0) :
    Meets remote closed (.body size depth) (.body size depth) [] []
  | statusBody (depth : Nat) (contents : Bytes) :
    Meets remote closed (.status depth) (.body contents.length depth) [.body contents] []
  | status {depth : Nat} {place : Place} {early : List (Option Bytes)}
      (h : Finishing depth place early) : Meets remote closed (.status depth) place [] early
  | answerBody (depth : Nat) (contents : Bytes) (why : Option Bytes) :
    Meets remote closed (.answer depth) (.body contents.length depth) [.body contents, .status why] []
  | answer {depth : Nat} {place : Place} {early : List (Option Bytes)}
      (h : Finishing depth place early) (why : Option Bytes) :
    Meets remote closed (.answer depth) place [.status why] early
  | answered (depth : Nat) (why : Option Bytes) :
    Meets remote closed (.answer depth) (.record depth) [] [why]

section Meets

variable {remote closed closed' : Bool} {φ ψ : Phase} {place place' : Place}
  {unread unread' : List Item} {unheard said : List (Option Bytes)}

theorem Silent.note {depth : Nat} (h : Silent depth place unread) (text : Bytes) :
    Silent depth place (unread ++ [.note text]) := by
  have hnew {notes : List Item} (hnotes : ∀ i ∈ notes, ∃ text, i = .note text) :
      ∀ i ∈ notes ++ [Item.note text], ∃ text, i = .note text := by
    intro i hi
    rcases List.mem_append.mp hi with hi | hi
    · exact hnotes i hi
    · exact ⟨text, List.mem_singleton.mp hi⟩
  cases h with
  | record hnotes => exact .record (hnew hnotes)
  | displayed why hnotes => exact .displayed why (hnew hnotes)

theorem Meets.tell {i : Item} (h : Meets remote false φ place unread unheard)
    (hi : φ.tells i = some ψ) : Meets remote closed' ψ place (unread ++ [i]) unheard := by
  cases h with
  | idle h =>
    rename_i depth
    cases i with
    | note text =>
      obtain rfl := Option.some.inj hi
      exact .idle (h.note text)
    | times mtime atime =>
      obtain rfl := Option.some.inj hi
      exact .times h mtime atime
    | file mode size name =>
      obtain rfl := Option.some.inj hi
      exact .file h mode size name
    | directory mode name =>
      obtain rfl := Option.some.inj hi
      exact .directory h mode name
    | leave =>
      cases depth with
      | zero => exact nomatch hi
      | succ depth =>
        obtain rfl := Option.some.inj hi
        exact .leave h
    | body contents => cases depth <;> exact nomatch hi
    | status why => cases depth <;> exact nomatch hi
  | finished hclosed => exact nomatch hclosed
  | body depth hsize =>
    cases i with
    | body contents =>
      change (if contents.length = _ then _ else _) = _ at hi
      split at hi
      case isTrue hlength =>
        obtain rfl := Option.some.inj hi
        subst hlength
        exact .statusBody depth contents
      case isFalse => exact nomatch hi
    | _ => exact nomatch hi
  | statusBody depth contents =>
    cases i with
    | status why =>
      obtain rfl := Option.some.inj hi
      exact .answerBody depth contents why
    | _ => exact nomatch hi
  | status h =>
    cases i with
    | status why =>
      obtain rfl := Option.some.inj hi
      exact .answer h why
    | _ => exact nomatch hi
  | _ => exact nomatch hi

theorem Meets.hear {why : Option Bytes} (h : Meets remote closed φ place unread (why :: unheard))
    (hasks : φ.asks = true) :
    ∃ ψ, φ.answers remote why.isNone = some ψ ∧ Meets remote closed' ψ place unread unheard := by
  have hsilent (depth : Nat) : Silent depth (.record depth) [] := .record (fun _ h => nomatch h)
  cases h with
  | greeted => exact ⟨_, rfl, .idle (hsilent 0)⟩
  | turnedAway text hremote =>
    subst hremote
    exact ⟨_, rfl, .refused⟩
  | timesAnswered depth => exact ⟨_, rfl, .idle (hsilent depth)⟩
  | fileRefused size depth text => exact ⟨_, rfl, .idle (hsilent depth)⟩
  | emptyFile h => exact ⟨_, rfl, .status h⟩
  | fileAccepted depth hsize => exact ⟨_, if_neg hsize, .body depth hsize⟩
  | directoryRefused depth text => exact ⟨_, rfl, .idle (hsilent depth)⟩
  | directoryEntered depth => exact ⟨_, rfl, .idle (hsilent (depth + 1))⟩
  | left depth => exact ⟨_, rfl, .idle (hsilent depth)⟩
  | status h => exact nomatch hasks
  | answer h why' =>
    cases h with
    | displayed text => exact ⟨_, rfl, .idle (.displayed why' (fun _ h => nomatch h))⟩
  | answered depth => exact ⟨_, rfl, .idle (hsilent depth)⟩

theorem Silent.serve {depth : Nat} (h : Silent depth place unread) {tail : List Item}
    (hh : Handles remote closed place (unread ++ tail) said place' unread') :
    (said = [] ∧ ∃ u, unread' = u ++ tail ∧ Silent depth place' u) ∨
      unread = [] ∧ place = .record depth := by
  cases h with
  | record hnotes =>
    cases unread with
    | nil => exact Or.inr ⟨rfl, rfl⟩
    | cons i notes =>
      obtain ⟨text, rfl⟩ := hnotes i List.mem_cons_self
      left
      cases hh with
      | note =>
        exact ⟨rfl, notes, rfl, .record (fun j hj => hnotes j (List.mem_cons_of_mem _ hj))⟩
  | displayed why hnotes =>
    left
    cases hh with
    | displayed => exact ⟨rfl, _, rfl, .record hnotes⟩

theorem Finishing.serve {depth : Nat} {early : List (Option Bytes)} (h : Finishing depth place early)
    (hh : Handles remote closed place unread said place' unread') :
    (unread' = unread ∧ Finishing depth place' (early ++ said)) ∨
      ∃ why answer, unread = .status why :: unread' ∧ place' = .record depth ∧
        early ++ said = [answer] := by
  cases h with
  | truncate =>
    left
    cases hh with
    | truncate => exact ⟨rfl, .status⟩
    | cantTruncate text => exact ⟨rfl, .displayed text⟩
  | status =>
    right
    cases hh with
    | status why answer => exact ⟨why, answer, rfl, rfl, rfl⟩
  | displayed text =>
    right
    cases hh with
    | displayed why => exact ⟨why, some text, rfl, rfl, rfl⟩

/-- The source is not done in the middle of its work. -/
theorem not_closed (hclosed : closed = true → φ = .idle 0 ∨ φ = .refused)
    (hφ : ∀ depth, φ ≠ .idle depth) (hφ' : φ ≠ .refused) : closed = false := by
  rw [Bool.eq_false_iff]
  intro h
  rcases hclosed h with h | h
  · exact hφ 0 h
  · exact hφ' h

theorem not_handles_record {depth : Nat} (hclosed : closed = false) :
    ¬ Handles remote closed (.record depth) [] said place' unread' := by
  rintro (_ | _)
  rename_i h
  exact Bool.false_ne_true (hclosed.symm.trans h)

theorem Meets.serve (h : Meets remote closed φ place unread unheard)
    (hclosed : closed = true → φ = .idle 0 ∨ φ = .refused)
    (hh : Handles remote closed place unread said place' unread') :
    Meets remote closed φ place' unread' (unheard ++ said) := by
  cases h with
  | greeting =>
    cases hh with
    | enter => exact .greeted
    | refuse text hremote => exact .turnedAway text hremote
  | greeted => exact absurd hh (not_handles_record (not_closed hclosed (fun _ => nofun) nofun))
  | turnedAway text hremote => cases hh
  | refused => cases hh
  | idle h =>
    rename_i depth
    rw [← List.append_nil unread] at hh
    rcases h.serve hh with ⟨rfl, u, rfl, h'⟩ | ⟨rfl, rfl⟩
    · rw [List.append_nil]
      exact .idle h'
    · cases hh with
      | close hdone => exact .finished hdone
  | finished hclosed => cases hh
  | times h mtime atime =>
    rcases h.serve hh with ⟨rfl, u, rfl, h'⟩ | ⟨rfl, rfl⟩
    · exact .times h' mtime atime
    · cases hh with
      | times => exact .timesAnswered _ none
  | timesAnswered depth why => exact absurd hh (not_handles_record (not_closed hclosed (fun _ => nofun) nofun))
  | file h mode size name =>
    rcases h.serve hh with ⟨rfl, u, rfl, h'⟩ | ⟨rfl, rfl⟩
    · exact .file h' mode size name
    · cases hh with
      | refuseFile _ _ _ text => exact .fileRefused size _ text
      | emptyFile => exact .emptyFile .truncate
      | file _ _ hsize => exact .fileAccepted _ hsize
  | fileRefused size depth text =>
    exact absurd hh (not_handles_record (not_closed hclosed (fun _ => nofun) nofun))
  | emptyFile h =>
    rcases h.serve hh with ⟨rfl, h'⟩ | ⟨why, answer, hunread, -⟩
    · exact .emptyFile h'
    · exact nomatch hunread
  | fileAccepted depth hsize => cases hh
  | directory h mode name =>
    rcases h.serve hh with ⟨rfl, u, rfl, h'⟩ | ⟨rfl, rfl⟩
    · exact .directory h' mode name
    · cases hh with
      | refuseDirectory _ _ text => exact .directoryRefused _ text
      | directory => exact .directoryEntered _
  | directoryRefused depth text =>
    exact absurd hh (not_handles_record (not_closed hclosed (fun _ => nofun) nofun))
  | directoryEntered depth =>
    exact absurd hh (not_handles_record (not_closed hclosed (fun _ => nofun) nofun))
  | leave h =>
    rcases h.serve hh with ⟨rfl, u, rfl, h'⟩ | ⟨rfl, rfl⟩
    · exact .leave h'
    · cases hh with
      | leave => exact .left _
  | left depth => exact absurd hh (not_handles_record (not_closed hclosed (fun _ => nofun) nofun))
  | body depth hsize => cases hh
  | statusBody depth contents =>
    cases hh with
    | body => exact .status .truncate
  | status h =>
    rcases h.serve hh with ⟨rfl, h'⟩ | ⟨why, answer, hunread, -⟩
    · exact .status h'
    · exact nomatch hunread
  | answerBody depth contents why =>
    cases hh with
    | body => exact .answer .truncate why
  | answer h why =>
    rcases h.serve hh with ⟨rfl, h'⟩ | ⟨why', answer, hunread, rfl, hanswer⟩
    · exact .answer h' why
    · obtain ⟨-, rfl⟩ := List.cons.inj hunread
      rw [hanswer]
      exact .answered _ answer
  | answered depth why => exact absurd hh (not_handles_record (not_closed hclosed (fun _ => nofun) nofun))

theorem Meets.due (h : Meets remote closed φ place unread unheard)
    (hclosed : closed = true → φ = .idle 0 ∨ φ = .refused) : Due closed place unread := by
  have hquiet (depth : Nat) (h : closed = false) : Due closed (.record depth) [] := fun h' =>
    absurd (h.symm.trans h') Bool.false_ne_true
  -- the record that is told last, or a message in front of it
  have hnext {depth : Nat} {place : Place} {unread : List Item} {i : Item}
      (h : Silent depth place unread) (hi : i.record.isSome = true) (hleave : i = .leave → 0 < depth) :
      Due closed place (unread ++ [i]) := by
    cases h with
    | record hnotes =>
      cases unread with
      | nil => exact ⟨hi, hleave⟩
      | cons j notes =>
        obtain ⟨text, rfl⟩ := hnotes j List.mem_cons_self
        exact ⟨rfl, fun h => nomatch h⟩
    | displayed why hnotes => exact ⟨why, rfl⟩
  have hfinishing {depth : Nat} {place : Place} {early : List (Option Bytes)}
      (h : Finishing depth place early) (hclosed : closed = false) : Due closed place [] := by
    cases h with
    | truncate => trivial
    | status => exact hclosed
    | displayed text => exact hclosed
  cases h with
  | greeting => trivial
  | greeted => exact hquiet 0 (not_closed hclosed (fun _ => nofun) nofun)
  | turnedAway text hremote => trivial
  | refused => trivial
  | idle h =>
    rename_i depth
    cases h with
    | record hnotes =>
      cases unread with
      | nil =>
        intro h
        rcases hclosed h with h | h
        · exact Phase.idle.inj h
        · exact nomatch h
      | cons j notes =>
        obtain ⟨text, rfl⟩ := hnotes j List.mem_cons_self
        exact ⟨rfl, fun h => nomatch h⟩
    | displayed why hnotes => exact ⟨why, rfl⟩
  | finished hclosed => trivial
  | times h mtime atime => exact hnext h rfl (fun h => nomatch h)
  | timesAnswered depth why => exact hquiet depth (not_closed hclosed (fun _ => nofun) nofun)
  | file h mode size name => exact hnext h rfl (fun h => nomatch h)
  | fileRefused size depth text => exact hquiet depth (not_closed hclosed (fun _ => nofun) nofun)
  | emptyFile h => exact hfinishing h (not_closed hclosed (fun _ => nofun) nofun)
  | fileAccepted depth hsize => exact ⟨not_closed hclosed (fun _ => nofun) nofun, hsize⟩
  | directory h mode name => exact hnext h rfl (fun h => nomatch h)
  | directoryRefused depth text => exact hquiet depth (not_closed hclosed (fun _ => nofun) nofun)
  | directoryEntered depth => exact hquiet _ (not_closed hclosed (fun _ => nofun) nofun)
  | leave h => exact hnext h rfl (fun _ => Nat.succ_pos _)
  | left depth => exact hquiet depth (not_closed hclosed (fun _ => nofun) nofun)
  | body depth hsize => exact ⟨not_closed hclosed (fun _ => nofun) nofun, hsize⟩
  | statusBody depth contents => exact ⟨contents, rfl, rfl⟩
  | status h => exact hfinishing h (not_closed hclosed (fun _ => nofun) nofun)
  | answerBody depth contents why => exact ⟨contents, rfl, rfl⟩
  | answer h why =>
    cases h with
    | truncate => trivial
    | status => exact ⟨why, rfl⟩
    | displayed text => exact ⟨why, rfl⟩
  | answered depth why => exact hquiet depth (not_closed hclosed (fun _ => nofun) nofun)

end Meets

/-! ## Counting -/

theorem units_append (a b : List Item) : units (a ++ b) = units a + units b := List.countP_append

def Place.extra : Place → Nat
  | .start => 0
  | .status true _ => 2
  | _ => 1

def Place.ahead : Place → Nat
  | .truncate _ => 1
  | _ => 0

def Phase.pending (φ : Phase) : Nat := if φ.asks then 1 else 0

theorem At.ahead {s : Sink} {place : Place} (h : At s place) : s.ahead = place.ahead := by
  cases h <;> rfl

theorem Handles.count {remote closed : Bool} {place place' : Place} {unread unread' : List Item}
    {said : List (Option Bytes)} (h : Handles remote closed place unread said place' unread') :
    place.extra + said.length + units unread' = place'.extra + units unread := by
  cases h <;>
    simp only [Place.extra, units, List.countP_cons, Item.isUnit, List.length_cons, List.length_nil,
      if_true, Bool.false_eq_true, if_false] <;>
    omega

theorem Handles.answers {remote closed : Bool} {place place' : Place} {unread unread' : List Item}
    {said : List (Option Bytes)} (h : Handles remote closed place unread said place' unread') :
    said = [] ∨ said.length = 1 ∧
      place.ahead + units unread = place.extra + units unread' := by
  cases h <;>
    simp [Place.extra, Place.ahead, units, List.countP_cons, Item.isUnit] <;>
    omega

theorem Phase.tells_pending {φ ψ : Phase} {i : Item} (h : φ.tells i = some ψ) :
    φ.pending + units [i] = ψ.pending := by
  unfold Phase.tells at h
  split at h
  case h_6 =>
    split at h
    · obtain rfl := Option.some.inj h
      rfl
    · exact nomatch h
  case h_8 => exact nomatch h
  all_goals
    obtain rfl := Option.some.inj h
    rfl

theorem Phase.answers_pending {remote : Bool} {φ ψ : Phase} {ok : Bool}
    (h : φ.answers remote ok = some ψ) : ψ.pending = 0 := by
  unfold Phase.answers at h
  split at h
  case h_2 =>
    split at h
    · exact nomatch h
    · obtain rfl := Option.some.inj h
      rfl
  case h_4 =>
    split at h <;>
      obtain rfl := Option.some.inj h <;>
      rfl
  case h_10 => exact nomatch h
  all_goals
    obtain rfl := Option.some.inj h
    rfl

/-! ## Both ends -/

/-- The ends meet, and what has been written, read, said and heard is what they have come to. -/
structure Joint (remote : Bool) (n : Net) (φ : Phase) (place : Place) (unread : List Item)
    (unheard : List (Option Bytes)) : Prop where
  follows : Follows (protocol remote) (fun _ φ => φ = .idle 0 ∨ φ = .refused) n.source φ
  stands : At n.sink place
  meets : Meets remote n.closed φ place unread unheard
  written : n.written = n.read ++ unread
  said : n.said = n.heard ++ unheard
  down : n.down = unread.flatMap Item.bytes
  up : n.up = unheard.flatMap responseBytes
  plain : ∀ i ∈ unread, i.Plain
  readable : ∀ text, some text ∈ unheard → Readable text
  saidCount : n.said.length = units n.read + place.extra
  writtenCount : units n.written + 1 = n.heard.length + φ.pending
  answers : n.answers = List.range n.said.length
  asks : n.asks = List.range n.heard.length

section Joint

variable {remote d : Bool} {n m : Net} {φ : Phase} {place : Place} {unread : List Item}
  {unheard : List (Option Bytes)}

theorem Joint.closed (h : Joint remote n φ place unread unheard) (hclosed : n.closed = true) :
    φ = .idle 0 ∨ φ = .refused := by
  have hfollows := h.follows
  unfold Net.closed at hclosed
  cases hsource : n.source with
  | done a =>
    rw [hsource] at hfollows
    exact hfollows
  | tell i next =>
    rw [hsource] at hclosed
    exact nomatch hclosed
  | ask next =>
    rw [hsource] at hclosed
    exact nomatch hclosed

/-- The sink does not go while the source waits for it. -/
theorem Meets.asks_ended (h : Meets remote false φ .ended unread []) : φ.asks = false := by
  cases h with
  | refused => rfl
  | idle h => rfl
  | finished hclosed => rfl
  | times h => cases h
  | file h => cases h
  | directory h => cases h
  | leave h => cases h
  | status h => rfl
  | answer h => cases h

theorem At.ended_iff {s : Sink} (h : At s place) : s.mode = .ended ↔ place = .ended := by
  cases h with
  | ended => exact iff_of_true rfl rfl
  | _ => exact iff_of_false nofun nofun

theorem joint_tell (h : Joint remote n φ place unread unheard) {i : Item} {next : Source Unit}
    (hsource : n.source = .tell i next) (hplain : i.Plain) (hm : sourceStep n = some m) :
    ∃ φ', Joint remote m φ' place (unread ++ [i]) unheard := by
  have hfollows := h.follows
  rw [hsource] at hfollows
  obtain ⟨ψ, hψ, hnext⟩ := hfollows
  have hopen : n.closed = false := by rw [Net.closed, hsource]
  have hmeets := h.meets
  rw [hopen] at hmeets
  unfold sourceStep at hm
  rw [hsource] at hm
  obtain rfl := Option.some.inj hm
  have hpending := Phase.tells_pending hψ
  have hcount := h.writtenCount
  refine ⟨ψ, hnext, h.stands, hmeets.tell hψ, ?_, h.said, ?_, h.up, ?_, h.readable, h.saidCount, ?_,
    h.answers, h.asks⟩
  · change n.written ++ [i] = _
    rw [h.written, List.append_assoc]
  · change n.down ++ i.bytes = _
    rw [h.down, List.flatMap_append, List.flatMap_singleton]
  · intro j hj
    rcases List.mem_append.mp hj with hj | hj
    · exact h.plain j hj
    · rw [List.mem_singleton.mp hj]
      exact hplain
  · change units (n.written ++ [i]) + 1 = n.heard.length + ψ.pending
    rw [units_append]
    omega

theorem joint_ask (h : Joint remote n φ place unread unheard) {next : Bool → Source Unit}
    (hsource : n.source = .ask next) (hm : sourceStep n = some m) :
    ∃ φ' unheard', Joint remote m φ' place unread unheard' := by
  have hfollows := h.follows
  rw [hsource] at hfollows
  obtain ⟨hasks, hnext⟩ := hfollows
  have hasks : φ.asks = true := hasks
  have hopen : n.closed = false := by rw [Net.closed, hsource]
  have hmeets := h.meets
  unfold sourceStep at hm
  rw [hsource, h.up] at hm
  cases unheard with
  | nil =>
    change (if n.sink.mode = .ended then _ else none) = some m at hm
    split at hm
    case isTrue hended =>
      rw [hopen, h.stands.ended_iff.mp hended] at hmeets
      exact absurd (hmeets.asks_ended.symm.trans hasks) Bool.false_ne_true
    case isFalse => exact nomatch hm
  | cons why unheard =>
    have hheard : ∃ ψ, φ.answers remote why.isNone = some ψ ∧ Meets remote
        (n.hear (next why.isNone) why (unheard.flatMap responseBytes)).closed ψ place unread
        unheard := hmeets.hear hasks
    obtain ⟨ψ, hψ, hmeets'⟩ := hheard
    have hfollows' := hnext why.isNone ψ hψ
    have hwhy : ∀ text ∈ why, Readable text := fun text htext =>
      h.readable text (htext ▸ List.mem_cons_self)
    have hhear : m = n.hear (next why.isNone) why (unheard.flatMap responseBytes) := by
      rw [List.flatMap_cons] at hm
      dsimp only at hm
      rw [takeResponse_bytes hwhy] at hm
      cases why with
      | none => exact (Option.some.inj hm).symm
      | some text => exact (Option.some.inj hm).symm
    have hcount := h.writtenCount
    rw [Phase.pending, if_pos hasks] at hcount
    subst hhear
    refine ⟨ψ, unheard, hfollows', h.stands, hmeets', h.written, ?_, h.down, rfl, h.plain,
      fun text htext => h.readable text (List.mem_cons_of_mem _ htext), h.saidCount, ?_, h.answers,
      ?_⟩
    · change n.said = n.heard ++ [why] ++ unheard
      rw [h.said, List.append_assoc]
      rfl
    · change units n.written + 1 = (n.heard ++ [why]).length + ψ.pending
      rw [Phase.answers_pending hψ, List.length_append, List.length_singleton]
      omega
    · change n.asks ++ [units n.written] = List.range (n.heard ++ [why]).length
      have hwritten : units n.written = n.heard.length := by omega
      rw [h.asks, hwritten, List.length_append, List.length_singleton, List.range_succ]

theorem joint_sink (h : Joint remote n φ place unread unheard) {env : SinkEnv}
    (hclean : CleanSink remote d env n.down n.sink) (hm : netStep d n (.sink env) = some m) :
    ∃ place' unread' unheard', Joint remote m φ place' unread' unheard' := by
  obtain ⟨t, ht, rfl⟩ := Option.map_eq_some_iff.mp hm
  rw [h.down] at hclean ht
  obtain ⟨unread', place', hserves⟩ := sink_serves h.stands (h.meets.due h.closed) h.plain hclean ht
  have hcount := hserves.handles.count
  have hunits : units unread = units t.read.toList + units unread' := by
    rw [hserves.split, units_append]
  have hread : units (n.read ++ t.read.toList) = units n.read + units t.read.toList :=
    units_append _ _
  have hsaid := h.saidCount
  refine ⟨place', unread', unheard ++ t.said, h.follows, hserves.stands,
    h.meets.serve h.closed hserves.handles, ?_, ?_, hserves.rest, ?_, ?_, ?_, ?_, h.writtenCount,
    ?_, h.asks⟩
  · change n.written = n.read ++ t.read.toList ++ unread'
    rw [h.written, hserves.split, List.append_assoc]
  · change n.said ++ t.said = n.heard ++ (unheard ++ t.said)
    rw [h.said, List.append_assoc]
  · change n.up ++ t.said.flatMap responseBytes = _
    rw [h.up, List.flatMap_append]
  · intro i hi
    exact h.plain i (hserves.split ▸ List.mem_append_right _ hi)
  · intro text htext
    rcases List.mem_append.mp htext with htext | htext
    · exact h.readable text htext
    · exact hserves.said text htext
  · change (n.said ++ t.said).length = units (n.read ++ t.read.toList) + place'.extra
    rw [List.length_append]
    omega
  · change n.answers ++ t.said.map (fun _ => units (n.read ++ t.read.toList) + n.sink.ahead) =
      List.range (n.said ++ t.said).length
    rcases hserves.handles.answers with hnothing | ⟨hone, hahead⟩
    · rw [hnothing, List.map_nil, List.append_nil, List.append_nil]
      exact h.answers
    · obtain ⟨why, hwhy⟩ := List.length_eq_one_iff.mp hone
      have hplace : units (n.read ++ t.read.toList) + n.sink.ahead = n.said.length := by
        rw [h.stands.ahead]
        omega
      rw [hwhy, List.map_singleton, hplace, h.answers, List.length_append, List.length_singleton,
        List.range_succ]

theorem joint_step {e : Event} (h : ∃ φ place unread unheard, Joint remote n φ place unread unheard)
    (hclean : CleanEvent remote d n e) (hm : netStep d n e = some m) :
    ∃ φ place unread unheard, Joint remote m φ place unread unheard := by
  obtain ⟨φ, place, unread, unheard, h⟩ := h
  cases e with
  | sink env =>
    obtain ⟨place', unread', unheard', h'⟩ := joint_sink h hclean hm
    exact ⟨φ, place', unread', unheard', h'⟩
  | source =>
    cases hsource : n.source with
    | done a =>
      change sourceStep n = some m at hm
      unfold sourceStep at hm
      rw [hsource] at hm
      exact nomatch hm
    | tell i next =>
      have hplain : i.Plain := by
        unfold CleanEvent at hclean
        rwa [hsource] at hclean
      obtain ⟨φ', h'⟩ := joint_tell h hsource hplain hm
      exact ⟨φ', place, _, unheard, h'⟩
    | ask next =>
      obtain ⟨φ', unheard', h'⟩ := joint_ask h hsource hm
      exact ⟨φ', place, unread, unheard', h'⟩

/-! ## Nobody waits for nothing -/

theorem At.live {s : Sink} (h : At s place) (hplace : place ≠ .ended) :
    s.stack ≠ [] ∧ s.mode ≠ .ended := by
  cases h with
  | ended fs => exact absurd rfl hplace
  | _ => exact ⟨List.cons_ne_nil _ _, fun hmode => by cases hmode⟩

theorem sinkStep_due {s : Sink} {closed : Bool} {i : Item} (h : At s place)
    (hplace : place ≠ .ended) (hdue : Due closed place (i :: unread))
    (hplain : ∀ j ∈ i :: unread, j.Plain) (env : SinkEnv) :
    (sinkStep d env closed ((i :: unread).flatMap Item.bytes) s).isSome := by
  have hresponse {why : Option Bytes} (hwhy : ∀ text ∈ why, Readable text) :
      takeResponse ((Item.status why :: unread).flatMap Item.bytes) =
        some ((why.map Response.error).getD .ok, unread.flatMap Item.bytes) := by
    rw [List.flatMap_cons]
    exact takeResponse_bytes hwhy _
  cases h with
  | start f => rfl
  | record f fs =>
    obtain ⟨r, hr⟩ := Option.isSome_iff_exists.mp hdue.1
    obtain ⟨line, htake, -⟩ := parseRecord_item (hplain i List.mem_cons_self) hr
      (unread.flatMap Item.bytes)
    unfold sinkStep
    dsimp only
    rw [List.flatMap_cons, htake]
    rfl
  | body f fs np size =>
    obtain ⟨contents, rfl, rfl⟩ := hdue
    have hlength : contents.length ≤ ((Item.body contents :: unread).flatMap Item.bytes).length := by
      rw [List.flatMap_cons, List.length_append]
      exact Nat.le_add_right _ _
    unfold sinkStep
    dsimp only
    rw [if_pos hlength]
    rfl
  | truncate f fs np hw =>
    unfold sinkStep
    dsimp only
    split <;> rfl
  | status f fs np hw =>
    obtain ⟨why, rfl⟩ := hdue
    unfold sinkStep
    dsimp only
    rw [hresponse (hplain _ List.mem_cons_self)]
    cases why <;> rfl
  | displayed f fs np =>
    obtain ⟨why, rfl⟩ := hdue
    unfold sinkStep
    dsimp only
    rw [hresponse (hplain _ List.mem_cons_self)]
    cases why <;> rfl
  | ended fs => exact absurd rfl hplace

theorem Meets.waiting (h : Meets remote false φ place unread []) (hasks : φ.asks = true) :
    unread ≠ [] ∨ place = .start ∨ ∃ depth, place = .truncate depth := by
  cases h with
  | greeting => exact Or.inr (Or.inl rfl)
  | times h mtime atime => exact Or.inl (List.append_ne_nil_of_right_ne_nil _ (List.cons_ne_nil _ _))
  | file h mode size name =>
    exact Or.inl (List.append_ne_nil_of_right_ne_nil _ (List.cons_ne_nil _ _))
  | directory h mode name =>
    exact Or.inl (List.append_ne_nil_of_right_ne_nil _ (List.cons_ne_nil _ _))
  | leave h => exact Or.inl (List.append_ne_nil_of_right_ne_nil _ (List.cons_ne_nil _ _))
  | answerBody depth contents why => exact Or.inl (List.cons_ne_nil _ _)
  | answer h why => exact Or.inl (List.cons_ne_nil _ _)
  | _ => exact nomatch hasks

theorem joint_goes (h : Joint remote n φ place unread unheard) :
    n.Finished ∨ (netStep d n .source).isSome ∨ ∀ env, (netStep d n (.sink env)).isSome := by
  have hfollows := h.follows
  cases hsource : n.source with
  | done a =>
    have hclosed : n.closed = true := by rw [Net.closed, hsource]
    by_cases hplace : place = .ended
    · exact Or.inl ⟨hclosed, h.stands.ended_iff.mpr hplace⟩
    · refine Or.inr (Or.inr (fun env => ?_))
      rw [netStep, Option.isSome_map, hclosed]
      obtain ⟨hstack, hmode⟩ := h.stands.live hplace
      exact sinkStep_isSome hstack hmode
  | tell i next =>
    right
    left
    rw [netStep, sourceStep, hsource]
    rfl
  | ask next =>
    rw [hsource] at hfollows
    have hasks : φ.asks = true := hfollows.1
    have hopen : n.closed = false := by rw [Net.closed, hsource]
    right
    cases unheard with
    | cons why unheard =>
      left
      rw [netStep, sourceStep, hsource, h.up, List.flatMap_cons]
      dsimp only
      rw [takeResponse_bytes (fun text htext => h.readable text (htext ▸ List.mem_cons_self))]
      cases why <;> rfl
    | nil =>
      right
      intro env
      have hdue := h.meets.due h.closed
      have hmeets := h.meets
      rw [hopen] at hmeets hdue
      have hplace : place ≠ .ended := by
        rintro rfl
        exact absurd (hmeets.asks_ended.symm.trans hasks) Bool.false_ne_true
      rw [netStep, Option.isSome_map, hopen, h.down]
      rcases hmeets.waiting hasks with hunread | rfl | ⟨depth, rfl⟩
      · obtain ⟨i, rest, rfl⟩ := List.exists_cons_of_ne_nil hunread
        exact sinkStep_due h.stands hplace hdue h.plain env
      · have hstands := h.stands
        generalize n.sink = s at hstands
        cases hstands with
        | start f => rfl
      · have hstands := h.stands
        generalize n.sink = s at hstands
        cases hstands with
        | truncate f fs np hw =>
          unfold sinkStep
          dsimp only
          split <;> rfl

theorem Joint.lockstep (h : Joint remote n φ place unread unheard) : Lockstep d n where
  read := h.written ▸ List.prefix_append _ _
  heard := h.said ▸ List.prefix_append _ _
  answers := h.answers
  asks := h.asks
  record := by
    intro hmode
    have hsaid := h.saidCount
    have hstands := h.stands
    generalize n.sink = s at hstands hmode
    cases hstands with
    | record f fs => exact hsaid
    | _ => exact nomatch hmode
  goes := joint_goes h

theorem joint_start (f : Flags) {args : List (Bytes × Node)} (hargs : ∀ a ∈ args, a.2.Buffered)
    (targ : Bytes) : Joint remote (startNet remote f args targ) .greeting .start [] [] where
  follows := transfer_follows f hargs
  stands := .start _
  meets := .greeting
  written := rfl
  said := rfl
  down := rfl
  up := rfl
  plain := fun _ h => absurd h List.not_mem_nil
  readable := fun _ h => absurd h List.not_mem_nil
  saidCount := rfl
  writtenCount := rfl
  answers := rfl
  asks := rfl

end Joint

/-- **The ends of rcp stay in lockstep** in every run whose steps all make the sink answer once:
its `allocbuf` fails for no file, nor that of the source, `utimes` fails for no directory whose
end is answered, the sizes and times are such as the sink reads them, and the records and messages
fit into the buffers. -/
theorem lockstep_of_clean {remote d : Bool} {f : Flags} {args : List (Bytes × Node)} {targ : Bytes}
    {es : List Event} (hargs : ∀ a ∈ args, a.2.Buffered)
    (hclean : Steps (CleanEvent remote d) (netStep d) (startNet remote f args targ) es) :
    ∀ n, Reached (netStep d) (startNet remote f args targ) es n → Lockstep d n := by
  intro n hn
  obtain ⟨φ, place, unread, unheard, h⟩ := steps_reached (fun _ _ _ hs hok hm =>
    joint_step hs hok hm) ⟨_, _, _, _, joint_start f hargs targ⟩ hclean hn
  exact h.lockstep

def calm : SinkEnv where
  verified := true
  isDirectory := true
  existing := none
  mkdir := true
  opens := true
  buffer := none
  writes := true
  ftruncate := true
  utimes := true
  strerror := ascii "Operation not permitted"

/-- A directory with a file, with its times. -/
theorem lockstep_recursive :
    let args := [(ascii "d", Node.directory 1 1 493 none
      (.cons (ascii "f") (.file 1 1 420 none (ascii "hi") none) .nil))]
    let start := startNet false ⟨true, true⟩ args (ascii "t")
    let es := [.sink calm, .source, .source, .sink calm, .source, .source, .sink calm, .source,
      .source, .sink calm, .source, .source, .sink calm, .source, .source, .source, .sink calm,
      .sink { calm with ftruncate := false }, .source, .source, .sink calm, .sink calm, .source,
      .sink calm]
    (run (netStep false) start es).map (fun n => (n.answers, n.sink.mode)) =
        some (List.range 7, .ended) ∧
      ∀ n, Reached (netStep false) start es n → Lockstep false n := by
  refine ⟨by decide +kernel, lockstep_of_clean (fun a ha => ?_) (by decide +kernel)⟩
  obtain rfl := List.mem_singleton.mp ha
  exact ⟨rfl, trivial⟩

/-- The times of the directory cannot be set: the end of the directory is answered twice. -/
theorem not_lockstep_utimes : ∃ es n,
    run (netStep false) (startNet false ⟨true, true⟩ [(ascii "d", .directory 1 1 493 none .nil)]
      (ascii "t")) es = some n ∧ ¬ Lockstep false n := by
  have hanswers : (run (netStep false) (startNet false ⟨true, true⟩
      [(ascii "d", .directory 1 1 493 none .nil)] (ascii "t")) [.sink calm, .source, .source,
        .sink calm, .source, .source, .sink calm, .source, .source,
        .sink { calm with utimes := false }]).map (fun n => (n.answers, n.said.length)) =
      some ([0, 1, 2, 3, 3], 5) := by
    decide +kernel
  obtain ⟨n, hrun, hn⟩ := Option.map_eq_some_iff.mp hanswers
  refine ⟨_, n, hrun, fun h => ?_⟩
  have hrange := h.answers
  rw [(Prod.mk.inj hn).1, (Prod.mk.inj hn).2] at hrange
  exact absurd hrange (by decide)

end Netkit.Rcp

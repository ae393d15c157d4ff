import Netkit.Rcp.Copying

/-!
# rcp -r copies the tree

A source and a sink over one connection, from the first byte to the end of both.

* `copies_iff`: this is so exactly if the tree is good.
-/

namespace Netkit.Rcp

open Netkit.Foundations

variable {h : Host} {d : Bool} {c c' : Copying} {disk : Disk} {key : Resolved} {w : World}
  {s : Sink} {input : Bytes} {f : Frame} {fs : List Frame}

/-! ## Sizes -/

/-- `size` is an `int`, and the file is no longer. -/
def Inode.Bounded : Inode → Prop
  | .file _ _ contents => contents.length < 2147483648
  | .directory _ _ => True

def BoundedAt (disk : Disk) (key : Resolved) : Prop := ∀ i ∈ disk key, i.Bounded

theorem boundedAt_change {key' : Resolved} {g : Inode → Inode}
    (hg : ∀ i : Inode, i.Bounded → (g i).Bounded) (hdisk : BoundedAt disk key) :
    BoundedAt (disk.change key' g) key := by
  intro i hi
  by_cases hkey : key = key'
  · subst hkey
    rw [change_self] at hi
    obtain ⟨j, hj, rfl⟩ := Option.map_eq_some_iff.mp hi
    exact hg j (hdisk j hj)
  · rw [change_of_ne hkey] at hi
    exact hdisk i hi

theorem bounded_touch (t : Int) (i : Inode) (hi : i.Bounded) : (i.touch t).Bounded := by
  cases i with
  | file m t' contents => exact hi
  | directory m t' => trivial

theorem bounded_chmod (m : ℕ) (i : Inode) (hi : i.Bounded) : (i.chmod m).Bounded := by
  cases i with
  | file m' t contents => exact hi
  | directory m' t => trivial

theorem bounded_write {b : Bytes} (hb : b.length < 2147483648) (now : Int) (i : Inode)
    (hi : i.Bounded) : (i.write b now).Bounded := by
  cases i with
  | file m t contents =>
    have hcontents : contents.length < 2147483648 := hi
    rw [Inode.write, Inode.Bounded, List.length_append, List.length_drop]
    omega
  | directory m t => trivial

theorem bounded_truncate {size : ℕ} (hsize : size < 2147483648) (i : Inode) :
    (i.truncate size).Bounded := by
  cases i with
  | file m t contents =>
    rw [Inode.truncate, Inode.Bounded, List.length_append, List.length_take, List.length_replicate]
    omega
  | directory m t => trivial

theorem boundedAt_make {key' : Resolved} {i : Inode} (hi : i.Bounded) (hdisk : BoundedAt disk key) :
    BoundedAt (h.make disk key' i) key := by
  refine boundedAt_change (bounded_touch h.now) ?_
  intro j hj
  by_cases hkey : key = key'
  · subst hkey
    rw [Function.update_self] at hj
    obtain rfl := Option.some.inj hj
    exact hi
  · rw [Function.update_of_ne hkey] at hj
    exact hdisk j hj

/-- The sizes that the sink has read are those of an `int`. -/
structure Bounded (key : Resolved) (w : World) (s : Sink) : Prop where
  disk : BoundedAt w.disk key
  size : w.size < 2147483648
  body : ∀ np size, s.mode = .body np size → size < 2147483648

def Record.Bounded : Record → Prop
  | .file _ size _ => size < 2147483648
  | _ => True

theorem wrap_lt (n : ℕ) : wrap n < 2147483648 := by
  rw [wrap]
  split
  · omega
  · omega

theorem parseTimes_bounded (b : Bytes) : (parseTimes b).Bounded := by
  unfold parseTimes
  repeat' split
  all_goals trivial

theorem parseFile_bounded (directory : Bool) (b : Bytes) : (parseFile directory b).Bounded := by
  unfold parseFile
  repeat' split
  all_goals first | trivial | exact wrap_lt _

theorem parseRecord_bounded (line : Bytes) : (parseRecord line).Bounded := by
  cases line with
  | nil => trivial
  | cons c line =>
    dsimp only [parseRecord]
    repeat' split
    all_goals first | trivial | exact parseTimes_bounded _ | exact parseFile_bounded _ _

theorem record_bounded {r : Record} (hr : r.Bounded) (hdisk : BoundedAt w.disk key)
    (hsize : w.size < 2147483648) :
    BoundedAt (w.record h f fs r).disk key ∧ (w.record h f fs r).size < 2147483648 := by
  cases r with
  | file mode size name =>
    dsimp only [World.record]
    split
    · refine ⟨?_, hr⟩
      dsimp only
      split
      · exact boundedAt_make (by decide : (0 : ℕ) < 2147483648) hdisk
      · split
        · exact boundedAt_change (bounded_chmod _) hdisk
        · exact hdisk
    · exact ⟨hdisk, hsize⟩
  | directory mode name =>
    dsimp only [World.record]
    split
    · refine ⟨?_, hsize⟩
      dsimp only
      split
      · exact boundedAt_change (bounded_chmod _) hdisk
      · exact hdisk
    · exact ⟨hdisk, hsize⟩
    · split
      · exact ⟨boundedAt_make trivial hdisk, hsize⟩
      · exact ⟨hdisk, hsize⟩
  | leave =>
    dsimp only [World.record]
    split
    · exact ⟨hdisk, hsize⟩
    · refine ⟨?_, hsize⟩
      dsimp only
      split
      · exact boundedAt_change (bounded_touch _) hdisk
      · exact hdisk
  | times mtime atime => exact ⟨hdisk, hsize⟩
  | note text => exact ⟨hdisk, hsize⟩
  | fatal => exact ⟨hdisk, hsize⟩
  | garbage text => exact ⟨hdisk, hsize⟩
  | screwup why => exact ⟨hdisk, hsize⟩

theorem after_bounded (input : Bytes) (hb : Bounded key w s) :
    BoundedAt (w.after h input s).disk key ∧ (w.after h input s).size < 2147483648 := by
  have hsame := And.intro hb.disk hb.size
  obtain ⟨stack, mode⟩ := s
  cases stack with
  | nil =>
    cases mode with
    | _ => exact hsame
  | cons f fs =>
    cases mode with
    | start => exact hsame
    | ended => exact hsame
    | record =>
      dsimp only [World.after]
      split
      · exact record_bounded (parseRecord_bounded _) hb.disk hb.size
      · exact hsame
    | body np size =>
      have hsize := hb.body np size rfl
      dsimp only [World.after]
      split
      · refine ⟨boundedAt_change (bounded_write ?_ _) hb.disk, hb.size⟩
        rw [List.length_take]
        omega
      · exact hsame
    | truncate np wrerr =>
      have hsize := hb.size
      dsimp only [World.after]
      split
      · exact ⟨boundedAt_change (fun i _ => bounded_truncate (by omega) i) hb.disk, hsize⟩
      · exact hsame
    | status np wrerr =>
      dsimp only [World.after]
      repeat' split
      all_goals first
        | exact hsame
        | exact ⟨boundedAt_change (bounded_touch _) hb.disk, hb.size⟩

theorem handle_bounded {env : SinkEnv} {r : Record} (hr : r.Bounded) (rest : Bytes) (np : Bytes)
    (size : ℕ) (hmode : (handle d env f fs rest r).sink.mode = .body np size) :
    size < 2147483648 := by
  cases r with
  | file mode size' name =>
    have hlt : size' < 2147483648 := hr
    rw [handle, acceptFile] at hmode
    repeat' split at hmode
    all_goals first
      | (obtain ⟨-, rfl⟩ := Mode.body.inj hmode
         omega)
      | cases hmode
  | directory mode name =>
    have hgo (made : Bool) (item : Item) (why : Bytes)
        (hmode : (if made then enterSink d env (f.np name) (f :: fs) rest (some item)
          else ⟨⟨f.next :: fs, .record⟩, rest, some item, [some why]⟩ : SinkTurn).sink.mode =
            .body np size) : False := by
      cases made with
      | true =>
        rw [if_pos rfl, enterSink] at hmode
        split at hmode
        · cases hmode
        · cases hmode
      | false => cases hmode
    exact (hgo _ _ _ hmode).elim
  | leave =>
    rw [handle] at hmode
    cases fs with
    | nil => cases hmode
    | cons g fs =>
      rw [leaveSink] at hmode
      split at hmode
      · cases hmode
      · cases hmode
  | times mtime atime => cases hmode
  | note text => cases hmode
  | fatal => cases hmode
  | garbage text => cases hmode
  | screwup why => cases hmode

theorem sinkStep_bounded {env : SinkEnv} {closed : Bool} {t : SinkTurn}
    (hstep : sinkStep d env closed input s = some t) (np : Bytes) (size : ℕ)
    (hmode : t.sink.mode = .body np size) : size < 2147483648 := by
  obtain ⟨stack, mode⟩ := s
  cases stack with
  | nil =>
    cases mode with
    | _ => cases hstep
  | cons f fs =>
    cases mode with
    | ended => cases hstep
    | start =>
      obtain rfl := Option.some.inj hstep
      rw [enterSink] at hmode
      split at hmode
      · cases hmode
      · cases hmode
    | record =>
      dsimp only [sinkStep] at hstep
      split at hstep
      · obtain rfl := Option.some.inj hstep
        exact handle_bounded (parseRecord_bounded _) _ np size hmode
      · split at hstep
        · obtain rfl := Option.some.inj hstep
          cases hmode
        · cases hstep
    | body np size =>
      dsimp only [sinkStep] at hstep
      repeat' split at hstep
      all_goals first
        | (obtain rfl := Option.some.inj hstep
           cases hmode)
        | cases hstep
    | truncate np wrerr =>
      dsimp only [sinkStep] at hstep
      split at hstep
      · obtain rfl := Option.some.inj hstep
        cases hmode
      · obtain rfl := Option.some.inj hstep
        cases hmode
    | status np wrerr =>
      have hfinish (rest : Bytes) (status : Option Bytes) :
          (finishFile env f fs np wrerr rest status).sink.mode = .record := finishFile_mode _ _ _ _
      dsimp only [sinkStep] at hstep
      repeat' split at hstep
      all_goals first
        | (obtain rfl := Option.some.inj hstep
           rw [hfinish] at hmode
           cases hmode)
        | (obtain rfl := Option.some.inj hstep
           cases hmode)
        | cases hstep

theorem copyStep_bounded {side : Side} (hb : Bounded key c.world c.net.sink)
    (hstep : copyStep h d c side = some c') : Bounded key c'.world c'.net.sink := by
  cases side with
  | sink =>
    obtain ⟨net, hnet, rfl⟩ := Option.map_eq_some_iff.mp hstep
    obtain ⟨turn, hturn, rfl⟩ := Option.map_eq_some_iff.mp hnet
    obtain ⟨hdisk, hsize⟩ := after_bounded c.net.down (h := h) hb
    exact ⟨hdisk, hsize, sinkStep_bounded hturn⟩
  | source =>
    obtain ⟨net, hnet, rfl⟩ := Option.map_eq_some_iff.mp hstep
    have hsink : net.sink = c.net.sink := by
      rw [sourceStep] at hnet
      repeat' split at hnet
      all_goals first
        | (obtain rfl := Option.some.inj hnet
           rfl)
        | cases hnet
    exact ⟨hb.disk, hb.size, hsink ▸ hb.body⟩

mutual

theorem Node.small_of_copied : (node : Node) → (key : Resolved) →
    (∀ r, key.Covers r → BoundedAt disk r) → node.Copied h disk key → node.Small
  | .file _ _ _ _ _ _, key, hdisk, hcopied => by
    obtain ⟨m, t, hkey, -⟩ := hcopied
    exact hdisk key (Resolved.covers_refl key) _ hkey
  | .directory _ _ _ _ entries, key, hdisk, hcopied =>
    Entries.small_of_copied entries key hdisk hcopied.2.1
  | .unopened _, _, _, _ => trivial
  | .special, _, _, _ => trivial

theorem Entries.small_of_copied : (entries : Entries) → (key : Resolved) →
    (∀ r, key.Covers r → BoundedAt disk r) → entries.Copied h disk key → entries.Small
  | .nil, _, _, _ => trivial
  | .cons name node rest, key, hdisk, hcopied =>
    ⟨Node.small_of_copied node (key.entry name)
        (fun r hr => hdisk r ((Resolved.covers_entry key name).trans hr)) hcopied.1,
      Entries.small_of_copied rest key hdisk hcopied.2⟩

end

mutual

theorem Node.small_of_good : (node : Node) → (targ path : Bytes) → node.Good h targ path →
    node.Small
  | .file _ _ _ _ _ _, _, _, hgood => hgood.2.2
  | .directory _ _ _ _ entries, _, path, hgood =>
    Entries.small_of_good entries _ path hgood.2.2.2
  | .unopened _, _, _, _ => trivial
  | .special, _, _, _ => trivial

theorem Entries.small_of_good : (entries : Entries) → (targ path : Bytes) →
    entries.Good h targ path → entries.Small
  | .nil, _, _, _ => trivial
  | .cons name node rest, targ, path, hgood =>
    ⟨Node.small_of_good node targ (path ++ 47 :: name) hgood.2.1,
      Entries.small_of_good rest targ path hgood.2.2⟩

end

/-! ## The copy -/

def Copies (remote d : Bool) (h : Host) (path : Bytes) (node : Node) (targ : Bytes)
    (disk : Disk) : Prop :=
  ∀ es c, run (copyStep h d) (.start remote h path node targ disk) es = some c →
    ∃ fs u, run (copyStep h d) c fs = some u ∧ Final h d u ∧
      node.Copied h u.world.disk ((resolve targ).entry (lastName path))

theorem small_of_copies {remote : Bool} {path targ : Bytes} {node : Node}
    (ht : EmptyTarget h targ disk) (hcopies : Copies remote d h path node targ disk) :
    node.Small := by
  obtain ⟨fs, u, hrun, -, hcopied⟩ := hcopies [] _ rfl
  refine Node.small_of_copied node _ (fun r hr => ?_) hcopied
  have hstart : Bounded r (Copying.start remote h path node targ disk).world
      (Copying.start remote h path node targ disk).net.sink := by
    refine ⟨fun i hi => ?_, (by decide : (0 : Int) < 2147483648), fun np size hmode => ?_⟩
    · have hnone := (ht.awaits (lastName path)).absent _ List.mem_cons_self r hr
      exact absurd (hnone.symm.trans hi) (Option.some_ne_none i).symm
    · cases hmode
  exact (run_invariant (I := fun c => Bounded r c.world c.net.sink)
    (fun c side c' hb hstep => copyStep_bounded hb hstep) hstart hrun).disk

/-- **rcp -r copies the tree** with all that is in it, and with `-p` the permission bits and the
modification times, exactly if no file is as long as 2147483648 bytes, every directory that is not
empty can be written and searched with the mode that it is made with, no path is too long, and with
`-p` no time is negative. -/
theorem copies_iff (remote d : Bool) (h : Host) (path : Bytes) (node : Node) (targ : Bytes)
    (disk : Disk) (htree : node.Tree) (hpath : SourcePath path) (hname : FileName (lastName path))
    (hq : Quotable h targ) (ht : EmptyTarget h targ disk) :
    Copies remote d h path node targ disk ↔ node.Good h targ path := by
  by_cases hsmall : node.Small
  · obtain ⟨u, ⟨es, hrun⟩, hfinal, hdisk⟩ := leads_install (d := d) remote htree hsmall hpath hname
      hq ht
    have hexact := (Node.copied_install node htree hsmall targ path disk hname (ht.awaits _)).iff
    rw [and_iff_left ht.writable, ← hdisk] at hexact
    rw [← hexact]
    constructor
    · intro hcopies
      obtain ⟨fs, v, hrun', hfinal', hcopied⟩ := hcopies es u hrun
      cases fs with
      | nil =>
        obtain rfl := Option.some.inj hrun'
        exact hcopied
      | cons side fs =>
        obtain ⟨w, hw, -⟩ := run_cons_eq_some.mp hrun'
        exact absurd (hw.symm.trans (hfinal side)) (Option.some_ne_none w)
    · intro hcopied fs c hc
      obtain ⟨gs, hgs⟩ := run_completes copyStep_commutes hrun hfinal hc
      exact ⟨gs, u, hgs, hfinal, hcopied⟩
  · exact iff_of_false (fun hcopies => hsmall (small_of_copies ht hcopies))
      (fun hgood => hsmall (Node.small_of_good node targ path hgood))

/-- A directory with a file in it is copied with `-p`. -/
theorem copies_directory :
    let h : Host := ⟨resolve (ascii "t"), true, false, 18, 0, []⟩
    let node := Node.directory 1 1 493 none
      (.cons (ascii "f") (.file 2 2 420 none (ascii "hi") none) .nil)
    Copies true true h (ascii "d") node (ascii "t")
      (Function.update (fun _ => none) (resolve (ascii "t")) (some (.directory 493 5))) := by
  intro h node
  have hd : FileName (ascii "d") := by constructor <;> decide +kernel
  have hf : FileName (ascii "f") := by constructor <;> decide +kernel
  have htree : node.Tree :=
    ⟨by unfold IsTime; decide, by unfold IsTime; decide, rfl, hf, by decide +kernel,
      ⟨by unfold IsTime; decide, by unfold IsTime; decide, rfl, rfl, by decide +kernel⟩, trivial⟩
  have hpath : SourcePath (ascii "d") := by constructor <;> decide +kernel
  have hq : Quotable h (ascii "t") := by constructor <;> decide +kernel
  have ht : EmptyTarget h (ascii "t")
      (Function.update (fun _ => none) (resolve (ascii "t")) (some (.directory 493 5))) := by
    refine ⟨rfl, ⟨493, 5, Function.update_self _ _ _⟩, ?_,
      fun r _ hr => Function.update_of_ne hr _ _⟩
    rw [Host.Writable, Function.update_self]
    decide
  refine (copies_iff true true h (ascii "d") node (ascii "t") _ htree hpath
    (by rwa [show lastName (ascii "d") = ascii "d" by decide +kernel]) hq ht).mpr ?_
  refine ⟨fun _ => by decide, by decide +kernel, fun _ => ?_, by decide +kernel,
    ⟨fun _ => by decide, by decide +kernel, by decide +kernel⟩, trivial⟩
  rw [Host.Usable]
  decide

/-- The directory is made with the mode that it shall have, which says that nobody writes to it. -/
theorem not_copies_readOnly :
    ¬ Copies true true ⟨resolve (ascii "t"), true, false, 18, 0, []⟩ (ascii "d")
      (.directory 1 1 365 none (.cons (ascii "f") (.file 2 2 420 none (ascii "hi") none) .nil))
      (ascii "t")
      (Function.update (fun _ => none) (resolve (ascii "t")) (some (.directory 493 5))) := by
  intro hcopies
  let h : Host := ⟨resolve (ascii "t"), true, false, 18, 0, []⟩
  let start := Copying.start true h (ascii "d")
    (.directory 1 1 365 none (.cons (ascii "f") (.file 2 2 420 none (ascii "hi") none) .nil))
    (ascii "t") (Function.update (fun _ => none) (resolve (ascii "t")) (some (.directory 493 5)))
  let es : List Side := [.sink, .source, .source, .sink, .source, .source, .sink, .source, .source,
    .sink, .source, .source, .sink, .source, .source, .sink, .source, .sink]
  have hruns : ((run (copyStep h true) start es).any fun c =>
      (copyStep h true c .source).isNone && (copyStep h true c .sink).isNone &&
        (c.world.disk (resolve (ascii "t/d/f"))).isNone) = true := by decide +kernel
  obtain ⟨c, hc, hends⟩ := (Option.any_eq_true _ _).mp hruns
  rw [Bool.and_eq_true, Bool.and_eq_true, Option.isNone_iff_eq_none, Option.isNone_iff_eq_none,
    Option.isNone_iff_eq_none] at hends
  obtain ⟨⟨hsource, hsink⟩, hfile⟩ := hends
  obtain ⟨fs, u, hu, -, hcopied⟩ := hcopies es c hc
  have huc : u = c := by
    cases fs with
    | nil => exact (Option.some.inj hu).symm
    | cons side fs =>
      obtain ⟨w, hw, -⟩ := run_cons_eq_some.mp hu
      cases side with
      | source => exact absurd (hw.symm.trans hsource) (Option.some_ne_none w)
      | sink => exact absurd (hw.symm.trans hsink) (Option.some_ne_none w)
  subst huc
  obtain ⟨-, ⟨⟨m, t, hthere, -⟩, -⟩, -⟩ := hcopied
  have hkey : ((resolve (ascii "t")).entry (lastName (ascii "d"))).entry (ascii "f") =
      resolve (ascii "t/d/f") := by decide +kernel
  rw [hkey] at hthere
  exact absurd (hthere.symm.trans hfile) (Option.some_ne_none _)

end Netkit.Rcp

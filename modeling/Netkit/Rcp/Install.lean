import Netkit.Rcp.Disk

/-!
# What becomes of a tree

What the two ends of rcp make of a tree of files, on a disk where nothing fails but for its
permissions, and when that is the tree.
-/

namespace Netkit.Rcp

open Netkit.Foundations

/-! ## Trees -/

/-- The name of an entry, without a newline. -/
structure FileName (c : Bytes) : Prop where
  isName : IsName c
  up : c ≠ dotdot
  slash : 47 ∉ c
  newline : 10 ∉ c
  nul : 0 ∉ c
  length : c.length ≤ 255

/-- `time_t`. -/
def IsTime (t : Int) : Prop := -9223372036854775808 ≤ t ∧ t < 9223372036854775808

def Entries.names : Entries → List Bytes
  | .nil => []
  | .cons name _ rest => name :: rest.names

mutual

/-- Files and directories that can be read, with sizes and times that the source can have. -/
def Node.Tree : Node → Prop
  | .file mtime atime _ buffer sent readerr =>
    IsTime mtime ∧ IsTime atime ∧ buffer = none ∧ readerr = none ∧
      sent.length < 9223372036854775808
  | .directory mtime atime _ opendir entries =>
    IsTime mtime ∧ IsTime atime ∧ opendir = none ∧ entries.Tree
  | _ => False

def Entries.Tree : Entries → Prop
  | .nil => True
  | .cons name node rest => FileName name ∧ name ∉ rest.names ∧ node.Tree ∧ rest.Tree

end

mutual

/-- The sizes of all files are such as an `int` can be. -/
def Node.Small : Node → Prop
  | .file _ _ _ _ sent _ => sent.length < 2147483648
  | .directory _ _ _ _ entries => entries.Small
  | _ => True

def Entries.Small : Entries → Prop
  | .nil => True
  | .cons _ node rest => node.Small ∧ rest.Small

end

/-! ## What is made of them -/

/-- `np`, in a directory. -/
def joined (targ name : Bytes) : Bytes := if targ = [] then name else targ ++ 47 :: name

/-- With `-p` the times are sent first, and the sink knows no sign. -/
def Host.Timely (h : Host) (mtime atime : Int) : Prop := h.pflag = true → 0 ≤ mtime ∧ 0 ≤ atime

instance (h : Host) (mtime atime : Int) : Decidable (h.Timely mtime atime) :=
  inferInstanceAs (Decidable (_ → _))

/-- The disk, and whether the sink goes on. -/
structure Installed where
  disk : Disk
  alive : Bool

mutual

/-- A node whose path is `path` at the source comes into the directory `targ`. -/
def Node.install (h : Host) (targ path : Bytes) (disk : Disk) : Node → Installed
  | .file mtime atime mode _ sent _ =>
    let np := joined targ (lastName path)
    if ¬ h.Timely mtime atime then ⟨disk, false⟩
    else if h.creates disk np then
      ⟨h.make disk (resolve np) (.file (h.created mode) (if h.pflag then mtime else h.now) sent),
        true⟩
    else ⟨disk, true⟩
  | .directory mtime atime mode _ entries =>
    let np := joined targ (lastName path)
    if ¬ h.Timely mtime atime then ⟨disk, false⟩
    else if h.creates disk np then
      let inside := entries.install h np path
        (h.make disk (resolve np) (.directory (h.created mode) h.now))
      if inside.alive ∧ h.pflag then
        ⟨inside.disk.change (resolve np) (Inode.touch mtime), true⟩
      else inside
    else ⟨disk, true⟩
  | _ => ⟨disk, true⟩

def Entries.install (h : Host) (targ path : Bytes) (disk : Disk) : Entries → Installed
  | .nil => ⟨disk, true⟩
  | .cons name node rest =>
    let first := if MAXPATHLEN - 1 ≤ path.length + 1 + name.length then ⟨disk, true⟩
      else node.install h targ (path ++ 47 :: name) disk
    if first.alive then rest.install h targ path first.disk else first

end

/-! ## The property and the condition -/

mutual

/-- The same node is at the place: a file with the same bytes, or a directory with the same entries
and no others; with `-p`, its permission bits and modification time are the same. -/
def Node.Copied (h : Host) (disk : Disk) (key : Resolved) : Node → Prop
  | .file mtime _ mode _ sent _ => ∃ m t, disk key = some (.file m t sent) ∧
    (h.pflag = true → m = mode.val % 512 ∧ t = mtime)
  | .directory mtime _ mode _ entries => (∃ m t, disk key = some (.directory m t) ∧
    (h.pflag = true → m = mode.val % 512 ∧ t = mtime)) ∧ entries.Copied h disk key ∧
      ∀ c, (disk (key.entry c)).isSome → c ∈ entries.names
  | _ => False

def Entries.Copied (h : Host) (disk : Disk) (key : Resolved) : Entries → Prop
  | .nil => True
  | .cons name node rest => node.Copied h disk (key.entry name) ∧ rest.Copied h disk key

end

/-- What is made in a directory of this mode can be looked up and written. -/
def Host.Usable (h : Host) (mode : ℕ) : Prop :=
  h.superuser = true ∨ (h.created mode).testBit 6 = true ∧ (h.created mode).testBit 7 = true

instance (h : Host) (mode : ℕ) : Decidable (h.Usable mode) := inferInstanceAs (Decidable (_ ∨ _))

mutual

/-- With `-p` there are no negative times; no path is too long for the sink, nor for the source; no
size is too large; and a directory that is not empty can be written and searched with the mode
that it has from the beginning. -/
def Node.Good (h : Host) (targ path : Bytes) : Node → Prop
  | .file mtime atime _ _ sent _ => h.Timely mtime atime ∧
    (joined targ (lastName path)).length < MAXPATHLEN ∧ sent.length < 2147483648
  | .directory mtime atime mode _ entries => h.Timely mtime atime ∧
    (joined targ (lastName path)).length < MAXPATHLEN ∧
      (entries.names ≠ [] → h.Usable mode) ∧ entries.Good h (joined targ (lastName path)) path
  | _ => False

def Entries.Good (h : Host) (targ path : Bytes) : Entries → Prop
  | .nil => True
  | .cons name node rest => path.length + 1 + name.length < MAXPATHLEN - 1 ∧
    node.Good h targ (path ++ 47 :: name) ∧ rest.Good h targ path

end

/-! ## What is touched -/

variable {h : Host} {disk disk' disk'' : Disk} {key : Resolved} {names : List Bytes}
  {targ path name : Bytes}

theorem resolve_joined (hname : FileName name) (targ : Bytes) :
    resolve (joined targ name) = (resolve targ).entry name :=
  resolve_entry hname.isName hname.up hname.slash targ

theorem lastName_join (path : Bytes) (hname : FileName name) :
    lastName (path ++ 47 :: name) = name := by
  have hall : ∀ c ∈ name.reverse, decide (c ≠ 47) = true := by
    intro c hc
    refine decide_eq_true (fun heq => hname.slash ?_)
    rw [← heq]
    exact List.mem_reverse.mp hc
  rw [lastName, List.reverse_append, List.reverse_cons, List.append_assoc,
    List.takeWhile_append_of_pos hall, List.singleton_append,
    List.takeWhile_cons_of_neg (by decide), List.append_nil, List.reverse_reverse]

/-- Only entries of these names have been touched, and the time of the directory. -/
structure Touches (key : Resolved) (names : List Bytes) (disk disk' : Disk) : Prop where
  other : ∀ r, r ≠ key → (∀ c ∈ names, ¬ (key.entry c).Covers r) → disk' r = disk r
  self : (disk' key).map (Inode.touch 0) = (disk key).map (Inode.touch 0)

theorem Touches.refl (key : Resolved) (names : List Bytes) (disk : Disk) :
    Touches key names disk disk :=
  ⟨fun _ _ _ => rfl, rfl⟩

theorem Touches.trans (h1 : Touches key names disk disk') (h2 : Touches key names disk' disk'') :
    Touches key names disk disk'' :=
  ⟨fun r hr hnot => (h2.other r hr hnot).trans (h1.other r hr hnot), h2.self.trans h1.self⟩

theorem Touches.mono {more : List Bytes} (ht : Touches key names disk disk')
    (hmore : ∀ c ∈ names, c ∈ more) : Touches key more disk disk' :=
  ⟨fun r hr hnot => ht.other r hr (fun c hc => hnot c (hmore c hc)), ht.self⟩

theorem Touches.nested (ht : Touches (key.entry name) names disk disk') :
    Touches key [name] disk disk' := by
  constructor
  · intro r _ hnot
    have hr := hnot name List.mem_cons_self
    refine ht.other r ?_ (fun c _ hc => hr ((Resolved.covers_entry _ c).trans hc))
    rintro rfl
    exact hr (Resolved.covers_refl _)
  · have hkey := ht.other key (Resolved.entry_ne key name).symm (fun c _ hc => ?_)
    · rw [hkey]
    · have hlength := hc.length_le
      rw [Resolved.entry_names, Resolved.entry_names, List.length_append, List.length_append,
        List.length_singleton, List.length_singleton] at hlength
      omega

theorem not_covers_of_le {r : Resolved} (hlength : r.names.length ≤ key.names.length) (c : Bytes) :
    ¬ (key.entry c).Covers r := by
  intro hcovers
  have hle := hcovers.length_le
  rw [Resolved.entry_names, List.length_append, List.length_singleton] at hle
  omega

theorem touches_change (f : Inode → Inode) :
    Touches key [name] disk (disk.change (key.entry name) f) := by
  constructor
  · intro r _ hnot
    refine change_of_ne ?_ f
    rintro rfl
    exact hnot name List.mem_cons_self (Resolved.covers_refl _)
  · rw [change_of_ne (Resolved.entry_ne key name).symm]

theorem entry_ne_up (key : Resolved) (name : Bytes) : key.entry name ≠ (key.entry name).up := by
  rw [Resolved.up_entry]
  exact Resolved.entry_ne key name

theorem touches_make (i : Inode) : Touches key [name] disk (h.make disk (key.entry name) i) := by
  constructor
  · intro r hr hnot
    refine make_of_ne ?_ ?_
    · rintro rfl
      exact hnot name List.mem_cons_self (Resolved.covers_refl _)
    · rwa [Resolved.up_entry]
  · have hup := @make_up h disk _ i (entry_ne_up key name)
    rw [Resolved.up_entry] at hup
    rw [hup]
    rcases disk key with _ | ⟨mode, mtime, contents⟩ | ⟨mode, mtime⟩
    · rfl
    · rfl
    · rfl

theorem Touches.grants (ht : Touches key names disk disk') (bit : ℕ) :
    h.grants bit (disk' key) = h.grants bit (disk key) := by
  rw [← grants_touch bit 0 (disk' key), ht.self, grants_touch]

theorem Touches.searchable (ht : Touches key names disk disk') :
    h.searchable disk' key = h.searchable disk key := by
  refine searchable_congr (fun r hcovers hr => ?_)
  rw [ht.other r hr (fun c _ => not_covers_of_le hcovers.length_le c)]

/-! ## What depends on a part of the disk -/

mutual

theorem Node.copied_congr : (node : Node) → (key : Resolved) →
    (∀ r, key.Covers r → disk' r = disk r) → (node.Copied h disk' key ↔ node.Copied h disk key)
  | .file mtime atime mode buffer sent readerr, key, hsame => by
    rw [Node.Copied, Node.Copied, hsame key (Resolved.covers_refl key)]
  | .directory mtime atime mode opendir entries, key, hsame => by
    have hentries := Entries.copied_congr entries key (fun c _ r hr =>
      hsame r ((Resolved.covers_entry key c).trans hr))
    have honly (c : Bytes) : disk' (key.entry c) = disk (key.entry c) :=
      hsame _ (Resolved.covers_entry key c)
    rw [Node.Copied, Node.Copied, hsame key (Resolved.covers_refl key), hentries]
    simp only [honly]
  | .unopened _, _, _ => Iff.rfl
  | .special, _, _ => Iff.rfl

theorem Entries.copied_congr : (entries : Entries) → (key : Resolved) →
    (∀ c ∈ entries.names, ∀ r, (key.entry c).Covers r → disk' r = disk r) →
      (entries.Copied h disk' key ↔ entries.Copied h disk key)
  | .nil, _, _ => Iff.rfl
  | .cons name node rest, key, hsame => by
    have hnode := Node.copied_congr node (key.entry name) (hsame name List.mem_cons_self)
    have hrest := Entries.copied_congr rest key (fun c hc =>
      hsame c (List.mem_cons_of_mem name hc))
    rw [Entries.Copied, Entries.Copied, hnode, hrest]

end

theorem not_copied_of_none (hnone : disk key = none) (node : Node) : ¬ node.Copied h disk key := by
  cases node with
  | unopened strerror => exact id
  | special => exact id
  | file mtime atime mode buffer sent readerr =>
    rintro ⟨m, t, hkey, -⟩
    exact absurd (hnone.symm.trans hkey) (Option.some_ne_none _).symm
  | directory mtime atime mode opendir entries =>
    rintro ⟨⟨m, t, hkey, -⟩, -⟩
    exact absurd (hnone.symm.trans hkey) (Option.some_ne_none _).symm

/-! ## Installing -/

mutual

theorem Node.install_touches : (node : Node) → node.Tree → (targ path : Bytes) → (disk : Disk) →
    FileName (lastName path) →
      Touches (resolve targ) [lastName path] disk (node.install h targ path disk).disk
  | .file mtime atime mode buffer sent readerr, _, targ, path, disk, hname => by
    dsimp only [Node.install]
    rw [resolve_joined hname]
    split
    · exact Touches.refl _ _ _
    · split
      · exact touches_make _
      · exact Touches.refl _ _ _
  | .directory mtime atime mode opendir entries, htree, targ, path, disk, hname => by
    have hentries := Entries.install_touches entries htree.2.2.2 (joined targ (lastName path)) path
      (h.make disk (resolve (joined targ (lastName path))) (.directory (h.created mode) h.now))
    dsimp only [Node.install]
    rw [resolve_joined hname] at hentries ⊢
    have hinside := (touches_make _).trans hentries.nested
    split
    · exact Touches.refl _ _ _
    · split
      · split
        · exact hinside.trans (touches_change _)
        · exact hinside
      · exact Touches.refl _ _ _
  | .unopened _, _, _, _, _, _ => Touches.refl _ _ _
  | .special, _, _, _, _, _ => Touches.refl _ _ _

theorem Entries.install_touches : (entries : Entries) → entries.Tree → (targ path : Bytes) →
    (disk : Disk) →
      Touches (resolve targ) entries.names disk (entries.install h targ path disk).disk
  | .nil, _, _, _, _ => Touches.refl _ _ _
  | .cons name node rest, htree, targ, path, disk => by
    obtain ⟨hname, -, hnode, hrest⟩ := htree
    have hfirst := Node.install_touches node hnode targ (path ++ 47 :: name) disk
      ((lastName_join path hname).symm ▸ hname)
    rw [lastName_join path hname] at hfirst
    have hhead : Touches (resolve targ) (name :: rest.names) disk
        (node.install h targ (path ++ 47 :: name) disk).disk :=
      hfirst.mono (fun c hc => List.mem_singleton.mp hc ▸ List.mem_cons_self)
    have htail (disk : Disk) : Touches (resolve targ) (name :: rest.names) disk
        (rest.install h targ path disk).disk :=
      (Entries.install_touches rest hrest targ path disk).mono
        (fun c hc => List.mem_cons_of_mem name hc)
    dsimp only [Entries.install, Entries.names]
    split
    · rw [if_pos rfl]
      exact htail disk
    · split
      · exact hhead.trans (htail _)
      · exact hhead

end

theorem creates_entry (hname : FileName name)
    (hroot : h.root.names.length ≤ (resolve targ).names.length)
    (hsearch : h.searchable disk (resolve targ) = true)
    (hnone : disk ((resolve targ).entry name) = none) :
    h.creates disk (joined targ name) = true ↔ (joined targ name).length < MAXPATHLEN ∧
      h.grants 6 (disk (resolve targ)) = true ∧ h.grants 7 (disk (resolve targ)) = true := by
  have hlow : decide ((resolve targ).names.length < h.root.names.length) = false :=
    decide_eq_false (Nat.not_lt.mpr hroot)
  rw [creates_eq_true, Host.found, resolve_joined hname, searchable_entry, hsearch, hlow,
    Bool.true_and, Bool.false_or, Bool.and_eq_true, decide_eq_true_eq, Resolved.up_entry]
  constructor
  · rintro ⟨⟨hlength, hsix⟩, -, hseven⟩
    exact ⟨hlength, hsix, hseven⟩
  · rintro ⟨hlength, hsix, hseven⟩
    exact ⟨⟨hlength, hsix⟩, hnone, hseven⟩

theorem created_of_pflag (hpflag : h.pflag = true) (mode : ℕ) : h.created mode = mode % 512 := by
  rw [Host.created, hpflag, if_pos rfl]
  have hmod := Nat.and_two_pow_sub_one_eq_mod (mode % 512) 9
  rw [Nat.mod_mod] at hmod
  exact hmod

theorem usable_iff (mode : ℕ) (t : Int) : h.Usable mode ↔
    h.grants 6 (some (.directory (h.created mode) t)) = true ∧
      h.grants 7 (some (.directory (h.created mode) t)) = true := by
  rw [Host.grants, Host.grants, Host.Usable, Bool.or_eq_true, Bool.or_eq_true]
  exact or_and_left

/-! ## The copy is the tree -/

def Host.Writable (h : Host) (disk : Disk) (key : Resolved) : Prop :=
  h.grants 6 (disk key) = true ∧ h.grants 7 (disk key) = true

/-- What is installed is a copy exactly if it was good, and then the sink goes on. -/
structure Exact (copied good : Prop) (alive : Bool) : Prop where
  iff : copied ↔ good
  alive : good → alive = true

theorem exact_of_not {copied good : Prop} {alive : Bool} (hcopied : ¬ copied) (hgood : ¬ good) :
    Exact copied good alive :=
  ⟨iff_of_false hcopied hgood, fun h => absurd h hgood⟩

/-- The directory into which something comes, and where there is nothing of the name. -/
structure Awaits (h : Host) (targ : Bytes) (disk : Disk) (names : List Bytes) : Prop where
  root : h.root.names.length ≤ (resolve targ).names.length
  searchable : h.searchable disk (resolve targ) = true
  absent : ∀ c ∈ names, ∀ r, ((resolve targ).entry c).Covers r → disk r = none

theorem Awaits.none (ha : Awaits h targ disk names) {c : Bytes} (hc : c ∈ names) :
    disk ((resolve targ).entry c) = none :=
  ha.absent c hc _ (Resolved.covers_refl _)

theorem Awaits.rest (ha : Awaits h targ disk (name :: names)) (hname : name ∉ names)
    (htouches : Touches (resolve targ) [name] disk disk') : Awaits h targ disk' names := by
  refine ⟨ha.root, htouches.searchable.trans ha.searchable, fun c hc r hr => ?_⟩
  rw [htouches.other r ?_ ?_]
  · exact ha.absent c (List.mem_cons_of_mem name hc) r hr
  · rintro rfl
    exact not_covers_of_le (Nat.le_refl _) c hr
  · intro c' hc' hcovers
    rw [List.mem_singleton.mp hc'] at hcovers
    exact hname (Resolved.entry_disjoint hcovers hr ▸ hc)

theorem file_install {mtime atime : Int} {mode : Fin 4096} {buffer : Option Bytes} {sent : Bytes}
    {readerr : Option Bytes} (hsmall : sent.length < 2147483648) (hname : FileName (lastName path))
    (ha : Awaits h targ disk [lastName path]) :
    let node := Node.file mtime atime mode buffer sent readerr
    Exact (node.Copied h (node.install h targ path disk).disk ((resolve targ).entry (lastName path)))
      (node.Good h targ path ∧ h.Writable disk (resolve targ))
      (node.install h targ path disk).alive := by
  have hnone := ha.none List.mem_cons_self
  have hcreates := creates_entry hname ha.root ha.searchable hnone
  dsimp only [Node.install, Node.Good]
  by_cases htimely : h.Timely mtime atime
  · rw [if_neg (not_not.mpr htimely)]
    by_cases hc : h.creates disk (joined targ (lastName path)) = true
    · obtain ⟨hlength, hwritable⟩ := hcreates.mp hc
      rw [if_pos hc, resolve_joined hname]
      refine ⟨iff_of_true ?_ ⟨⟨htimely, hlength, hsmall⟩, hwritable⟩, fun _ => rfl⟩
      refine ⟨_, _, make_self (entry_ne_up _ _), fun hpflag => ⟨created_of_pflag hpflag _, ?_⟩⟩
      rw [if_pos hpflag]
    · rw [if_neg hc]
      refine exact_of_not (not_copied_of_none hnone _) ?_
      rintro ⟨⟨-, hlength, -⟩, hwritable⟩
      exact hc (hcreates.mpr ⟨hlength, hwritable⟩)
  · rw [if_pos htimely]
    exact exact_of_not (not_copied_of_none hnone _) (fun hgood => htimely hgood.1.1)

theorem directory_copied {mtime atime : Int} {mode : Fin 4096} {opendir : Option Bytes}
    {entries : Entries} {t : Int} (hkey : disk' key = some (.directory (h.created mode) t))
    (hother : ∀ r, r ≠ key → disk' r = disk r)
    (honly : ∀ c, (disk (key.entry c)).isSome → c ∈ entries.names) :
    (Node.directory mtime atime mode opendir entries).Copied h disk' key ↔
      entries.Copied h disk key ∧ (h.pflag = true → t = mtime) := by
  have hentries := Entries.copied_congr (h := h) entries key (fun c _ r hr => hother r (by
    rintro rfl
    exact not_covers_of_le (Nat.le_refl _) c hr))
  rw [Node.Copied, hentries]
  constructor
  · rintro ⟨⟨m, t', hkey', htime⟩, hcopied, -⟩
    obtain ⟨-, rfl⟩ := Inode.directory.inj (Option.some.inj (hkey.symm.trans hkey'))
    exact ⟨hcopied, fun hpflag => (htime hpflag).2⟩
  · rintro ⟨hcopied, htime⟩
    refine ⟨⟨_, t, hkey, fun hpflag => ⟨created_of_pflag hpflag _, htime hpflag⟩⟩, hcopied, ?_⟩
    intro c hc
    rw [hother _ (Resolved.entry_ne key c)] at hc
    exact honly c hc

/-- A directory that has been made, with `inside` what has become of its entries. -/
theorem directory_made (mtime atime : Int) {mode : Fin 4096} (opendir : Option Bytes)
    {entries : Entries} {good : Prop} {inside : Installed}
    (hmade : disk key = some (.directory (h.created mode) h.now))
    (habsent : ∀ c, disk (key.entry c) = none)
    (htouches : Touches key entries.names disk inside.disk)
    (hexact : Exact (entries.Copied h inside.disk key)
      (good ∧ (entries.names ≠ [] → h.Writable disk key)) inside.alive) :
    let final := if inside.alive ∧ h.pflag then
      ⟨inside.disk.change key (Inode.touch mtime), true⟩ else inside
    Exact ((Node.directory mtime atime mode opendir entries).Copied h final.disk key)
      (good ∧ (entries.names ≠ [] → h.Usable mode)) final.alive := by
  have husable : h.Usable mode ↔ h.Writable disk key := by
    rw [usable_iff mode.val h.now, ← hmade]
    rfl
  have honly (c : Bytes) (hc : (inside.disk (key.entry c)).isSome) : c ∈ entries.names := by
    by_contra hnot
    rw [htouches.other _ (Resolved.entry_ne key c) (fun c' hc' hcovers => hnot ?_), habsent] at hc
    · exact Bool.false_ne_true hc
    · rw [← Resolved.entry_disjoint hcovers (Resolved.covers_refl _)]
      exact hc'
  obtain ⟨t, hkey⟩ : ∃ t, inside.disk key = some (.directory (h.created mode) t) := by
    have hself := htouches.self
    rw [hmade] at hself
    obtain ⟨i, hi, htouch⟩ := Option.map_eq_some_iff.mp hself
    cases i with
    | file m t contents => cases htouch
    | directory m t =>
      obtain ⟨rfl, -⟩ := Inode.directory.inj htouch
      exact ⟨t, hi⟩
  rw [husable]
  dsimp only
  by_cases hboth : inside.alive = true ∧ h.pflag = true
  · rw [if_pos hboth]
    have hfinal : inside.disk.change key (Inode.touch mtime) key =
        some (.directory (h.created mode) mtime) := by
      rw [change_self, hkey]
      rfl
    rw [directory_copied hfinal (fun r hr => change_of_ne hr _) honly, hexact.iff]
    exact ⟨and_iff_left (fun _ => rfl), fun _ => rfl⟩
  · rw [if_neg hboth, directory_copied hkey (fun _ _ => rfl) honly, hexact.iff]
    refine ⟨and_iff_left_of_imp (fun hgood hpflag => ?_), hexact.alive⟩
    exact absurd ⟨hexact.alive hgood, hpflag⟩ hboth

theorem awaits_inside (mode : ℕ) (hname : FileName name) (ha : Awaits h targ disk [name])
    (hsix : h.grants 6 (disk (resolve targ)) = true) (names : List Bytes) :
    Awaits h (joined targ name)
      (h.make disk ((resolve targ).entry name) (.directory mode h.now)) names := by
  have htouches : Touches (resolve targ) [name] disk
      (h.make disk ((resolve targ).entry name) (.directory mode h.now)) := touches_make _
  constructor
  · rw [resolve_joined hname, Resolved.entry_names, List.length_append]
    exact Nat.le_add_right_of_le ha.root
  · rw [resolve_joined hname, searchable_entry, htouches.searchable, htouches.grants, ha.searchable,
      hsix, Bool.or_true]
    rfl
  · intro c _ r hr
    rw [resolve_joined hname] at hr
    have hkey : r ≠ (resolve targ).entry name := by
      rintro rfl
      exact not_covers_of_le (Nat.le_refl _) c hr
    have hcovers := (Resolved.covers_entry ((resolve targ).entry name) c).trans hr
    have hup : r ≠ ((resolve targ).entry name).up := by
      rintro rfl
      rw [Resolved.up_entry] at hcovers
      exact not_covers_of_le (Nat.le_refl _) name hcovers
    rw [make_of_ne hkey hup]
    exact ha.absent name List.mem_cons_self r hcovers

/-- `hinside` says what has become of the entries. -/
theorem directory_install {mtime atime : Int} {mode : Fin 4096} {opendir : Option Bytes}
    {entries : Entries} (hname : FileName (lastName path)) (htree : entries.Tree)
    (ha : Awaits h targ disk [lastName path])
    (hinside : ∀ disk', Awaits h (joined targ (lastName path)) disk' entries.names →
      Exact (entries.Copied h (entries.install h (joined targ (lastName path)) path disk').disk
          ((resolve targ).entry (lastName path)))
        (entries.Good h (joined targ (lastName path)) path ∧
          (entries.names ≠ [] → h.Writable disk' ((resolve targ).entry (lastName path))))
        (entries.install h (joined targ (lastName path)) path disk').alive) :
    let node := Node.directory mtime atime mode opendir entries
    Exact (node.Copied h (node.install h targ path disk).disk ((resolve targ).entry (lastName path)))
      (node.Good h targ path ∧ h.Writable disk (resolve targ))
      (node.install h targ path disk).alive := by
  have hnone := ha.none List.mem_cons_self
  have hcreates := creates_entry hname ha.root ha.searchable hnone
  dsimp only [Node.install, Node.Good]
  by_cases htimely : h.Timely mtime atime
  · rw [if_neg (not_not.mpr htimely)]
    by_cases hc : h.creates disk (joined targ (lastName path)) = true
    · obtain ⟨hlength, hwritable⟩ := hcreates.mp hc
      rw [if_pos hc, resolve_joined hname]
      have hawaits := awaits_inside (h.created mode) hname ha hwritable.1
      have htouches := Entries.install_touches (h := h) entries htree
        (joined targ (lastName path)) path
        (h.make disk ((resolve targ).entry (lastName path)) (.directory (h.created mode) h.now))
      rw [resolve_joined hname] at htouches
      have habsent (c : Bytes) : h.make disk ((resolve targ).entry (lastName path))
          (.directory (h.created mode) h.now) (((resolve targ).entry (lastName path)).entry c) =
            none := by
        have hnone := (hawaits [c]).none List.mem_cons_self
        rwa [resolve_joined hname] at hnone
      have hmade := directory_made mtime atime opendir
        (make_self (entry_ne_up _ _)) habsent htouches (hinside _ (hawaits entries.names))
      refine ⟨hmade.iff.trans ⟨?_, ?_⟩, fun hgood => hmade.alive ⟨hgood.1.2.2.2, hgood.1.2.2.1⟩⟩
      · exact fun hgood => ⟨⟨htimely, hlength, hgood.2, hgood.1⟩, hwritable⟩
      · exact fun hgood => ⟨hgood.1.2.2.2, hgood.1.2.2.1⟩
    · rw [if_neg hc]
      refine exact_of_not (not_copied_of_none hnone _) ?_
      rintro ⟨⟨-, hlength, -⟩, hwritable⟩
      exact hc (hcreates.mpr ⟨hlength, hwritable⟩)
  · rw [if_pos htimely]
    exact exact_of_not (not_copied_of_none hnone _) (fun hgood => htimely hgood.1.1)

/-- One entry after the other: `first` is what has become of the first one. -/
theorem entries_install {node : Node} {rest : Entries} {first : Installed} {good : Prop}
    (hname : name ∉ rest.names) (htree : rest.Tree) (ha : Awaits h targ disk (name :: rest.names))
    (htouches : Touches (resolve targ) [name] disk first.disk)
    (hfirst : Exact (node.Copied h first.disk ((resolve targ).entry name))
      (good ∧ h.Writable disk (resolve targ)) first.alive)
    (hrest : ∀ disk', Awaits h targ disk' rest.names →
      Exact (rest.Copied h (rest.install h targ path disk').disk (resolve targ))
        (rest.Good h targ path ∧ (rest.names ≠ [] → h.Writable disk' (resolve targ)))
        (rest.install h targ path disk').alive) :
    let final := if first.alive then rest.install h targ path first.disk else first
    Exact ((Entries.cons name node rest).Copied h final.disk (resolve targ))
      ((good ∧ rest.Good h targ path) ∧ h.Writable disk (resolve targ)) final.alive := by
  dsimp only
  by_cases halive : first.alive = true
  · rw [if_pos halive]
    have hawaits : Awaits h targ first.disk rest.names := ha.rest hname htouches
    have hwritable : h.Writable first.disk (resolve targ) ↔ h.Writable disk (resolve targ) := by
      rw [Host.Writable, Host.Writable, htouches.grants, htouches.grants]
    have hlater := Entries.install_touches (h := h) rest htree targ path first.disk
    have hnode : node.Copied h (rest.install h targ path first.disk).disk
        ((resolve targ).entry name) ↔ node.Copied h first.disk ((resolve targ).entry name) := by
      refine Node.copied_congr node _ (fun r hr => hlater.other r ?_ ?_)
      · rintro rfl
        exact not_covers_of_le (Nat.le_refl _) name hr
      · intro c hc hcovers
        exact hname (Resolved.entry_disjoint hr hcovers ▸ hc)
    have hexact := hrest first.disk hawaits
    rw [hwritable] at hexact
    constructor
    · rw [Entries.Copied, hnode, hfirst.iff, hexact.iff]
      constructor
      · rintro ⟨⟨hgood, hw⟩, hgoods, -⟩
        exact ⟨⟨hgood, hgoods⟩, hw⟩
      · rintro ⟨⟨hgood, hgoods⟩, hw⟩
        exact ⟨⟨hgood, hw⟩, hgoods, fun _ => hw⟩
    · rintro ⟨⟨-, hgoods⟩, hw⟩
      exact hexact.alive ⟨hgoods, fun _ => hw⟩
  · rw [if_neg halive]
    refine exact_of_not (fun hcopied => ?_) (fun hgood => ?_)
    · exact halive (hfirst.alive (hfirst.iff.mp hcopied.1))
    · exact halive (hfirst.alive ⟨hgood.1.1, hgood.2⟩)

mutual

theorem Node.copied_install : (node : Node) → node.Tree → node.Small → (targ path : Bytes) →
    (disk : Disk) → FileName (lastName path) → Awaits h targ disk [lastName path] →
      Exact (node.Copied h (node.install h targ path disk).disk
          ((resolve targ).entry (lastName path)))
        (node.Good h targ path ∧ h.Writable disk (resolve targ))
        (node.install h targ path disk).alive
  | .file _ _ _ _ _ _, _, hsmall, _, _, _, hname, ha => file_install hsmall hname ha
  | .directory _ _ _ _ entries, htree, hsmall, targ, path, _, hname, ha =>
    directory_install hname htree.2.2.2 ha (fun disk' hawaits => by
      have hentries := Entries.copied_install entries htree.2.2.2 hsmall
        (joined targ (lastName path)) path disk' hawaits
      rwa [resolve_joined hname] at hentries)
  | .unopened _, htree, _, _, _, _, _, _ => htree.elim
  | .special, htree, _, _, _, _, _, _ => htree.elim

theorem Entries.copied_install : (entries : Entries) → entries.Tree → entries.Small →
    (targ path : Bytes) → (disk : Disk) → Awaits h targ disk entries.names →
      Exact (entries.Copied h (entries.install h targ path disk).disk (resolve targ))
        (entries.Good h targ path ∧ (entries.names ≠ [] → h.Writable disk (resolve targ)))
        (entries.install h targ path disk).alive
  | .nil, _, _, _, _, _, _ =>
    ⟨iff_of_true trivial ⟨trivial, fun hne => absurd rfl hne⟩, fun _ => rfl⟩
  | .cons name node rest, htree, hsmall, targ, path, disk, ha => by
    obtain ⟨hname, hfresh, hnode, hrest⟩ := htree
    have hlast := lastName_join path hname
    have hnamed : FileName (lastName (path ++ 47 :: name)) := hlast.symm ▸ hname
    have hawaits : Awaits h targ disk [name] :=
      ⟨ha.root, ha.searchable, fun c hc => ha.absent c (List.mem_singleton.mp hc ▸ List.mem_cons_self)⟩
    obtain ⟨first, hfirst⟩ : ∃ first, first = if MAXPATHLEN - 1 ≤ path.length + 1 + name.length then
      ⟨disk, true⟩ else node.install h targ (path ++ 47 :: name) disk := ⟨_, rfl⟩
    have hexact : Touches (resolve targ) [name] disk first.disk ∧
        Exact (node.Copied h first.disk ((resolve targ).entry name))
          ((path.length + 1 + name.length < MAXPATHLEN - 1 ∧
            node.Good h targ (path ++ 47 :: name)) ∧ h.Writable disk (resolve targ))
          first.alive := by
      by_cases hlong : MAXPATHLEN - 1 ≤ path.length + 1 + name.length
      · rw [if_pos hlong] at hfirst
        subst hfirst
        refine ⟨Touches.refl _ _ _, exact_of_not ?_ ?_⟩
        · exact not_copied_of_none (hawaits.none List.mem_cons_self) node
        · exact fun hgood => absurd hgood.1.1 (Nat.not_lt.mpr hlong)
      · rw [if_neg hlong] at hfirst
        subst hfirst
        have htouches := Node.install_touches (h := h) node hnode targ (path ++ 47 :: name) disk hnamed
        have hone := Node.copied_install node hnode hsmall.1 targ (path ++ 47 :: name) disk hnamed
          (hlast.symm ▸ hawaits)
        rw [hlast] at htouches hone
        refine ⟨htouches, hone.iff.trans ?_, fun hgood => hone.alive ⟨hgood.1.2, hgood.2⟩⟩
        rw [and_iff_right (Nat.lt_of_not_le hlong)]
    have hall := entries_install hfresh hrest ha hexact.1 hexact.2 (fun disk' hawaits =>
      Entries.copied_install rest hrest hsmall.2 targ path disk' hawaits)
    have hgood : (((path.length + 1 + name.length < MAXPATHLEN - 1 ∧
        node.Good h targ (path ++ 47 :: name)) ∧ rest.Good h targ path) ∧
          h.Writable disk (resolve targ)) ↔ (Entries.cons name node rest).Good h targ path ∧
            ((Entries.cons name node rest).names ≠ [] → h.Writable disk (resolve targ)) := by
      have hne : (Entries.cons name node rest).names ≠ [] := List.cons_ne_nil name rest.names
      rw [Entries.Good, forall_prop_of_true hne, and_assoc (c := rest.Good h targ path)]
    dsimp only [Entries.install]
    rw [← hfirst]
    exact ⟨hall.iff.trans hgood, fun h => hall.alive (hgood.mpr h)⟩

end

end Netkit.Rcp

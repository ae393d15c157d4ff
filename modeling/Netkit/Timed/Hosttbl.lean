import Netkit.Foundations.ClosedHashing
import Netkit.Foundations.Lines
import Netkit.Foundations.Runs
import Mathlib.Data.List.Perm.Subperm

/-!
# The host table of timed

`hosttbl` is a closed hash table: a host is in the slot that its name gives, its home, or elsewhere
and then in the ring of the host whose home it is. A second ring goes through all hosts, from `self`
in the slot 0 on. When a host is added whose home has been taken by another one, that one is moved;
when a host is removed from its home, the next one of its ring is moved there.
-/

namespace Netkit.Timed.Hosttbl

open Netkit.Foundations

/-! ## The table -/

def NHOSTS : ℕ := 1013

/-- A name of the size of `tsp_name`. -/
abbrev HostName := { name : Bytes // 0 ∉ name ∧ name.length ≤ 64 }

/-- `struct hosttbl`; a place of the table is its index, and `none` is NULL. The name of a free slot
is empty. -/
structure Slot where
  hBak : Option ℕ
  hFwd : Option ℕ
  lBak : Option ℕ
  lFwd : Option ℕ
  ntp : ℕ
  name : Bytes
  head : Bool
  good : Bool
  noanswer : ℕ
  needSet : Bool
  seq : ℕ

structure Table where
  slot : ℕ → Slot
  lasthfree : ℕ
  slvcount : ℕ

namespace Table

variable (t : Table) (i v : ℕ)

def modify (f : Slot → Slot) : Table := { t with slot := Function.update t.slot i (f (t.slot i)) }

def setHBak : Table := t.modify i fun s => { s with hBak := some v }

def setHFwd : Table := t.modify i fun s => { s with hFwd := some v }

def setLBak : Table := t.modify i fun s => { s with lBak := some v }

def setLFwd : Table := t.modify i fun s => { s with lFwd := some v }

def setHead (b : Bool) : Table := t.modify i fun s => { s with head := b }

/-- `bcopy`. -/
def copy : Table := t.modify v fun _ => t.slot i

def h : Cells ℕ Unit := ⟨fun i => (t.slot i).hFwd, fun i => (t.slot i).hBak, fun _ => none⟩

def l : Cells ℕ Unit := ⟨fun i => (t.slot i).lFwd, fun i => (t.slot i).lBak, fun _ => none⟩

def view : Slots ℕ Bytes := ⟨t.h, t.l, fun i => (t.slot i).name, fun i => (t.slot i).head⟩

def host : Bytes × ℕ := ((t.slot i).name, (t.slot i).ntp)

end Table

/-- The table that `main` sets up. -/
def Table.start (hostname : Bytes) : Table where
  slot i :=
    if i = 0 then ⟨some 0, some 0, some 0, some 0, 0, hostname, true, true, 0, false, 0⟩
    else ⟨none, none, none, none, 0, [], false, false, 0, false, 0⟩
  lasthfree := 0
  slvcount := 0

/-! ## The functions -/

/-- `char` has a sign. -/
def hash (name : Bytes) : BitVec 32 :=
  (name.take 8).foldl (fun j c => (j <<< 2) ^^^ c.toBitVec.signExtend 32) 0

/-- `&hosttbl[j % NHOSTS]`, if it is in the table. -/
def home (name : Bytes) : Option ℕ :=
  let j := (hash name).toInt.tmod NHOSTS
  if 0 ≤ j then some j.toNat else none

/-- At most so many rounds of the loop of `findhost`. -/
def findFrom (t : Table) (name : Bytes) (start : ℕ) : ℕ → ℕ → Option (Option ℕ)
  | 0, _ => none
  | fuel + 1, htp =>
    if name = (t.slot htp).name then some (some htp)
    else do
      let htp ← (t.slot htp).hFwd
      if htp = start then some none else findFrom t name start fuel htp

/-- `newhost_hash`, and the answer. -/
def findhost (t : Table) (name : Bytes) : Option (ℕ × Option ℕ) := do
  let newhostHash ← home name
  if (t.slot newhostHash).name = [] then some (newhostHash, none)
  else
    let answer ← findFrom t name newhostHash (NHOSTS + 1) newhostHash
    some (newhostHash, answer)

def freeSlot : ℕ → Table → Option (ℕ × Table)
  | 0, _ => none
  | fuel + 1, t =>
    let ret := t.lasthfree
    let t := { t with lasthfree := if NHOSTS < ret + 1 then 1 else ret + 1 }
    if (t.slot ret).name ≠ [] then freeSlot fuel t else some (ret, t)

/-- `Move an interloper using our home`. -/
def moveInterloper (home ret : ℕ) (t : Table) : Option Table := do
  let f ← (t.slot home).hFwd
  let b ← (t.slot home).hBak
  let t := (t.setHBak f ret).setHFwd b ret
  let f ← (t.slot home).lFwd
  let b ← (t.slot home).lBak
  let t := (t.setLBak f ret).setLFwd b ret
  let t := t.copy home ret
  some (((t.setHead home true).setHFwd home home).setHBak home home)

/-- `link to an existing chain in our home`. -/
def linkChain (home ret : ℕ) (t : Table) : Option Table := do
  let t := t.setHead ret false
  let p ← (t.slot home).hBak
  let t := (t.setHFwd ret home).setHBak ret p
  some ((t.setHFwd p ret).setHBak home ret)

def newSlot (home : ℕ) (t : Table) : Option (ℕ × Table) :=
  if (t.slot home).name ≠ [] then do
    let (ret, t) ← freeSlot (NHOSTS + 2) t
    if (t.slot home).head = false then do
      let t ← moveInterloper home ret t
      some (home, t)
    else do
      let t ← linkChain home ret t
      some (ret, t)
  else some (home, ((t.setHead home true).setHFwd home home).setHBak home home)

def enter (good : Bytes → Bool) (name : HostName) (ntp ret : ℕ) (t : Table) : Option Table := do
  let t := t.modify ret fun s => { s with ntp := ntp, name := name, good := good name }
  let last ← (t.slot 0).lBak
  let t := (t.setLFwd ret 0).setLBak ret last
  let last ← (t.slot 0).lBak
  let t := (t.setLFwd last ret).setLBak 0 ret
  let t := { t with slvcount := t.slvcount + 1 }
  some (t.modify ret fun s => { s with noanswer := 0, needSet := true, seq := 0 })

/-- A table that is full makes timed give up, by `siglongjmp`: nothing is changed. -/
def addmach (good : Bytes → Bool) (name : HostName) (ntp : ℕ) (t : Table) : Option Table := do
  let (newhostHash, found) ← findhost t name
  match found with
  | some ret =>
    some (t.modify ret fun s => { s with noanswer := if s.noanswer ≠ 0 then 1 else 0, seq := 0 })
  | none =>
    if NHOSTS ≤ t.slvcount then some t
    else
      let (ret, t) ← newSlot newhostHash t
      enter good name ntp ret t

/-- `get out of the lists`. -/
def getOut (htp : ℕ) (t : Table) : Option Table := do
  let f ← (t.slot htp).lFwd
  let b ← (t.slot htp).lBak
  let t := (t.setLBak f b).setLFwd b f
  let f ← (t.slot htp).hFwd
  let b ← (t.slot htp).hBak
  some ((t.setHBak f b).setHFwd b f)

/-- `pull up the chain`. -/
def pullUp (htp hnxt : ℕ) (t : Table) : Option Table := do
  let f ← (t.slot hnxt).hFwd
  let b ← (t.slot hnxt).hBak
  let t := (t.setHBak f htp).setHFwd b htp
  let f ← (t.slot hnxt).lFwd
  let b ← (t.slot hnxt).lBak
  let t := (t.setLBak f htp).setLFwd b htp
  some ((t.setHead hnxt true).copy hnxt htp)

def Table.release (t : Table) (i : ℕ) : Table :=
  let t := { t with lasthfree := i, slvcount := t.slvcount - 1 }
  t.modify i fun s => { s with name := [], hFwd := none, lFwd := none }

def remmach (htp : ℕ) (t : Table) : Option (ℕ × Table) := do
  let lprv ← (t.slot htp).lBak
  let hnxt ← (t.slot htp).hFwd
  let t ← getOut htp t
  if (t.slot htp).head = true ∧ hnxt ≠ htp then
    let lprv := if lprv = hnxt then htp else lprv
    let t ← pullUp htp hnxt t
    some (lprv, t.release hnxt)
  else some (lprv, t.release htp)

/-- At most so many rounds of the loop of `rmnetmachs`. -/
def rmnetmachsFrom (ntp : ℕ) : ℕ → ℕ → Table → Option Table
  | 0, _, _ => none
  | fuel + 1, htp, t =>
    if htp = 0 then some t
    else do
      let (htp, t) ← if ntp = (t.slot htp).ntp then remmach htp t else some (htp, t)
      let htp ← (t.slot htp).lFwd
      rmnetmachsFrom ntp fuel htp t

def rmnetmachs (ntp : ℕ) (t : Table) : Option Table := do
  let htp ← (t.slot 0).lFwd
  rmnetmachsFrom ntp (NHOSTS + 1) htp t

/-! ## Runs -/

/-- What the messages have timed do; a host to be removed is looked up by its name. -/
inductive Op where
  | addmach (name : HostName) (ntp : ℕ)
  | remmach (name : HostName)
  | rmnetmachs (ntp : ℕ)

/-- There is no result where a slot is used that is not in the table, or a pointer that is NULL. -/
def step (good : Bytes → Bool) (t : Table) : Op → Option Table
  | .addmach name ntp => addmach good name ntp t
  | .remmach name => do
    let (_, found) ← findhost t name
    match found with
    | some htp => (remmach htp t).map Prod.snd
    | none => some t
  | .rmnetmachs ntp => rmnetmachs ntp t

abbrev Host := Bytes × ℕ

def register (hosts : List Host) : Op → List Host
  | .addmach name ntp =>
    if name.val ∈ hosts.map Prod.fst ∨ NHOSTS ≤ hosts.length then hosts
    else hosts ++ [(name.val, ntp)]
  | .remmach name => hosts.filter fun x => x.1 != name
  | .rmnetmachs ntp => hosts.filter fun x => x.2 != ntp

/-! ## The links and the keys -/

namespace Table

variable {t : Table} {i j v : ℕ}

theorem modify_slot_self (f : Slot → Slot) : (t.modify i f).slot i = f (t.slot i) :=
  Function.update_self i _ t.slot

theorem modify_slot_of_ne (f : Slot → Slot) (h : j ≠ i) : (t.modify i f).slot j = t.slot j :=
  Function.update_of_ne h _ t.slot

theorem modify_read {α : Type} (g : Slot → α) (f : Slot → Slot) :
    (fun j => g ((t.modify i f).slot j)) =
      Function.update (fun j => g (t.slot j)) i (g (f (t.slot i))) := by
  funext j
  by_cases hji : j = i
  · subst hji
    rw [modify_slot_self, Function.update_self]
  · rw [modify_slot_of_ne f hji, Function.update_of_ne hji]

theorem modify_read_same {α : Type} (g : Slot → α) (f : Slot → Slot) (h : ∀ s, g (f s) = g s) :
    (fun j => g ((t.modify i f).slot j)) = fun j => g (t.slot j) := by
  rw [modify_read, h, Function.update_eq_self]

theorem setHBak_view (t : Table) (i v : ℕ) : (t.setHBak i v).view =
    { t.view with chain.back := Function.update t.view.chain.back i (some v) } := by
  rw [setHBak]
  simp only [view, h, l, modify_read, Function.update_eq_self]

theorem setHFwd_view (t : Table) (i v : ℕ) : (t.setHFwd i v).view =
    { t.view with chain.forw := Function.update t.view.chain.forw i (some v) } := by
  rw [setHFwd]
  simp only [view, h, l, modify_read, Function.update_eq_self]

theorem setLBak_view (t : Table) (i v : ℕ) : (t.setLBak i v).view =
    { t.view with list.back := Function.update t.view.list.back i (some v) } := by
  rw [setLBak]
  simp only [view, h, l, modify_read, Function.update_eq_self]

theorem setLFwd_view (t : Table) (i v : ℕ) : (t.setLFwd i v).view =
    { t.view with list.forw := Function.update t.view.list.forw i (some v) } := by
  rw [setLFwd]
  simp only [view, h, l, modify_read, Function.update_eq_self]

theorem setHead_view (t : Table) (i : ℕ) (b : Bool) : (t.setHead i b).view =
    { t.view with head := Function.update t.view.head i b } := by
  rw [setHead]
  simp only [view, h, l, modify_read, Function.update_eq_self]

theorem copy_view (t : Table) (i v : ℕ) : (t.copy i v).view =
    { chain.forw := Function.update t.view.chain.forw v (t.view.chain.forw i)
      chain.back := Function.update t.view.chain.back v (t.view.chain.back i)
      chain.val := t.view.chain.val
      list.forw := Function.update t.view.list.forw v (t.view.list.forw i)
      list.back := Function.update t.view.list.back v (t.view.list.back i)
      list.val := t.view.list.val
      key := Function.update t.view.key v (t.view.key i)
      head := Function.update t.view.head v (t.view.head i) } := by
  rw [copy]
  simp only [view, h, l, modify_read]

theorem modify_view (f : Slot → Slot) (hhf : ∀ s, (f s).hFwd = s.hFwd)
    (hhb : ∀ s, (f s).hBak = s.hBak) (hlf : ∀ s, (f s).lFwd = s.lFwd)
    (hlb : ∀ s, (f s).lBak = s.lBak) (hname : ∀ s, (f s).name = s.name)
    (hhead : ∀ s, (f s).head = s.head) : (t.modify i f).view = t.view := by
  simp only [view, h, l, modify_read_same Slot.hFwd f hhf, modify_read_same Slot.hBak f hhb,
    modify_read_same Slot.lFwd f hlf, modify_read_same Slot.lBak f hlb,
    modify_read_same Slot.name f hname, modify_read_same Slot.head f hhead]

theorem modify_host (f : Slot → Slot) (hname : ∀ s, (f s).name = s.name)
    (hntp : ∀ s, (f s).ntp = s.ntp) : (t.modify i f).host = t.host := by
  have hread := modify_read_same (t := t) (i := i) (fun s => (s.name, s.ntp)) f
    (fun s => by rw [hname, hntp])
  exact hread

@[simp] theorem setHBak_host (t : Table) (i v : ℕ) : (t.setHBak i v).host = t.host :=
  modify_host _ (fun _ => rfl) (fun _ => rfl)

@[simp] theorem setHFwd_host (t : Table) (i v : ℕ) : (t.setHFwd i v).host = t.host :=
  modify_host _ (fun _ => rfl) (fun _ => rfl)

@[simp] theorem setLBak_host (t : Table) (i v : ℕ) : (t.setLBak i v).host = t.host :=
  modify_host _ (fun _ => rfl) (fun _ => rfl)

@[simp] theorem setLFwd_host (t : Table) (i v : ℕ) : (t.setLFwd i v).host = t.host :=
  modify_host _ (fun _ => rfl) (fun _ => rfl)

@[simp] theorem setHead_host (t : Table) (i : ℕ) (b : Bool) : (t.setHead i b).host = t.host :=
  modify_host _ (fun _ => rfl) (fun _ => rfl)

@[simp] theorem copy_host (t : Table) (i v : ℕ) :
    (t.copy i v).host = Function.update t.host v (t.host i) :=
  modify_read (fun s => (s.name, s.ntp)) _

end Table

/-! ## What the parts of the functions do -/

variable {t : Table} {p n p' n' x y home ret : ℕ}

theorem setH_list (t : Table) (n p x y : ℕ) :
    ((t.setHBak n x).setHFwd p y).view.list = t.view.list := by
  rw [Table.setHFwd_view, Table.setHBak_view]

theorem setL_chain (t : Table) (n p x y : ℕ) :
    ((t.setLBak n x).setLFwd p y).view.chain = t.view.chain := by
  rw [Table.setLFwd_view, Table.setLBak_view]

theorem getOut_eq (hp : t.view.chain.Linked p x) (hn : t.view.chain.Linked x n)
    (hp' : t.view.list.Linked p' x) (hn' : t.view.list.Linked x n') :
    ∃ t', getOut x t = some t' ∧ t'.view = t.view.unlink p n p' n' ∧ t'.host = t.host ∧
      t'.slvcount = t.slvcount := by
  have hlf : (t.slot x).lFwd = some n' := hn'.1
  have hlb : (t.slot x).lBak = some p' := hp'.2
  have hhf : (((t.setLBak n' p').setLFwd p' n').slot x).hFwd = some n :=
    (congrArg (fun m => m.forw x) (setL_chain t n' p' p' n')).trans hn.1
  have hhb : (((t.setLBak n' p').setLFwd p' n').slot x).hBak = some p :=
    (congrArg (fun m => m.back x) (setL_chain t n' p' p' n')).trans hp.2
  refine ⟨(((t.setLBak n' p').setLFwd p' n').setHBak n p).setHFwd p n, ?_, ?_, ?_, rfl⟩
  · simp only [getOut, hlf, hlb, hhf, hhb, Option.bind_eq_bind, Option.bind_some]
  · simp only [Table.setHFwd_view, Table.setHBak_view, Table.setLFwd_view, Table.setLBak_view]
    rfl
  · simp

/-- The neighbours of a slot are linked to `x` instead. -/
def Table.redirect (t : Table) (p n p' n' x : ℕ) : Table :=
  (((t.setHBak n x).setHFwd p x).setLBak n' x).setLFwd p' x

theorem redirect_view (t : Table) (p n p' n' x : ℕ) : (t.redirect p n p' n' x).view =
    { t.view with
      chain.forw := Function.update t.view.chain.forw p (some x)
      chain.back := Function.update t.view.chain.back n (some x)
      list.forw := Function.update t.view.list.forw p' (some x)
      list.back := Function.update t.view.list.back n' (some x) } := by
  rw [Table.redirect]
  simp only [Table.setHFwd_view, Table.setHBak_view, Table.setLFwd_view, Table.setLBak_view]

theorem redirect_host (t : Table) (p n p' n' x : ℕ) : (t.redirect p n p' n' x).host = t.host := by
  simp [Table.redirect]

theorem chain_val (t : Table) (i j : ℕ) :
    Function.update t.view.chain.val i (t.view.chain.val j) = t.view.chain.val :=
  Function.update_eq_self i t.view.chain.val

theorem list_val (t : Table) (i j : ℕ) :
    Function.update t.view.list.val i (t.view.list.val j) = t.view.list.val :=
  Function.update_eq_self i t.view.list.val

theorem pullUp_eq (hp : t.view.chain.Linked p y) (hn : t.view.chain.Linked y n)
    (hp' : t.view.list.Linked p' y) (hn' : t.view.list.Linked y n') :
    ∃ t', pullUp x y t = some t' ∧ t'.view = (t.view.promote y).move y x p n p' n' ∧
      t'.host = Function.update t.host x (t.host y) ∧ t'.slvcount = t.slvcount := by
  have hhf : (t.slot y).hFwd = some n := hn.1
  have hhb : (t.slot y).hBak = some p := hp.2
  have hlf : (((t.setHBak n x).setHFwd p x).slot y).lFwd = some n' :=
    (congrArg (fun m => m.forw y) (setH_list t n p x x)).trans hn'.1
  have hlb : (((t.setHBak n x).setHFwd p x).slot y).lBak = some p' :=
    (congrArg (fun m => m.back y) (setH_list t n p x x)).trans hp'.2
  refine ⟨((t.redirect p n p' n' x).setHead y true).copy y x, ?_, ?_, ?_, rfl⟩
  · simp only [pullUp, hhf, hhb, hlf, hlb, Option.bind_eq_bind, Option.bind_some]
    rfl
  · rw [Table.copy_view, Table.setHead_view, redirect_view]
    simp only [Slots.move, Slots.promote, Cells.move, chain_val, list_val]
  · rw [Table.copy_host, Table.setHead_host, redirect_host]

theorem moveInterloper_eq (hp : t.view.chain.Linked p x) (hn : t.view.chain.Linked x n)
    (hp' : t.view.list.Linked p' x) (hn' : t.view.list.Linked x n') :
    ∃ t', moveInterloper x y t = some t' ∧
      t'.view = { t.view.move x y p n p' n' with
        chain := (t.view.move x y p n p' n').chain.join x x
        head := Function.update (t.view.move x y p n p' n').head x true } ∧
      t'.host = Function.update t.host y (t.host x) ∧ t'.slvcount = t.slvcount ∧
      t'.lasthfree = t.lasthfree := by
  have hhf : (t.slot x).hFwd = some n := hn.1
  have hhb : (t.slot x).hBak = some p := hp.2
  have hlf : (((t.setHBak n y).setHFwd p y).slot x).lFwd = some n' :=
    (congrArg (fun m => m.forw x) (setH_list t n p y y)).trans hn'.1
  have hlb : (((t.setHBak n y).setHFwd p y).slot x).lBak = some p' :=
    (congrArg (fun m => m.back x) (setH_list t n p y y)).trans hp'.2
  refine ⟨((((t.redirect p n p' n' y).copy x y).setHead x true).setHFwd x x).setHBak x x,
    ?_, ?_, ?_, rfl, rfl⟩
  · simp only [moveInterloper, hhf, hhb, hlf, hlb, Option.bind_eq_bind, Option.bind_some]
    rfl
  · rw [Table.setHBak_view, Table.setHFwd_view, Table.setHead_view, Table.copy_view, redirect_view]
    simp only [Slots.move, Cells.move, Cells.join, chain_val, list_val]
  · rw [Table.setHBak_host, Table.setHFwd_host, Table.setHead_host, Table.copy_host, redirect_host]

theorem linkChain_eq (hp : t.view.chain.Linked p x) (hne : p ≠ ret) :
    ∃ t', linkChain x ret t = some t' ∧
      t'.view = { t.view with
        chain := (t.view.chain.join p ret).join ret x
        head := Function.update t.view.head ret false } ∧
      t'.host = t.host ∧ t'.slvcount = t.slvcount ∧ t'.lasthfree = t.lasthfree := by
  have hhb : ((t.setHead ret false).slot x).hBak = some p := by
    have hback : (t.setHead ret false).view.chain.back x = some p := by
      rw [Table.setHead_view]
      exact hp.2
    exact hback
  refine ⟨((((t.setHead ret false).setHFwd ret x).setHBak ret p).setHFwd p ret).setHBak x ret,
    ?_, ?_, ?_, rfl, rfl⟩
  · simp only [linkChain, hhb, Option.bind_eq_bind, Option.bind_some]
  · rw [Table.setHBak_view, Table.setHFwd_view, Table.setHBak_view, Table.setHFwd_view,
      Table.setHead_view]
    simp only [Cells.join, Function.update_comm hne]
  · simp

theorem fill_view (t : Table) (i ntp : ℕ) (name : Bytes) (good : Bool) :
    (t.modify i fun s => { s with ntp := ntp, name := name, good := good }).view =
      { t.view with key := Function.update t.view.key i name } := by
  simp only [Table.view, Table.h, Table.l, Table.modify_read, Function.update_eq_self]

theorem enter_eq {last : ℕ} (good : Bytes → Bool) (name : HostName) (ntp : ℕ)
    (hlast : t.view.list.Linked last 0) (hne : last ≠ ret) (hret : ret ≠ 0) :
    ∃ t', enter good name ntp ret t = some t' ∧
      t'.view = t.view.enter t.view.chain 0 last ret name (t.view.head ret) ∧
      t'.host = Function.update t.host ret (name.val, ntp) ∧ t'.slvcount = t.slvcount + 1 ∧
      t'.lasthfree = t.lasthfree := by
  generalize hu : (t.modify ret fun s => { s with ntp := ntp, name := name, good := good name }) = u
  have hview : u.view = { t.view with key := Function.update t.view.key ret name.val } :=
    hu ▸ fill_view t ret ntp name (good name)
  have hhost : u.host = Function.update t.host ret (name.val, ntp) :=
    hu ▸ Table.modify_read (fun s => (s.name, s.ntp)) _
  have hlb : (u.slot 0).lBak = some last := by
    have hback : u.view.list.back 0 = some last := by
      rw [hview]
      exact hlast.2
    exact hback
  have hlb' : (((u.setLFwd ret 0).setLBak ret last).slot 0).lBak = some last := by
    have hback : ((u.setLFwd ret 0).setLBak ret last).view.list.back 0 = some last := by
      simp only [Table.setLBak_view, Table.setLFwd_view, Function.update_of_ne hret.symm]
      exact hlb
    exact hback
  generalize hw : (((u.setLFwd ret 0).setLBak ret last).setLFwd last ret).setLBak 0 ret = w
  have hwview : w.view = t.view.enter t.view.chain 0 last ret name (t.view.head ret) := by
    rw [← hw, Table.setLBak_view, Table.setLFwd_view, Table.setLBak_view, Table.setLFwd_view, hview]
    simp only [Slots.enter, Cells.join, Function.update_eq_self, Function.update_comm hne]
  have hwhost : w.host = u.host := by simp [← hw]
  refine ⟨{ w with slvcount := w.slvcount + 1 }.modify ret
    fun s => { s with noanswer := 0, needSet := true, seq := 0 }, ?_, ?_, ?_, ?_, ?_⟩
  · simp only [enter, hu, hlb, hlb', hw, Option.bind_eq_bind, Option.bind_some]
  · refine Eq.trans (Table.modify_view _ ?_ ?_ ?_ ?_ ?_ ?_) hwview <;> exact fun _ => rfl
  · refine Eq.trans (Table.modify_host _ ?_ ?_) (hwhost.trans hhost) <;> exact fun _ => rfl
  · exact congrArg (· + 1) (hw ▸ hu ▸ rfl)
  · exact hw ▸ hu ▸ rfl

theorem release_slot (t : Table) {q i : ℕ} (hq : q ≠ i) : (t.release i).slot q = t.slot q := by
  rw [Table.release, Table.modify_slot_of_ne _ hq]

theorem release_same (t : Table) {q i : ℕ} (hq : q ≠ i) : t.view.Same (t.release i).view q := by
  have hslot := release_slot t hq
  refine ⟨⟨?_, ?_, rfl⟩, ⟨?_, ?_, rfl⟩, ?_, ?_⟩
  · exact congrArg Slot.hFwd hslot
  · exact congrArg Slot.hBak hslot
  · exact congrArg Slot.lFwd hslot
  · exact congrArg Slot.lBak hslot
  · exact congrArg Slot.name hslot
  · exact congrArg Slot.head hslot

theorem release_host (t : Table) {q i : ℕ} (hq : q ≠ i) : (t.release i).host q = t.host q := by
  rw [Table.host, Table.host, release_slot t hq]

theorem release_name (t : Table) (i : ℕ) : ((t.release i).slot i).name = [] := by
  rw [Table.release, Table.modify_slot_self]

/-- From `lasthfree` on, so many slots are looked at before `i`. -/
def distance (lasthfree i : ℕ) : ℕ :=
  if lasthfree ≤ i then i - lasthfree else NHOSTS - lasthfree + i

theorem freeSlot_eq {fuel i : ℕ} (hfirst : (t.slot 0).name ≠ []) (hlast : t.lasthfree ≤ NHOSTS)
    (hi : i ≠ 0) (hi' : i ≤ NHOSTS) (hfree : (t.slot i).name = [])
    (hfuel : distance t.lasthfree i < fuel) :
    ∃ ret lasthfree, freeSlot fuel t = some (ret, { t with lasthfree := lasthfree }) ∧ ret ≠ 0 ∧
      ret ≤ NHOSTS ∧ (t.slot ret).name = [] ∧ lasthfree ≤ NHOSTS := by
  induction fuel generalizing t with
  | zero => exact absurd hfuel (Nat.not_lt_zero _)
  | succ fuel ih =>
    rw [freeSlot]
    generalize hnext : (if NHOSTS < t.lasthfree + 1 then 1 else t.lasthfree + 1) = next
    have hnext' : next ≤ NHOSTS := by
      rw [← hnext]
      unfold NHOSTS
      split <;> omega
    by_cases hname : (t.slot t.lasthfree).name = []
    · refine ⟨t.lasthfree, next, if_neg (not_not_intro hname), ?_, hlast, hname, hnext'⟩
      intro heq
      exact hfirst (heq ▸ hname)
    · have hne : t.lasthfree ≠ i := fun heq => hname (heq ▸ hfree)
      have hdistance : distance next i < fuel := by
        unfold distance NHOSTS at *
        subst hnext
        split at hfuel <;> split <;> split_ifs at * <;> omega
      obtain ⟨ret, lasthfree, heq, hret⟩ := ih (t := { t with lasthfree := next }) hfirst hnext'
        hfree hdistance
      exact ⟨ret, lasthfree, (if_pos hname).trans heq, hret⟩

/-! ## The hosts in the table -/

/-- A name that can be in the table of the host `hostname`: it is not empty, it is another one's,
and its home is a slot. -/
structure Proper (hostname name : Bytes) : Prop where
  nonempty : name ≠ []
  other : name ≠ hostname
  home : ∃ k, Hosttbl.home name = some k

/-- The hosts of the table are in the slots `order`, in the order of the list. -/
structure Inv (hostname : Bytes) (t : Table) (order : List ℕ) : Prop where
  rings : ClosedHash Hosttbl.home 0 t.view order
  self : (t.slot 0).name = hostname
  free : t.lasthfree ≤ NHOSTS
  count : t.slvcount = order.length
  range : ∀ i ∈ order, i ≤ NHOSTS
  taken : ∀ i ∈ order, (t.slot i).name ≠ []
  empty : ∀ i ∉ 0 :: order, i ≤ NHOSTS → (t.slot i).name = []

theorem home_lt {name : Bytes} {k : ℕ} (h : Hosttbl.home name = some k) : k < NHOSTS := by
  have hmod : (hash name).toInt.tmod NHOSTS < NHOSTS := Int.tmod_lt_of_pos _ (by decide)
  unfold Hosttbl.home at h
  simp only [Option.ite_none_right_eq_some, Option.some.injEq] at h
  omega

theorem findFrom_eq (t : Table) (name : Bytes) {k x : ℕ} {xs : List ℕ} {fuel : ℕ}
    (hlinked : (x :: (xs ++ [k])).IsChain t.view.chain.Linked) (hk : k ∉ xs)
    (hfuel : xs.length < fuel) :
    findFrom t name k fuel x = some ((x :: xs).find? fun i => name = (t.slot i).name) := by
  induction xs generalizing x fuel with
  | nil =>
    obtain ⟨fuel, rfl⟩ := Nat.exists_eq_add_of_lt hfuel
    have hnext : (t.slot x).hFwd = some k := (List.isChain_pair.mp hlinked).1
    rw [List.length_nil, Nat.zero_add, findFrom]
    by_cases hname : name = (t.slot x).name
    · rw [if_pos hname]
      simp [hname]
    · rw [if_neg hname]
      simp [hname, hnext]
  | cons y ys ih =>
    obtain ⟨hxy, hrest⟩ := List.isChain_cons_cons.mp hlinked
    obtain ⟨hky, hkys⟩ := not_or.mp (List.mem_cons.not.mp hk)
    obtain ⟨fuel, rfl⟩ : ∃ fuel', fuel = fuel' + 1 := ⟨fuel - 1, by omega⟩
    have hnext : (t.slot x).hFwd = some y := hxy.1
    rw [findFrom]
    by_cases hname : name = (t.slot x).name
    · rw [if_pos hname]
      simp [hname]
    · have hloop := ih hrest hkys (Nat.lt_of_succ_lt_succ hfuel)
      rw [if_neg hname, hnext, Option.bind_eq_bind, Option.bind_some, if_neg (Ne.symm hky), hloop]
      simp [hname]

namespace Inv

variable {hostname : Bytes} {order : List ℕ} {i k : ℕ}

theorem nodup (H : Inv hostname t order) : (0 :: order).Nodup := H.rings.list.distinct

theorem length_le (H : Inv hostname t order) {xs : List ℕ} (hxs : xs.Nodup)
    (hsub : ∀ i ∈ xs, i ∈ 0 :: order) : xs.length ≤ NHOSTS + 1 := by
  have hrange : xs ⊆ List.range (NHOSTS + 1) := by
    intro i hi
    rw [List.mem_range, Nat.lt_succ_iff]
    rcases List.mem_cons.mp (hsub i hi) with rfl | hi
    · exact Nat.zero_le NHOSTS
    · exact H.range i hi
  have hle := (List.subperm_of_subset hxs hrange).length_le
  rwa [List.length_range] at hle

theorem mem_of_name (H : Inv hostname t order) (hk : k ≤ NHOSTS) (hname : (t.slot k).name ≠ []) :
    k ∈ 0 :: order := by
  by_contra hmem
  exact hname (H.empty k hmem hk)

theorem name_inj (H : Inv hostname t order) {j : ℕ} (hi : i ∈ order) (hj : j ∈ order)
    (hname : (t.slot i).name = (t.slot j).name) : i = j :=
  List.inj_on_of_nodup_map H.rings.keys hi hj hname

theorem findhost_eq (H : Inv hostname t order) (hhost : hostname ≠ []) {name : Bytes}
    (hproper : Proper hostname name) :
    ∃ k found, findhost t name = some (k, found) ∧ Hosttbl.home name = some k ∧
      ∀ i, found = some i ↔ i ∈ order ∧ (t.slot i).name = name := by
  obtain ⟨k, hk⟩ := hproper.home
  have hfirst : (t.slot 0).name ≠ [] := H.self ▸ hhost
  by_cases hempty : (t.slot k).name = []
  · refine ⟨k, none, ?_, hk, fun i => iff_of_false nofun ?_⟩
    · simp [findhost, hk, hempty]
    · rintro ⟨hi, rfl⟩
      obtain ⟨k', hk', hhome, -, -⟩ := H.rings.homes i hi
      obtain rfl := Option.some.inj (hk.symm.trans hhome)
      rcases List.mem_cons.mp hk' with rfl | hk'
      · exact hfirst hempty
      · exact H.taken k hk' hempty
  · obtain ⟨ys, hring, hsub, hall⟩ :=
      H.rings.walk (H.mem_of_name (home_lt hk).le hempty)
    obtain ⟨hkys, -⟩ := List.nodup_cons.mp hring.distinct
    have hlength := H.length_le hring.distinct hsub
    rw [List.length_cons] at hlength
    have hfind := findFrom_eq t name hring.linked hkys (Nat.lt_of_succ_le hlength)
    refine ⟨k, (k :: ys).find? fun i => name = (t.slot i).name, ?_, hk, fun i => ?_⟩
    · simp [findhost, hk, hempty, hfind]
    · constructor
      · intro hfound
        have hname : name = (t.slot i).name := by simpa using List.find?_some hfound
        rcases List.mem_cons.mp (hsub i (List.mem_of_find?_eq_some hfound)) with rfl | hi
        · exact absurd (hname.trans H.self) hproper.other
        · exact ⟨hi, hname.symm⟩
      · rintro ⟨hi, rfl⟩
        cases hfound : (k :: ys).find? fun j => (t.slot i).name = (t.slot j).name with
        | none =>
          have hnone := List.find?_eq_none.mp hfound i (hall i hi hk)
          exact absurd (decide_eq_true rfl) hnone
        | some j =>
          have hname : (t.slot i).name = (t.slot j).name := by simpa using List.find?_some hfound
          rcases List.mem_cons.mp (hsub j (List.mem_of_find?_eq_some hfound)) with rfl | hj
          · exact absurd (hname.trans H.self) hproper.other
          · exact congrArg some (H.name_inj hj hi hname.symm)

/-- There is a free slot as long as there are less than `NHOSTS` hosts, and the loop finds one. -/
theorem freeSlot_spec (H : Inv hostname t order) (hhost : hostname ≠ [])
    (hroom : order.length < NHOSTS) :
    ∃ ret lasthfree, freeSlot (NHOSTS + 2) t = some (ret, { t with lasthfree := lasthfree }) ∧
      ret ∉ 0 :: order ∧ ret ≤ NHOSTS ∧ lasthfree ≤ NHOSTS := by
  obtain ⟨i, hi, hmem⟩ : ∃ i ∈ List.range (NHOSTS + 1), i ∉ 0 :: order := by
    by_contra hall
    push Not at hall
    have hle := (List.subperm_of_subset List.nodup_range hall).length_le
    rw [List.length_range, List.length_cons] at hle
    omega
  have hi0 : i ≠ 0 := fun heq => hmem (heq ▸ List.mem_cons_self)
  have hiN : i ≤ NHOSTS := Nat.lt_succ_iff.mp (List.mem_range.mp hi)
  have hdistance : distance t.lasthfree i < NHOSTS + 2 := by
    unfold distance
    split <;> omega
  obtain ⟨ret, lasthfree, heq, hret0, hretN, hname, hfree⟩ :=
    freeSlot_eq (H.self.symm ▸ hhost) H.free hi0 hiN (H.empty i hmem hiN) hdistance
  refine ⟨ret, lasthfree, heq, fun hret => ?_, hretN, hfree⟩
  rcases List.mem_cons.mp hret with heq | hret
  · exact hret0 heq
  · exact H.taken ret hret hname

end Inv

end Netkit.Timed.Hosttbl

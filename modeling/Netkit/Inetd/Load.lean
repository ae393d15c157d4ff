import Netkit.Inetd.Operations

/-!
# Loading one entry

What an entry of the file does to the table. Entries are told apart by their keys, and a table
has one entry for a key.
-/

namespace Netkit.Inetd

open Netkit.Foundations

theorem sameService_iff {cp sep : Servtab} : sameService cp sep = true ↔ sep.key = cp.key := by
  unfold sameService Servtab.key Conf.key Servtab.conf
  cases sep.address <;> cases cp.address <;> simp [and_assoc]

def confsOf (hosts : Hosts) (l : List (List Text)) : List Conf :=
  l.filterMap (fun fields => (assembleEntry hosts fields).toOption)

theorem confsOf_ok {hosts : Hosts} {fields : List Text} {c : Conf} (l : List (List Text))
    (h : assembleEntry hosts fields = .ok c) :
    confsOf hosts (fields :: l) = c :: confsOf hosts l := by
  unfold confsOf
  rw [List.filterMap_cons, h]
  rfl

theorem confsOf_error {hosts : Hosts} {fields : List Text} {message : String}
    (l : List (List Text)) (h : assembleEntry hosts fields = .error message) :
    confsOf hosts (fields :: l) = confsOf hosts l := by
  unfold confsOf
  rw [List.filterMap_cons, h]
  rfl

theorem mem_confs {hosts : Hosts} {file : Text} {fields : List Text} {c : Conf}
    (hmem : fields ∈ entries file) (h : assembleEntry hosts fields = .ok c) :
    c ∈ confs hosts file := by
  refine List.mem_filterMap.mpr ⟨fields, hmem, ?_⟩
  rw [h]
  rfl

def firstConf (cs : List Conf) (k : Text × Text × Option Nat) : Option Conf :=
  cs.find? (fun c => decide (c.key = k))

theorem firstConf_head {c : Conf} {cs : List Conf} {k : Text × Text × Option Nat}
    (h : c.key = k) : firstConf (c :: cs) k = some c := by
  unfold firstConf
  rw [List.find?_cons, decide_eq_true h]

theorem firstConf_tail {c : Conf} {cs : List Conf} {k : Text × Text × Option Nat}
    (h : c.key ≠ k) : firstConf (c :: cs) k = firstConf cs k := by
  unfold firstConf
  rw [List.find?_cons, decide_eq_false h]

/-! ## The place of an entry -/

theorem table_cases (k : Text × Text × Option Nat) (T : List Servtab) :
    (∀ e ∈ T, e.key ≠ k) ∨
      ∃ A e B, T = A ++ e :: B ∧ (∀ x ∈ A, x.key ≠ k) ∧ e.key = k := by
  induction T with
  | nil => exact Or.inl (fun e he => absurd he List.not_mem_nil)
  | cons e T ih =>
    by_cases hkey : e.key = k
    · exact Or.inr ⟨[], e, T, rfl, fun x hx => absurd hx List.not_mem_nil, hkey⟩
    · rcases ih with hnone | ⟨A, x, B, rfl, hA, hx⟩
      · exact Or.inl (List.forall_mem_cons.mpr ⟨hkey, hnone⟩)
      · exact Or.inr ⟨e :: A, x, B, rfl, List.forall_mem_cons.mpr ⟨hkey, hA⟩, hx⟩

theorem findIdx?_absent {p : Servtab → Bool} {T : List Servtab} (h : ∀ e ∈ T, p e = false) :
    T.findIdx? p = none :=
  List.findIdx?_eq_none_iff.mpr h

theorem findIdx?_middle {p : Servtab → Bool} {A : List Servtab} {e : Servtab} (B : List Servtab)
    (hA : ∀ x ∈ A, p x = false) (he : p e = true) :
    (A ++ e :: B).findIdx? p = some A.length := by
  rw [List.findIdx?_append, findIdx?_absent hA, List.findIdx?_cons, if_pos he]
  simp

theorem getElem?_middle {A : List Servtab} {e : Servtab} {B : List Servtab} :
    (A ++ e :: B)[A.length]? = some e := by simp

theorem set_middle {A : List Servtab} {e x : Servtab} {B : List Servtab} :
    (A ++ e :: B).set A.length x = A ++ x :: B := by simp

/-! ## The merge -/

def Conf.merge (old new : Conf) : Conf :=
  { new with
    service := old.service
    address := if new.address.isSome then new.address else old.address
    sinAddr := old.sinAddr
    socktype := old.socktype
    family := old.family
    proto := old.proto
    wait := if new.bi = none ∧ (old.wait = 1 ∨ new.wait = 0) then new.wait else old.wait
    group := if new.group.isSome then new.group else old.group
    bi := old.bi }

theorem merge_conf {sep cp : Servtab} (h : sep.key = cp.key) :
    (merge sep cp).1.conf = sep.conf.merge cp.conf := by
  have hservice : sep.service.text = cp.service.text := congrArg Prod.fst h
  unfold merge Conf.merge Servtab.conf
  cases cp.address <;> cases cp.group <;> simp [hservice]

theorem merge_key {new : Conf} (old : Conf) (h : old.key = new.key) : (old.merge new).key = old.key := by
  have haddress : old.address.map (fun _ => old.sinAddr) = new.address.map (fun _ => new.sinAddr) :=
    congrArg (fun k => k.2.2) h
  unfold Conf.merge Conf.key
  cases hold : old.address <;> cases hnew : new.address <;> simp_all

/-! ## The texts fit -/

/-- The words of an entry fit into their array, and an alias into the buffer for the official
name. -/
structure FileOk (hosts : Hosts) (file : Text) : Prop where
  fields : ∀ fields ∈ entries file, fields.length ≤ MAXARGV + 5
  aliases : ∀ c ∈ confs hosts file, ∀ name ∈ officialName hosts c, aliasFits name c

theorem fileOk_iff {hosts : Hosts} {file : Text} :
    FileOk hosts file ↔ (∀ fields ∈ entries file, fields.length ≤ MAXARGV + 5) ∧
      ∀ c ∈ confs hosts file, ∀ name ∈ officialName hosts c, aliasFits name c :=
  ⟨fun h => ⟨h.fields, h.aliases⟩, fun h => ⟨h.1, h.2⟩⟩

instance (hosts : Hosts) (file : Text) : Decidable (FileOk hosts file) :=
  decidable_of_iff _ fileOk_iff.symm

def Servtab.moved (b : Nat) (e : Servtab) : Servtab :=
  { e with
    service := { e.service with block := b }
    address := e.address.map (fun a => { a with block := b }) }

@[simp] theorem moved_conf (b : Nat) (e : Servtab) : (e.moved b).conf = e.conf := by
  unfold Servtab.moved Servtab.conf
  cases e.address <;> rfl

theorem moved_assembled (b : Nat) (c : Conf) : (assembled b c).moved b = assembled b c := by
  unfold Servtab.moved assembled
  cases c.address <;> rfl

@[simp] theorem assembled_conf (b : Nat) (c : Conf) : (assembled b c).conf = c := by
  have hargv : (c.argv.mapIdx (fun i a => (⟨b + 6 + i, a⟩ : Str))).map Str.text = c.argv :=
    List.ext_getElem (by simp) (by simp)
  unfold assembled Servtab.conf
  cases c with
  | mk service address sinAddr socktype family proto rpcversl rpcversh max wait user group =>
    cases address <;> cases group <;> simp_all

def renamed (hosts : Hosts) (cp : Servtab) (heap : Heap) : Nat × Heap :=
  match officialName hosts cp.conf with
  | none => (cp.service.block, heap)
  | some _ => (heap.next, (heap.alloc 1).free [cp.service.block])

theorem rename_assembled {hosts : Hosts} {c : Conf} (b : Nat) (heap : Heap)
    (h : ∀ name, officialName hosts c = some name → aliasFits name c) :
    rename hosts (assembled b c) heap =
      .ok ((assembled b c).moved (renamed hosts (assembled b c) heap).1,
        (renamed hosts (assembled b c) heap).2) := by
  unfold rename renamed
  rw [assembled_conf]
  cases hname : officialName hosts c with
  | none =>
    dsimp only
    exact congrArg (fun e => Except.ok (e, heap)) (moved_assembled b c).symm
  | some name =>
    dsimp only
    rw [if_pos (h name hname)]
    rfl

/-! ## The two cases -/

variable {hosts : Hosts} {calls : Calls} {cp cp' : Servtab} {s : State} {heap : Heap}

theorem loadconfigent_new (hrename : rename hosts cp s.heap = .ok (cp', heap))
    (hnone : ∀ e ∈ s.servtab, e.key ≠ cp'.key) :
    loadconfigent hosts calls cp s =
      (activate hosts calls (entered cp') s.net).map (fun r =>
        { s with servtab := r.1 :: s.servtab, heap, net := r.2 }) := by
  have habsent : s.servtab.findIdx? (sameService cp') = none :=
    findIdx?_absent (fun e he => Bool.eq_false_iff.mpr (fun hsame =>
      hnone e he (sameService_iff.mp hsame)))
  unfold loadconfigent
  rw [hrename]
  simp only [bind, Except.bind, habsent]
  cases activate hosts calls (entered cp') s.net <;> rfl

/-- There is an entry for the service: the second one of a file is skipped, the first one is
merged into that of the table. -/
theorem loadconfigent_old {A B : List Servtab} {e : Servtab}
    (hrename : rename hosts cp s.heap = .ok (cp', heap)) (htable : s.servtab = A ++ e :: B)
    (hA : ∀ x ∈ A, x.key ≠ cp'.key) (he : e.key = cp'.key) :
    loadconfigent hosts calls cp s =
      if e.checked then .ok { s with heap }
      else
        (activate hosts calls { (merge e cp').1 with checked := true } s.net).map (fun r =>
          { s with
            servtab := A ++ r.1 :: B
            heap := heap.free (merge e cp').2.blocks
            net := r.2 }) := by
  have hA' : ∀ x ∈ A, sameService cp' x = false := fun x hx =>
    Bool.eq_false_iff.mpr (fun hsame => hA x hx (sameService_iff.mp hsame))
  have hfound : s.servtab.findIdx? (sameService cp') = some A.length := by
    rw [htable, findIdx?_middle B hA' (sameService_iff.mpr he)]
  have hget : s.servtab[A.length]? = some e := by
    rw [htable, getElem?_middle]
  unfold loadconfigent
  rw [hrename]
  simp only [bind, Except.bind, hfound, hget]
  split
  · rfl
  · rw [htable]
    cases activate hosts calls { (merge e cp').1 with checked := true } s.net with
    | error stop => rfl
    | ok r =>
      show Except.ok _ = Except.ok _
      rw [set_middle]

end Netkit.Inetd

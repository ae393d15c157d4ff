import Mathlib.Algebra.BigOperators.Group.List.Basic
import Mathlib.Algebra.Order.Ring.Nat
import Netkit.Foundations.Runs

/-!
# A follower and an authority

Two parties keep a setting in common and talk over two FIFO channels. The follower sends requests;
the authority decides about each and sends a notice whenever it has changed the setting or turned
the request down. The follower takes over what a notice tells it, or answers with a request of its
own. Both change their setting on their own account, too, and say so.

Requests and notices may cross. But the last notice on its way always tells the setting of the
authority, and when there is none, the parties agree or the setting of the follower is on its way.
-/

namespace Netkit.Foundations

/-- Followers, authorities, requests and notices. -/
structure Exchange (γ σ ρ μ : Type*) where
  follow : γ → μ → γ × Option ρ
  decide : σ → ρ → σ × Option μ
  Agree : γ → σ → Prop
  /-- The request carries the setting of the follower. -/
  Shows : ρ → γ → Prop
  /-- The notice carries the setting of the authority. -/
  Tells : μ → σ → Prop
  Proper : γ → Prop
  Sound : σ → Prop
  /-- The request is one that a proper follower sends. -/
  Fits : ρ → Prop
  weightRequest : ρ → Nat
  weightNotice : μ → Nat
  tells : ∀ a r m, Sound a → (decide a r).2 = some m → Tells m (decide a r).1
  silent_shows : ∀ f a r, Sound a → (decide a r).2 = none → Shows r f → Agree f (decide a r).1
  silent_agree : ∀ f a r, Sound a → (decide a r).2 = none → Agree f a → Agree f (decide a r).1
  silent_tells : ∀ a r m, Sound a → (decide a r).2 = none → Tells m a → Tells m (decide a r).1
  followed : ∀ f a m, Proper f → Tells m a →
    Agree (follow f m).1 a ∨ ∃ r, (follow f m).2 = some r ∧ Shows r (follow f m).1
  proper : ∀ f m, Proper f → Proper (follow f m).1
  sound : ∀ a r, Sound a → Sound (decide a r).1
  fits : ∀ f m r, Proper f → (follow f m).2 = some r → Fits r
  notice_lt : ∀ a r m, Sound a → Fits r → (decide a r).2 = some m →
    weightNotice m < weightRequest r
  request_lt : ∀ f m r, Proper f → (follow f m).2 = some r → weightRequest r < weightNotice m
  notice_pos : ∀ m, 0 < weightNotice m
  request_pos : ∀ r, 0 < weightRequest r

structure Following (γ σ ρ μ : Type*) where
  follower : γ
  authority : σ
  /-- On their way to the authority, oldest first. -/
  requests : List ρ
  /-- On their way to the follower, oldest first. -/
  notices : List μ
  deriving DecidableEq

inductive Delivery where
  | request
  | notice

namespace Exchange

variable {γ σ ρ μ : Type*} (x : Exchange γ σ ρ μ)

def deliver (l : Following γ σ ρ μ) : Delivery → Option (Following γ σ ρ μ)
  | .request =>
    match l.requests with
    | [] => none
    | r :: rest =>
      some { l with
        authority := (x.decide l.authority r).1
        requests := rest
        notices := l.notices ++ (x.decide l.authority r).2.toList }
  | .notice =>
    match l.notices with
    | [] => none
    | m :: rest =>
      some { l with
        follower := (x.follow l.follower m).1
        notices := rest
        requests := l.requests ++ (x.follow l.follower m).2.toList }

structure Settling (l : Following γ σ ρ μ) : Prop where
  proper : x.Proper l.follower
  sound : x.Sound l.authority
  fits : ∀ r ∈ l.requests, x.Fits r
  told : ∀ m, l.notices.getLast? = some m → x.Tells m l.authority
  shown : l.notices = [] → x.Agree l.follower l.authority ∨
    ∃ r ∈ l.requests, x.Shows r l.follower

def weight (l : Following γ σ ρ μ) : Nat :=
  (l.requests.map x.weightRequest).sum + (l.notices.map x.weightNotice).sum

variable {x} {l l' : Following γ σ ρ μ}

/-! ## Changes -/

theorem Settling.follower (h : x.Settling l) {f : γ} {r : ρ} (hf : x.Proper f) (hr : x.Fits r)
    (hshows : x.Shows r f) :
    x.Settling { l with follower := f, requests := l.requests ++ [r] } where
  proper := hf
  sound := h.sound
  fits r' hr' := by
    rcases List.mem_append.mp hr' with hold | hnew
    · exact h.fits r' hold
    · rw [List.mem_singleton.mp hnew]
      exact hr
  told := h.told
  shown _ := Or.inr ⟨r, List.mem_append_right _ (List.mem_singleton_self r), hshows⟩

theorem Settling.unchanged (h : x.Settling l) {f : γ} {rs : List ρ} (hf : x.Proper f)
    (hrs : ∀ r ∈ rs, x.Fits r) (hagree : x.Agree l.follower l.authority → x.Agree f l.authority)
    (hshows : ∀ r, x.Shows r l.follower → x.Shows r f) :
    x.Settling { l with follower := f, requests := l.requests ++ rs } where
  proper := hf
  sound := h.sound
  fits r' hr' := by
    rcases List.mem_append.mp hr' with hold | hnew
    · exact h.fits r' hold
    · exact hrs r' hnew
  told := h.told
  shown hnotices := by
    rcases h.shown hnotices with hold | ⟨r, hr, hshow⟩
    · exact Or.inl (hagree hold)
    · exact Or.inr ⟨r, List.mem_append_left _ hr, hshows r hshow⟩

theorem Settling.authority (h : x.Settling l) {a : σ} {m : μ} (ha : x.Sound a)
    (htells : x.Tells m a) :
    x.Settling { l with authority := a, notices := l.notices ++ [m] } where
  proper := h.proper
  sound := ha
  fits := h.fits
  told m' hm' := by
    have hm' : (l.notices ++ [m]).getLast? = some m' := hm'
    rw [List.getLast?_concat] at hm'
    cases hm'
    exact htells
  shown hnotices := absurd hnotices (List.append_ne_nil_of_right_ne_nil _ (List.cons_ne_nil _ _))

theorem Settling.kept (h : x.Settling l) {a : σ} (ha : x.Sound a)
    (hagree : ∀ f, x.Agree f l.authority → x.Agree f a)
    (htells : ∀ m, x.Tells m l.authority → x.Tells m a) :
    x.Settling { l with authority := a } where
  proper := h.proper
  sound := ha
  fits := h.fits
  told m hm := htells m (h.told m hm)
  shown hnotices := (h.shown hnotices).imp_left (hagree l.follower)

/-! ## Deliveries -/

theorem Settling.deliverRequest (h : x.Settling l) {r : ρ} {rest : List ρ}
    (hrequests : l.requests = r :: rest) :
    x.Settling { l with
      authority := (x.decide l.authority r).1
      requests := rest
      notices := l.notices ++ (x.decide l.authority r).2.toList } := by
  have hrest : ∀ r' ∈ rest, x.Fits r' := fun r' hr' =>
    h.fits r' (hrequests ▸ List.mem_cons_of_mem r hr')
  have hsound := x.sound l.authority r h.sound
  cases hanswer : (x.decide l.authority r).2 with
  | none =>
    refine ⟨h.proper, hsound, hrest, fun m hm => ?_, fun hnotices => ?_⟩
    · dsimp only [Option.toList_none] at hm
      rw [List.append_nil] at hm
      exact x.silent_tells l.authority r m h.sound hanswer (h.told m hm)
    · dsimp only [Option.toList_none] at hnotices
      rw [List.append_nil] at hnotices
      rcases h.shown hnotices with hagree | ⟨r', hr', hshows⟩
      · exact Or.inl (x.silent_agree l.follower l.authority r h.sound hanswer hagree)
      · rw [hrequests] at hr'
        rcases List.mem_cons.mp hr' with rfl | hr'
        · exact Or.inl (x.silent_shows l.follower l.authority r' h.sound hanswer hshows)
        · exact Or.inr ⟨r', hr', hshows⟩
  | some m =>
    refine ⟨h.proper, hsound, hrest, fun m' hm' => ?_, fun hnotices => ?_⟩
    · dsimp only [Option.toList_some] at hm'
      rw [List.getLast?_concat] at hm'
      cases hm'
      exact x.tells l.authority r m h.sound hanswer
    · exact absurd hnotices (List.append_ne_nil_of_right_ne_nil _ (List.cons_ne_nil _ _))

theorem Settling.deliverNotice (h : x.Settling l) {m : μ} {rest : List μ}
    (hnotices : l.notices = m :: rest) :
    x.Settling { l with
      follower := (x.follow l.follower m).1
      notices := rest
      requests := l.requests ++ (x.follow l.follower m).2.toList } := by
  refine ⟨x.proper l.follower m h.proper, h.sound, fun r hr => ?_, fun m' hm' => ?_,
    fun hempty => ?_⟩
  · rcases List.mem_append.mp hr with hold | hnew
    · exact h.fits r hold
    · exact x.fits l.follower m r h.proper (Option.mem_toList.mp hnew)
  · refine h.told m' ?_
    cases rest with
    | nil => cases hm'
    | cons m'' rest =>
      rw [hnotices, List.getLast?_cons_cons]
      exact hm'
  · have hempty : rest = [] := hempty
    have htells : x.Tells m l.authority := by
      refine h.told m ?_
      rw [hnotices, hempty]
      rfl
    rcases x.followed l.follower l.authority m h.proper htells with hagree | ⟨r, hr, hshows⟩
    · exact Or.inl hagree
    · refine Or.inr ⟨r, ?_, hshows⟩
      dsimp only
      rw [hr]
      exact List.mem_append_right _ (List.mem_singleton_self r)

theorem Settling.deliver (h : x.Settling l) {d : Delivery} (hstep : x.deliver l d = some l') :
    x.Settling l' := by
  cases d with
  | request =>
    rw [Exchange.deliver] at hstep
    split at hstep
    · cases hstep
    · cases hstep
      exact h.deliverRequest ‹_›
  | notice =>
    rw [Exchange.deliver] at hstep
    split at hstep
    · cases hstep
    · cases hstep
      exact h.deliverNotice ‹_›

theorem quiet_of_stop (hstop : ∀ d, x.deliver l d = none) : l.requests = [] ∧ l.notices = [] := by
  constructor
  · have h := hstop .request
    rw [deliver] at h
    split at h
    · assumption
    · cases h
  · have h := hstop .notice
    rw [deliver] at h
    split at h
    · assumption
    · cases h

theorem Settling.agree (h : x.Settling l) (hstop : ∀ d, x.deliver l d = none) :
    x.Agree l.follower l.authority := by
  obtain ⟨hrequests, hnotices⟩ := quiet_of_stop hstop
  rcases h.shown hnotices with hagree | ⟨r, hr, -⟩
  · exact hagree
  · rw [hrequests] at hr
    exact absurd hr List.not_mem_nil

theorem deliver_weight (h : x.Settling l) {d : Delivery} (hstep : x.deliver l d = some l') :
    x.weight l' < x.weight l := by
  cases d with
  | request =>
    rw [Exchange.deliver] at hstep
    split at hstep
    · cases hstep
    · rename_i r rest hrequests
      cases hstep
      have hfits : x.Fits r := h.fits r (hrequests ▸ List.mem_cons_self)
      rw [weight, weight, hrequests, List.map_cons, List.sum_cons, List.map_append,
        List.sum_append]
      cases hanswer : (x.decide l.authority r).2 with
      | none =>
        have hpos := x.request_pos r
        simp only [Option.toList_none, List.map_nil, List.sum_nil]
        omega
      | some m =>
        have hlt := x.notice_lt l.authority r m h.sound hfits hanswer
        simp only [Option.toList_some, List.map_singleton, List.sum_singleton]
        omega
  | notice =>
    rw [Exchange.deliver] at hstep
    split at hstep
    · cases hstep
    · rename_i m rest hnotices
      cases hstep
      rw [weight, weight, hnotices, List.map_cons, List.sum_cons, List.map_append,
        List.sum_append]
      cases hanswer : (x.follow l.follower m).2 with
      | none =>
        have hpos := x.notice_pos m
        simp only [Option.toList_none, List.map_nil, List.sum_nil]
        omega
      | some r =>
        have hlt := x.request_lt l.follower m r h.proper hanswer
        simp only [Option.toList_some, List.map_singleton, List.sum_singleton]
        omega

theorem Settling.deliveries (h : x.Settling l) {ds : List Delivery}
    (hrun : run x.deliver l ds = some l') : x.Settling l' :=
  run_invariant (fun _ _ _ hl hstep => hl.deliver hstep) h hrun

theorem deliveries_le (h : x.Settling l) {ds : List Delivery}
    (hrun : run x.deliver l ds = some l') : ds.length ≤ x.weight l :=
  run_length_le (fun _ _ _ hl hstep => hl.deliver hstep)
    (fun _ _ _ hl hstep => deliver_weight hl hstep) h hrun

end Exchange

end Netkit.Foundations

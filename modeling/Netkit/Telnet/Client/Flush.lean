import Netkit.Telnet.Client.RingQueue

/-!
# Flushing a ring

`ringbuf::flush` offers the bytes to the sink in chunks: up to the end of the buffer, and up to
the marked byte. The chunk that begins with the marked byte goes to `writeurg`. A ring that is
full looks like an empty one to the computation of the end of the chunk, which is then empty, and
the assertion about it fails, unless the mark is behind `tail`.

* `flush_safe_iff`: the rings that can be flushed.
-/

namespace Netkit.Telnet.Client

open Netkit.Foundations

/-- A call of `write` or `writeurg`, with the bytes that the sink is offered. -/
structure Offer where
  urgent : Bool
  /-- Each byte with whether it is the marked one. -/
  chunk : List (UInt8 × Bool)
  /-- How many bytes the sink takes. -/
  taken : Nat

namespace Ringbuf

def markedBuf (r : Ringbuf) : List (UInt8 × Bool) :=
  r.buf.mapIdx fun i c => (c, decide ((i : Int) = r.marked))

def markedContents (r : Ringbuf) : List (UInt8 × Bool) :=
  window r.markedBuf r.tail r.count.toNat

/-- The call of the sink that takes `n` bytes. -/
def offer (n : Nat) (r : Ringbuf) : Offer where
  urgent := r.marked = r.tail
  chunk := slice r.markedBuf r.tail r.flushTop.toNat
  taken := n

/-- The calls that the loop of `flush` makes, given the answers. -/
def offers (r : Ringbuf) : List Int → List Offer
  | [] => if 0 < r.count then [r.offer 0] else []
  | answer :: answers =>
    if 0 < r.count then
      if answer ≤ 0 then [r.offer 0]
      else
        let len := r.flushTop - r.tail
        let n := (min answer len).toNat
        r.offer n :: if (n : Int) < len then [] else (r.took n).offers answers
    else []

def delivered (os : List Offer) : List (UInt8 × Bool) := os.flatMap fun o => o.chunk.take o.taken

end Ringbuf

/-- The chunk is urgent if its first byte is the marked one, and no other byte of it is. -/
def Offer.Right (o : Offer) : Prop :=
  ∃ c rest, o.chunk = (c, o.urgent) :: rest ∧ ∀ x ∈ rest, x.2 = false

namespace Ringbuf

/-- `flush` fails no assertion, hands over the oldest bytes and keeps the rest, and its calls are
right. -/
def FlushRight (r : Ringbuf) (answers : List Int) (r' : Ringbuf) : Prop :=
  ∃ rv bytes, r.flush answers = some (rv, bytes, r') ∧
    r.contents = bytes ++ r'.contents ∧
    bytes = (delivered (r.offers answers)).map Prod.fst ∧
    r.markedContents = delivered (r.offers answers) ++ r'.markedContents ∧
    ∀ o ∈ r.offers answers, o.Right

/-- Several calls of `flush`, one after the other, that are right. -/
def FlushesRight : Ringbuf → List (List Int) → Prop
  | _, [] => True
  | r, answers :: more => ∃ r', r.FlushRight answers r' ∧ r'.FlushesRight more

/-- The ring is not full, or the mark is behind `tail`. -/
def Flushable (r : Ringbuf) : Prop := r.count = r.size → r.marked > r.tail

instance (r : Ringbuf) : Decidable r.Flushable := inferInstanceAs (Decidable (_ → _))

/-- There is no mark, or it is on an unread byte or on the next one to come. -/
def Placed (r : Ringbuf) : Prop :=
  r.marked = -1 ∨ ∃ i : Nat, (i : Int) ≤ r.count ∧ r.marked = wrap r.size (r.tail + i)

variable {r r' : Ringbuf}

/-! ## The mark -/

theorem placed_init (mem : List UInt8) : (init mem).Placed := Or.inl rfl

theorem placed_setMark (h : r.Inv) : r.setMark.Placed := by
  have hnonneg := h.nonneg
  refine Or.inr ⟨r.count.toNat, ?_, ?_⟩
  · show (r.count.toNat : Int) ≤ r.count
    omega
  · show (r.head : Int) = wrap r.size (r.tail + r.count.toNat)
    rw [h.head]

theorem placed_clearMark (r : Ringbuf) : r.clearMark.Placed := Or.inl rfl

theorem Placed.supplied (hp : r.Placed) (hmarked : r'.marked = r.marked)
    (hsize : r'.size = r.size) (htail : r'.tail = r.tail) (hcount : r.count ≤ r'.count) :
    r'.Placed := by
  rcases hp with hnone | ⟨i, hi, hmark⟩
  · exact Or.inl (hmarked.trans hnone)
  · refine Or.inr ⟨i, by omega, ?_⟩
    rw [hmarked, hsize, htail, hmark]

theorem Placed.ungetch (h : r.Inv) (hp : r.Placed) (hfree : r.count < r.size) (c : UInt8) :
    (r.ungetch c).Placed := by
  have htail := h.tail
  rcases hp with hnone | ⟨i, hi, hmark⟩
  · exact Or.inl hnone
  · refine Or.inr ⟨i + 1, ?_, ?_⟩
    · simp only [Ringbuf.ungetch]
      omega
    · show r.marked = _
      rw [hmark]
      simp only [Ringbuf.ungetch, wrap]
      split_ifs <;> omega

theorem Placed.later (h : r.Inv) (hp : r.Placed) {n : Nat}
    (hbehind : r.marked ≠ -1 → ∀ i : Nat, (i : Int) ≤ r.count →
      r.marked = wrap r.size (r.tail + i) → n ≤ i)
    (hmarked : r'.marked = r.marked) (hsize : r'.size = r.size)
    (htail : r'.tail = wrap r.size (r.tail + n)) (hcount : r'.count = r.count - n) :
    r'.Placed := by
  have hlt := h.tail
  have hle := h.le
  by_cases hnone : r.marked = -1
  · exact Or.inl (hmarked.trans hnone)
  · rcases hp with hnone' | ⟨i, hi, hmark⟩
    · exact absurd hnone' hnone
    · have hni := hbehind hnone i hi hmark
      refine Or.inr ⟨i - n, by omega, ?_⟩
      rw [hmarked, hmark, hsize, htail, wrap_wrap_add (by omega)]
      congr 2
      omega

theorem Placed.getch (h : r.Inv) (hp : r.Placed) {rv : Nat} {c : UInt8}
    (hg : r.getch = some (rv, c, r')) : r'.Placed := by
  have htail := h.tail
  rw [Ringbuf.getch] at hg
  split at hg
  · dsimp only at hg
    split at hg
    · cases hg
      exact Or.inl rfl
    · rename_i hpos hfirst
      cases hg
      refine hp.later h ?_ rfl rfl rfl rfl
      intro _ i _ hmark
      by_contra hzero
      obtain rfl : i = 0 := by omega
      rw [Nat.add_zero, wrap, if_pos htail] at hmark
      exact hfirst hmark.symm
  · cases hg

theorem Placed.took (h : r.Inv) (hp : r.Placed) {n : Nat}
    (htop : (n : Int) ≤ r.flushTop - r.tail) (hfull : r.Flushable) : (r.took n).Placed := by
  have htail := h.tail
  have hle := h.le
  have hhead := h.head
  by_cases hfirst : r.marked = r.tail
  · refine Or.inl ?_
    simp only [Ringbuf.took]
    rw [if_pos hfirst]
  · refine hp.later h ?_ ?_ rfl rfl rfl
    · intro _ i hi hmark
      have hfull : r.count = r.size → r.marked > r.tail := hfull
      simp only [wrap] at hhead hmark
      simp only [flushTop] at htop
      split_ifs at hhead hmark htop <;> omega
    · simp only [Ringbuf.took]
      rw [if_neg hfirst]

/-! ## One chunk -/

theorem length_markedBuf (r : Ringbuf) : r.markedBuf.length = r.buf.length := List.length_mapIdx

theorem Flushable.chunk (h : r.Inv) (hp : r.Placed) (hfull : r.Flushable) (hpos : 0 < r.count) :
    r.flushTop - r.tail > 0 ∧ r.flushTop - r.tail ≤ r.count ∧ r.flushTop ≤ r.size := by
  have htail := h.tail
  have hle := h.le
  have hhead := h.head
  have hfull : r.count = r.size → r.marked > r.tail := hfull
  rcases hp with hnone | ⟨i, hi, hmark⟩
  · simp only [wrap] at hhead
    simp only [flushTop]
    split_ifs at hhead ⊢ <;> omega
  · simp only [wrap] at hhead hmark
    simp only [flushTop]
    split_ifs at hhead hmark ⊢ <;> omega

theorem flushTop_full (h : r.Inv) (hfull : ¬ r.Flushable) : r.flushTop - r.tail = 0 := by
  have htail := h.tail
  have hhead := h.head
  rw [Flushable, Classical.not_imp] at hfull
  obtain ⟨hcount, hmark⟩ := hfull
  simp only [wrap] at hhead
  simp only [flushTop]
  split_ifs at hhead ⊢ <;> omega

theorem getElem_markedBuf {i : Nat} (hi : i < r.markedBuf.length) :
    r.markedBuf[i].2 = decide ((i : Int) = r.marked) := by
  simp only [markedBuf, List.getElem_mapIdx]

theorem offer_right (h : r.Inv) (hp : r.Placed) (hfull : r.Flushable) (hpos : 0 < r.count)
    (n : Nat) : (r.offer n).Right := by
  obtain ⟨hlen, -, htop⟩ := hfull.chunk h hp hpos
  have htail := h.tail
  have hbuf := r.length_markedBuf
  have hsize := h.size
  have hlt : r.tail < r.markedBuf.length := by omega
  have hslice : slice r.markedBuf r.tail r.flushTop.toNat =
      r.markedBuf[r.tail] :: slice r.markedBuf (r.tail + 1) r.flushTop.toNat := by
    have hlt' : r.tail < (r.markedBuf.take r.flushTop.toNat).length := by
      rw [List.length_take]
      omega
    rw [slice, List.drop_eq_getElem_cons hlt', List.getElem_take, slice]
  have hfirst : r.markedBuf[r.tail].2 = (r.offer n).urgent := by
    rw [getElem_markedBuf]
    exact decide_eq_decide.mpr eq_comm
  refine ⟨r.markedBuf[r.tail].1, slice r.markedBuf (r.tail + 1) r.flushTop.toNat, ?_, ?_⟩
  · rw [← hfirst]
    exact hslice
  · intro x hx
    obtain ⟨k, hk, rfl⟩ := List.mem_iff_getElem.mp hx
    have hk' := hk
    simp only [slice, List.length_drop, List.length_take] at hk'
    simp only [slice, List.getElem_drop, List.getElem_take]
    rw [getElem_markedBuf, decide_eq_false_iff_not]
    simp only [flushTop] at hk'
    split_ifs at hk' <;> omega

theorem map_fst_markedBuf (r : Ringbuf) : r.markedBuf.map Prod.fst = r.buf := by
  refine List.ext_getElem (by rw [List.length_map, length_markedBuf]) fun i hi hi' => ?_
  simp only [markedBuf, List.getElem_map, List.getElem_mapIdx]

theorem took_marked (h : r.Inv) {n : Nat} (hn : (n : Int) ≤ r.count)
    (hpos : 0 < n) (htop : r.tail + n ≤ r.flushTop) (hle : r.flushTop ≤ r.size) :
    r.markedContents = (r.offer n).chunk.take n ++ (r.took n).markedContents := by
  have htail := h.tail
  have hsize := h.size
  have hcount := h.le
  have hbuf := r.length_markedBuf
  obtain ⟨m, hm⟩ : ∃ m : Nat, r.count.toNat = n + m := ⟨r.count.toNat - n, by omega⟩
  have hm' : (r.count - n).toNat = m := by omega
  have hfront : (r.offer n).chunk.take n = window r.markedBuf r.tail n := by
    rw [window_eq_slice (by omega)]
    show (slice r.markedBuf r.tail r.flushTop.toNat).take n = _
    rw [slice, List.drop_take, List.take_take, Nat.min_eq_left (by omega)]
  have hrest : window (r.took n).markedBuf (wrap r.size (r.tail + n)) m =
      window r.markedBuf (wrap r.size (r.tail + n)) m := by
    by_cases hfirst : r.marked = r.tail
    · -- the mark is gone, and its place is behind the bytes that are left
      have hset : (r.took n).markedBuf =
          r.markedBuf.set r.tail (r.buf.getD r.tail default, false) := by
        refine List.ext_getElem ?_ fun i hi hi' => ?_
        · rw [List.length_set, length_markedBuf, length_markedBuf]
          rfl
        · rw [List.getElem_set]
          split
          · rename_i heq
            subst heq
            simp only [markedBuf, Ringbuf.took, List.getElem_mapIdx, hfirst, if_true]
            rw [List.getD_eq_getElem?_getD, List.getElem?_eq_getElem (by omega)]
            rfl
          · rename_i hne
            have hne' : ¬ ((i : Int) = r.tail) := fun heq => hne (by omega)
            simp only [markedBuf, Ringbuf.took, List.getElem_mapIdx, hfirst, if_true, hne']
            congr 2
            simp only [eq_iff_iff, iff_false]
            omega
      rw [hset]
      refine window_set_outside fun k hk => ?_
      rw [hbuf, hsize, wrap_wrap_add (by omega)]
      unfold wrap
      split <;> omega
    · simp only [markedBuf, Ringbuf.took, if_neg hfirst]
  have hcontents : (r.took n).markedContents =
      window r.markedBuf (wrap r.size (r.tail + n)) m := by
    rw [← hrest, ← hm']
    rfl
  rw [hfront, hcontents, markedContents, hm, window_add (by omega) (by omega), hbuf, hsize]

theorem map_fst_offer (n : Nat) (r : Ringbuf) (hn : (n : Int) ≤ r.flushTop - r.tail) :
    ((r.offer n).chunk.take n).map Prod.fst = slice r.buf r.tail (r.tail + n) := by
  show ((slice r.markedBuf r.tail r.flushTop.toNat).take n).map Prod.fst = _
  rw [slice, List.drop_take, List.take_take, Nat.min_eq_left (by omega), List.map_take,
    List.map_drop, map_fst_markedBuf, slice_add]

/-! ## The loop -/

theorem Flushable.took (h : r.Inv) {n : Nat} (hpos : 0 < n) : (r.took n).Flushable := by
  intro hfull
  have hle := h.le
  have hcount : r.count - n = r.size := hfull
  omega

theorem flushLoop_right {answers : List Int} (h : r.Inv) (hp : r.Placed) (hfull : r.Flushable) :
    ∃ rv bytes r', r.flushLoop answers = some (rv, bytes, r') ∧
      bytes = (delivered (r.offers answers)).map Prod.fst ∧
      r.markedContents = delivered (r.offers answers) ++ r'.markedContents ∧
      (∀ o ∈ r.offers answers, o.Right) ∧ r'.Placed ∧ r'.Flushable := by
  have hnothing : ∀ o : Offer, o.taken = 0 → delivered [o] = [] := by
    intro o ho
    rw [delivered, List.flatMap_cons, ho]
    rfl
  induction answers generalizing r with
  | nil =>
    rw [flushLoop, offers]
    by_cases hpos : 0 < r.count
    · obtain ⟨hlen, hle, -⟩ := hfull.chunk h hp hpos
      have hok : ¬ ¬ (r.flushTop - r.tail > 0 ∧ r.flushTop - r.tail ≤ r.count) :=
        not_not_intro ⟨hlen, hle⟩
      dsimp only
      rw [if_pos hpos, if_neg hok, if_pos hpos, hnothing (r.offer 0) rfl]
      refine ⟨-1, [], r, rfl, rfl, rfl, fun o ho => ?_, hp, hfull⟩
      rw [List.mem_singleton.mp ho]
      exact offer_right h hp hfull hpos 0
    · rw [if_neg hpos, if_neg hpos]
      exact ⟨1, [], r, rfl, rfl, rfl, fun o ho => absurd ho List.not_mem_nil, hp, hfull⟩
  | cons answer answers ih =>
    rw [flushLoop, offers]
    by_cases hpos : 0 < r.count
    · obtain ⟨hlen, hle, htop⟩ := hfull.chunk h hp hpos
      have hok : ¬ ¬ (r.flushTop - r.tail > 0 ∧ r.flushTop - r.tail ≤ r.count) :=
        not_not_intro ⟨hlen, hle⟩
      dsimp only
      rw [if_pos hpos, if_neg hok, if_pos hpos]
      by_cases hblock : answer ≤ 0
      · rw [if_pos hblock, hnothing (r.offer 0) rfl]
        have hright : ∀ o ∈ [r.offer 0], o.Right := fun o ho => by
          rw [List.mem_singleton.mp ho]
          exact offer_right h hp hfull hpos 0
        by_cases herror : answer < 0
        · rw [if_pos herror]
          exact ⟨-2, [], r, rfl, rfl, rfl, hright, hp, hfull⟩
        · rw [if_neg herror, if_pos (by omega)]
          exact ⟨-1, [], r, rfl, rfl, rfl, hright, hp, hfull⟩
      · rw [if_neg (by omega), if_neg (by omega), if_neg hblock]
        generalize hn : (min answer (r.flushTop - r.tail)).toNat = n
        have hnpos : 0 < n := by omega
        have hnlen : (n : Int) ≤ r.flushTop - r.tail := by omega
        obtain ⟨hI, hcontents⟩ := @took_spec r h n (by omega) (by omega)
        have hp' := hp.took h hnlen hfull
        have hfull' : (r.took n).Flushable := Flushable.took h hnpos
        have hmarked := took_marked h (by omega) hnpos (by omega) htop
        have hassert : ¬ (((r.took n).size : Int) + (r.took n).head - (r.took n).tail) %
            (r.took n).size ≠ (r.took n).count := by
          have hhead := hI.head_eq_mod
          have hlt : (r.took n).count < (r.took n).size := by
            have := h.le
            simp only [took]
            omega
          have hnonneg := hI.nonneg
          rw [not_not, add_sub_assoc, Int.add_emod_left, hhead, Int.sub_emod, Int.emod_emod_of_dvd _
            (dvd_refl _), ← Int.sub_emod, add_sub_cancel_left]
          exact Int.emod_eq_of_lt hnonneg hlt
        have hright : ∀ os : List Offer, (∀ o ∈ os, o.Right) →
            ∀ o ∈ r.offer n :: os, o.Right := by
          intro os hos o ho
          rcases List.mem_cons.mp ho with rfl | ho
          · exact offer_right h hp hfull hpos n
          · exact hos o ho
        have hbytes : slice r.buf r.tail (r.tail + n) = ((r.offer n).chunk.take n).map Prod.fst :=
          (map_fst_offer n r hnlen).symm
        rw [if_neg hassert]
        by_cases hshort : (n : Int) < r.flushTop - r.tail
        · rw [if_pos hshort, if_pos hshort]
          refine ⟨_, _, _, rfl, ?_, ?_, hright [] (fun o ho => absurd ho List.not_mem_nil), hp',
            hfull'⟩
          · rw [delivered, List.flatMap_cons, List.flatMap_nil, List.append_nil]
            exact hbytes
          · rw [delivered, List.flatMap_cons, List.flatMap_nil, List.append_nil]
            exact hmarked
        · rw [if_neg hshort, if_neg hshort]
          obtain ⟨rv, rest, r'', hloop, hrest, htags, hrights, hp'', hfull''⟩ := ih hI hp' hfull'
          rw [hloop]
          refine ⟨rv, _, r'', rfl, ?_, ?_, hright _ hrights, hp'', hfull''⟩
          · rw [delivered, List.flatMap_cons, List.map_append, hrest, hbytes]
            rfl
          · rw [delivered, List.flatMap_cons, List.append_assoc, hmarked, htags]
            rfl
    · rw [if_neg hpos, if_neg hpos]
      exact ⟨1, [], r, rfl, rfl, rfl, fun o ho => absurd ho List.not_mem_nil, hp, hfull⟩

/-! ## The call -/

theorem flush_starts (h : r.Inv) : ((r.head : Int) - r.tail - r.count) % r.size = 0 := by
  rw [h.head_eq_mod, Int.sub_sub, Int.emod_sub_emod, Int.sub_self, Int.zero_emod]

theorem flush_right {answers : List Int} (h : r.Inv) (hp : r.Placed) (hfull : r.Flushable) :
    ∃ r', r.FlushRight answers r' ∧ r'.Inv ∧ r'.Placed ∧ r'.Flushable := by
  have hnonneg := h.nonneg
  obtain ⟨rv, bytes, r', hloop, hbytes, htags, hright, hp', hfull'⟩ :=
    @flushLoop_right r answers h hp hfull
  have hflush : ∃ rv, r.flush answers = some (rv, bytes, r') := by
    rw [flush, if_neg (by omega)]
    by_cases hempty : r.count = 0
    · rw [if_pos hempty]
      cases answers with
      | nil =>
        rw [flushLoop, if_neg (by omega)] at hloop
        cases hloop
        exact ⟨0, rfl⟩
      | cons answer answers =>
        rw [flushLoop, if_neg (by omega)] at hloop
        cases hloop
        exact ⟨0, rfl⟩
    · rw [if_neg hempty, if_neg (not_not_intro (flush_starts h))]
      exact ⟨rv, hloop⟩
  obtain ⟨rv', hflush⟩ := hflush
  obtain ⟨hI, -, hcontents⟩ := flush_spec h hflush
  exact ⟨r', ⟨rv', bytes, hflush, hcontents, hbytes, htags, hright⟩, hI, hp', hfull'⟩

theorem flush_full {answers : List Int} (h : r.Inv) (hfull : ¬ r.Flushable) :
    r.flush answers = none := by
  have htail := h.tail
  have htop := flushTop_full h hfull
  have hfails : ¬ (r.flushTop - r.tail > 0 ∧ r.flushTop - r.tail ≤ r.count) := by omega
  have hcount : r.count = r.size := (Classical.not_imp.mp hfull).1
  rw [flush, if_neg (by omega), if_neg (by omega), if_neg (not_not_intro (flush_starts h))]
  cases answers with
  | nil =>
    rw [flushLoop]
    dsimp only
    rw [if_pos (by omega), if_pos hfails]
  | cons answer answers =>
    rw [flushLoop]
    dsimp only
    rw [if_pos (by omega), if_pos hfails]

theorem flushable_of_flush {answers : List Int} (h : r.Inv) {rv : Int} {bytes : List UInt8}
    (hflush : r.flush answers = some (rv, bytes, r')) : r.Flushable := by
  by_contra hfull
  rw [flush_full h hfull] at hflush
  cases hflush

theorem flushes_right {flushes : List (List Int)} (h : r.Inv) (hp : r.Placed)
    (hfull : r.Flushable) : r.FlushesRight flushes := by
  induction flushes generalizing r with
  | nil => trivial
  | cons answers flushes ih =>
    obtain ⟨r', hright, h', hp', hfull'⟩ := @flush_right r answers h hp hfull
    exact ⟨r', hright, ih h' hp' hfull'⟩

/-! ## Runs -/

theorem foldl_put_frame (bs : List UInt8) (r : Ringbuf) :
    (bs.foldl put r).marked = r.marked ∧ (bs.foldl put r).size = r.size ∧
      (bs.foldl put r).tail = r.tail ∧ r.count ≤ (bs.foldl put r).count := by
  induction bs generalizing r with
  | nil => exact ⟨rfl, rfl, rfl, Int.le_refl _⟩
  | cons b bs ih =>
    obtain ⟨hmarked, hsize, htail, hcount⟩ := ih (r.put b)
    refine ⟨hmarked, hsize, htail, ?_⟩
    have hput : (r.put b).count = r.count + 1 := rfl
    rw [List.foldl_cons]
    omega

theorem Placed.write (hp : r.Placed) (bs : List UInt8) : (r.write bs).Placed := by
  obtain ⟨hmarked, hsize, htail, hcount⟩ := foldl_put_frame (bs.take (r.size - r.count).toNat) r
  exact hp.supplied hmarked hsize htail hcount

theorem Placed.readSource (hp : r.Placed) (answer : Option (List UInt8)) :
    (r.readSource answer).2.Placed := by
  unfold Ringbuf.readSource
  split
  · exact hp
  · split
    · exact hp
    · rename_i bytes
      refine hp.supplied rfl rfl rfl ?_
      show r.count ≤ r.count + bytes.length
      omega

end Ringbuf

open Ringbuf

variable {supply : Supply} {q q' : Queue}

theorem placed_step (h : q.Inv supply) (hp : q.ring.Placed) {op : RingOp}
    (hs : queueStep supply q op = some q') : q'.ring.Placed := by
  cases op with
  | getch =>
    simp only [queueStep] at hs
    split at hs
    · cases hs
      exact hp
    · rename_i rv c r hg
      cases hs
      exact hp.getch h.ring hg
  | ungetch c =>
    simp only [queueStep] at hs
    split at hs
    · rename_i hlast
      cases hs
      exact hp.ungetch h.ring (h.last c hlast).free c
    · cases hs
  | write bs =>
    simp only [queueStep] at hs
    split at hs
    · cases hs
      exact hp.write bs
    · cases hs
  | putch c =>
    simp only [queueStep] at hs
    split at hs
    · cases hs
      exact hp.write [c]
    · cases hs
  | readSource answer =>
    simp only [queueStep] at hs
    split at hs
    · cases hs
      exact hp.readSource answer
    · cases hs
  | setMark =>
    cases hs
    exact placed_setMark h.ring
  | clearMark =>
    cases hs
    exact placed_clearMark q.ring
  | flush answers =>
    simp only [queueStep] at hs
    split at hs
    · cases hs
    · rename_i rv bytes r hflush
      cases hs
      have hfull := flushable_of_flush h.ring hflush
      obtain ⟨r', ⟨rv', bytes', hflush', -⟩, -, hp', -⟩ := @flush_right _ answers h.ring hp hfull
      rw [hflush] at hflush'
      cases hflush'
      exact hp'

theorem run_placed {mem : List UInt8} (hmem : 0 < mem.length) {ops : List RingOp}
    (hrun : run (queueStep supply) (Queue.start mem) ops = some q) :
    q.Inv supply ∧ q.ring.Placed := by
  refine run_invariant (I := fun q => q.Inv supply ∧ q.ring.Placed) ?_
    ⟨start_inv hmem, placed_init mem⟩ hrun
  rintro s op t ⟨hs, hp⟩ hstep
  exact ⟨(inv_step hs hstep).1, placed_step hs hp hstep⟩

/-- In every state that the calls of a ring lead to, whatever the sink answers to the next calls
of `flush`: no assertion fails, the bytes are handed over in order, each once, and the urgent
chunk is the one that begins with the marked byte, exactly when the ring is not full or the mark
is behind `tail`. -/
theorem flush_safe_iff {mem : List UInt8} (hmem : 0 < mem.length) {ops : List RingOp}
    (hrun : run (queueStep supply) (Queue.start mem) ops = some q) (answers : List Int)
    (more : List (List Int)) :
    q.ring.FlushesRight (answers :: more) ↔ q.ring.Flushable := by
  obtain ⟨h, hp⟩ := run_placed hmem hrun
  constructor
  · rintro ⟨r', ⟨rv, bytes, hflush, -⟩, -⟩
    exact flushable_of_flush h.ring hflush
  · exact flushes_right h.ring hp

/-- Four bytes in a ring of four cells. -/
theorem flush_full_ring :
    ∃ q, run (queueStep .writes) (Queue.start [0, 0, 0, 0]) [.write [1, 2, 3, 4]] = some q ∧
      ¬ q.ring.FlushesRight [[4]] := by
  refine ⟨_, rfl, ?_⟩
  rintro ⟨r', ⟨rv, bytes, hflush, -⟩, -⟩
  cases hflush

/-- A full ring that is wrapped, with a mark on the third byte: the first call hands over one of
the two bytes before it, the second the other one, the urgent byte and the last one. -/
theorem flush_marked_ring :
    ∃ q, run (queueStep .writes) (Queue.start [0, 0, 0, 0])
        [.write [1, 2], .getch, .write [3], .setMark, .write [4, 5]] = some q ∧
      q.ring.FlushesRight [[1], [9, 9, 9]] := by
  have hrun : ∃ q, run (queueStep .writes) (Queue.start [0, 0, 0, 0])
      [.write [1, 2], .getch, .write [3], .setMark, .write [4, 5]] = some q ∧
        q.ring.Flushable :=
    ⟨_, rfl, by decide⟩
  obtain ⟨q, hrun, hfull⟩ := hrun
  exact ⟨q, hrun, (flush_safe_iff (by decide) hrun [1] [[9, 9, 9]]).mpr hfull⟩

end Netkit.Telnet.Client

import Netkit.Rpcgen.SizeCondition

/-!
# Inline code equals plain code

The routine that `emit_struct` generates with inlining on, compared with the one it generates
with inlining off.

* `InlineOk`: the condition on the structure; `inline_faithful`: the generated code is right
  exactly under it.
* `inline_unfaithful`: a structure of two arrays.
-/

namespace Netkit.Rpcgen

open Netkit.Foundations.Expression

/-! ## Segments -/

inductive Segment where
  | basic (run : List Declaration)
  | other (d : Declaration)
deriving DecidableEq

/-- The members, cut at those that are not basic; `run` is the run before them. -/
def segments : List Declaration → List Declaration → List Segment
  | [], run => [.basic run]
  | d :: ds, run =>
    if basicMember d then segments ds (run ++ [d])
    else .basic run :: .other d :: segments ds []

def Segment.members : Segment → List Declaration
  | .basic run => run
  | .other d => [d]

theorem segments_members (ds run : List Declaration) :
    (segments ds run).flatMap Segment.members = run ++ ds := by
  induction ds generalizing run with
  | nil => simp [segments, Segment.members]
  | cons d ds ih =>
    by_cases hd : basicMember d
    · rw [segments, if_pos hd, ih, List.append_assoc]
      rfl
    · rw [segments, if_neg hd, List.flatMap_cons, List.flatMap_cons, ih]
      rfl

def Segment.Valid : Segment → Prop
  | .basic run => ∀ d ∈ run, basicMember d = true
  | .other d => basicMember d = false

theorem segments_valid (ds : List Declaration) {run : List Declaration}
    (hrun : ∀ d ∈ run, basicMember d = true) : ∀ g ∈ segments ds run, g.Valid := by
  induction ds generalizing run with
  | nil =>
    intro g hg
    obtain rfl := List.mem_singleton.mp hg
    exact hrun
  | cons d ds ih =>
    intro g hg
    by_cases hd : basicMember d
    · rw [segments, if_pos hd] at hg
      refine ih (fun e he => ?_) g hg
      rcases List.mem_append.mp he with he | he
      · exact hrun e he
      · obtain rfl := List.mem_singleton.mp he
        exact hd
    · rw [segments, if_neg hd, List.mem_cons, List.mem_cons] at hg
      rcases hg with rfl | rfl | hg
      · exact hrun
      · exact (Bool.not_eq_true _).mp hd
      · exact ih (fun e he => absurd he List.not_mem_nil) g hg

variable (defined : List Typedef) (inlineflag : Nat)

def emitSegment (flag : Flag) : Segment → List Stat
  | .basic run => emitRun defined inlineflag flag run (runSize run) (runSizestr run)
  | .other d => [.ifstat (printStat defined 1 d)]

theorem emitMembers_eq (flag : Flag) (ds run : List Declaration) :
    emitMembers defined inlineflag flag ds run (runSize run) (runSizestr run) =
      (segments ds run).flatMap (emitSegment defined inlineflag flag) := by
  induction ds generalizing run with
  | nil => simp [emitMembers, segments, emitSegment]
  | cons d ds ih =>
    by_cases hd : basicMember d
    · rw [emitMembers, segments, if_pos hd, if_pos hd, ← ih]
      by_cases hrel : d.rel = .alias
      · rw [if_pos hrel, runSize_concat_alias hrel, runSizestr_concat_alias hrel]
      · have hvec := rel_of_basic hd hrel
        rw [if_neg hrel, runSize_concat_vector hvec, runSizestr_concat_vector hvec]
    · have hrest := ih []
      rw [emitMembers, segments, if_neg hd, if_neg hd, List.flatMap_cons, List.flatMap_cons,
        ← hrest]
      rfl

def Expanded (run : List Declaration) : Prop :=
  runArrays run ≠ [] ∨ inlineflag ≤ runSize run

instance (run : List Declaration) : Decidable (Expanded inlineflag run) :=
  inferInstanceAs (Decidable (_ ∨ _))

theorem emitRun_of_expanded {inlineflag : Nat} (hflag : 0 < inlineflag) {run : List Declaration}
    (h : Expanded inlineflag run) (flag : Flag) :
    emitRun defined inlineflag flag run (runSize run) (runSizestr run) =
      [.xdrInline (inlineSize (runSize run) (runSizestr run)) (run.map (printStat defined 2))
        (run.flatMap (emitInline flag))] := by
  have hne : run ≠ [] := by
    rintro rfl
    rcases h with h | h
    · exact h rfl
    · exact absurd h (Nat.not_le.mpr hflag)
  rw [emitRun, if_neg hne, if_neg]
  rintro ⟨hstr, hlt⟩
  rcases h with h | h
  · exact h (runSizestr_eq_none.mp hstr)
  · omega

theorem emitRun_of_not_expanded {inlineflag : Nat} {run : List Declaration}
    (h : ¬ Expanded inlineflag run) (flag : Flag) :
    emitRun defined inlineflag flag run (runSize run) (runSizestr run) =
      (run.map (printStat defined 1)).map Stat.ifstat := by
  simp only [Expanded, not_or, not_not, Nat.not_le] at h
  rw [emitRun, List.map_map]
  split
  · next hnil => rw [hnil]; rfl
  · rw [if_pos ⟨runSizestr_eq_none.mpr h.1, h.2⟩]
    rfl

/-! ## Plain statements -/

def NameFits (d : Declaration) : Prop := (objectName defined d).length < 256

theorem memberName_snprintf (d : Declaration) :
    memberName (snprintf 256 (objectName defined d)) = d.name ↔ NameFits defined d := by
  have hobj : ∀ w : Text, ("objp->".toList ++ w).length = w.length + 6 := by
    intro w
    rw [List.length_append, Nat.add_comm]
    rfl
  have hamp : ∀ w : Text, ("&objp->".toList ++ w).length = w.length + 7 := by
    intro w
    rw [List.length_append, Nat.add_comm]
    rfl
  have htake : ∀ k, d.name.take k = d.name ↔ d.name.length ≤ k := fun k => List.take_eq_self_iff _
  unfold NameFits objectName
  split
  · have hcut : memberName (snprintf 256 ("objp->".toList ++ d.name)) = d.name.take 249 := rfl
    rw [hcut, hobj, htake]
    omega
  · have hcut : memberName (snprintf 256 ("&objp->".toList ++ d.name)) = d.name.take 248 := rfl
    rw [hcut, hamp, htake]
    omega

variable {defined} {inlineflag}
variable {locals : List Text} {c : Values}

theorem printStat_run {d : Declaration} (hvis : Visible locals d) (hname : NameFits defined d)
    (indent : Nat) (s : Stream) :
    (printStat defined indent d).run locals c s =
      some (s.transfer d.name (memberUnits c d)) := by
  have hmember := (memberName_snprintf defined d).mpr hname
  rw [Ifstat.run, if_pos (show Visible locals (printStat defined indent d).dec from hvis)]
  show some (s.transfer (memberName (snprintf 256 (objectName defined d))) _) = _
  rw [hmember]
  rfl

theorem plain_run {ds : List Declaration} (hvis : ∀ d ∈ ds, Visible locals d)
    (hname : ∀ d ∈ ds, NameFits defined d) (indent : Nat) (s : Stream) :
    (ds.map (printStat defined indent)).foldlM (fun s t => t.run locals c s) s =
      some (moveAll c ds s) := by
  induction ds generalizing s with
  | nil => rfl
  | cons d ds ih =>
    rw [List.map_cons, List.foldlM_cons, printStat_run (hvis d List.mem_cons_self)
      (hname d List.mem_cons_self)]
    exact ih (fun e he => hvis e (List.mem_cons_of_mem d he))
      (fun e he => hname e (List.mem_cons_of_mem d he)) _

theorem ifstats_run (inline : Stream → Bool) (ts : List Ifstat) (s : Stream) :
    (ts.map Stat.ifstat).foldlM (fun s t => t.run locals c inline s) s =
      ts.foldlM (fun s t => t.run locals c s) s := by
  rw [List.foldlM_map]
  rfl

/-! ## The inline path -/

theorem basicType_cases {d : Declaration} (h : basicMember d = true) :
    d.type ∈ cInitialize.map BasType.name := by
  obtain ⟨t, ht⟩ := ((basicMember_iff d).mp h).2.1
  obtain ⟨hmem, hname⟩ := findType_mem ht
  exact hname ▸ List.mem_map_of_mem hmem

/-- The XDR library has a call for every basic type. -/
theorem ixdrCall_mem {d : Declaration} (h : basicMember d = true) :
    ixdrCall d.type ∈ ixdrCalls := by
  have hall : ∀ type ∈ cInitialize.map BasType.name, ixdrCall type ∈ ixdrCalls := by decide
  exact hall d.type (basicType_cases h)

/-- Only `bool` has another name in the header file. -/
theorem memberType_eq_iff {d : Declaration} (h : basicMember d = true) :
    d.type = memberType d ↔ d.type ≠ "bool".toList := by
  have hall : ∀ type ∈ cInitialize.map BasType.name, type ≠ "opaque".toList := by decide
  have hopaque := hall d.type (basicType_cases h)
  constructor
  · intro heq hbool
    rw [memberType, if_pos hbool, hbool] at heq
    exact absurd heq (by decide)
  · intro hbool
    rw [memberType, if_neg hbool, if_neg hopaque]

theorem memberUnits_alias {d : Declaration} (h : basicMember d = true) (hrel : d.rel = .alias) :
    memberUnits c d = 1 := by
  rw [memberUnits, if_pos h, if_pos hrel, typeLength_of_basic h]

theorem memberUnits_vector {d : Declaration} (h : basicMember d = true) (hrel : d.rel = .vector) :
    memberUnits c d = boundValue c d := by
  have hne : d.rel ≠ .alias := by rw [hrel]; exact Relation.noConfusion
  rw [memberUnits, if_pos h, if_neg hne, typeLength_of_basic h, Nat.mul_one]
  rfl

theorem sum_memberUnits {run : List Declaration} (hrun : ∀ d ∈ run, basicMember d = true) :
    (run.map (memberUnits c)).sum =
      runSize run + ((runArrays run).map (boundValue c)).sum := by
  induction run with
  | nil => rfl
  | cons d run ih =>
    have hd := hrun d List.mem_cons_self
    have hrest := ih (fun e he => hrun e (List.mem_cons_of_mem d he))
    rw [List.map_cons, List.sum_cons, hrest]
    by_cases hrel : d.rel = .alias
    · rw [memberUnits_alias hd hrel]
      simp only [runSize, runArrays, List.filter_cons, hrel, typeLength_of_basic hd, beq_self_eq_true,
        if_true, List.map_cons, List.sum_cons, reduceCtorEq, beq_iff_eq, if_false]
      omega
    · have hvec := rel_of_basic hd hrel
      rw [memberUnits_vector hd hvec]
      simp only [runSize, runArrays, List.filter_cons, hvec, beq_self_eq_true, if_true,
        List.map_cons, List.sum_cons, reduceCtorEq, beq_iff_eq, if_false]
      omega

/-- The loop over an array can be compiled: `genp` has the type of the elements, and the bound
is not the name of a variable. -/
def LoopOk (locals : List Text) (d : Declaration) : Prop :=
  d.rel = .vector → d.type ≠ "bool".toList ∧ d.arrayMax ∉ "genp".toList :: locals

theorem emitInline_run {d : Declaration} (hd : basicMember d = true) (hloop : LoopOk locals d)
    (flag : Flag) (s : Stream) :
    (emitInline flag d).foldlM (fun s i => i.run locals c s) s =
      some (s.transfer d.name (memberUnits c d)) := by
  by_cases hrel : d.rel = .alias
  · rw [memberUnits_alias hd hrel]
    simp only [emitInline, hrel, List.foldlM_cons, List.foldlM_nil, InlineStat.run,
      if_pos (ixdrCall_mem hd)]
    rfl
  · have hvec := rel_of_basic hd hrel
    obtain ⟨htype, hbound⟩ := hloop hvec
    have hgenp := (memberType_eq_iff hd).mpr htype
    rw [memberUnits_vector hd hvec]
    simp only [emitInline, hvec, List.foldlM_cons, List.foldlM_nil, InlineStat.run,
      if_pos (And.intro hgenp (ixdrCall_mem hd)), lookup_of_not_mem hbound]
    rfl

theorem inlined_run {run : List Declaration} (hrun : ∀ d ∈ run, basicMember d = true)
    (hloop : ∀ d ∈ run, LoopOk locals d) (flag : Flag) (s : Stream) :
    (run.flatMap (emitInline flag)).foldlM (fun s i => i.run locals c s) s =
      some (moveAll c run s) := by
  induction run generalizing s with
  | nil => rfl
  | cons d run ih =>
    rw [List.flatMap_cons, List.foldlM_append, emitInline_run (hrun d List.mem_cons_self)
      (hloop d List.mem_cons_self)]
    exact ih (fun e he => hrun e (List.mem_cons_of_mem d he))
      (fun e he => hloop e (List.mem_cons_of_mem d he)) _

theorem block_run {defined : List Typedef} (hlocals : Names locals) {run : List Declaration}
    (hrun : ∀ d ∈ run, basicMember d = true) (hvis : ∀ d ∈ run, Visible locals d)
    (hname : ∀ d ∈ run, NameFits defined d) (hloop : ∀ d ∈ run, LoopOk locals d)
    (hcut : ∀ d ∈ runArrays run, shownBound d ∉ locals) (hsize : SizeOk run) (flag : Flag)
    (inline : Stream → Bool) (s : Stream) :
    (Stat.xdrInline (inlineSize (runSize run) (runSizestr run)) (run.map (printStat defined 2))
      (run.flatMap (emitInline flag))).run locals c inline s = some (moveAll c run s) := by
  have heval := evaluate_inlineSize hlocals c hrun hcut
  rw [sizeValue_of_ok hrun hsize] at heval
  simp only [Stat.run, heval, Option.bind_eq_bind, Option.bind_some]
  split
  · rw [inlined_run hrun hloop]
    have hpos : s.pos + rightSize c run = (moveAll c run s).pos := by
      rw [moveAll_pos, sum_memberUnits hrun]
      rfl
    rw [Option.bind_some, hpos]
  · exact plain_run hvis hname 2 s

/-! ## The routine -/

theorem routineLocals_subset (inlineflag : Nat) (decls : List Declaration) :
    routineLocals inlineflag decls ⊆
      ["xdrs".toList, "objp".toList, "buf".toList, "i".toList] := by
  unfold routineLocals
  split
  · simp
  · split <;> simp

theorem names_routineLocals (inlineflag : Nat) (decls : List Declaration) :
    Names (routineLocals inlineflag decls) := by
  have hsub := routineLocals_subset inlineflag decls
  refine ⟨fun h => ?_, fun n h => ?_⟩
  · exact absurd (hsub h) (by decide)
  · have hword := isWord_toDigits n
    have hdigit : ∀ c ∈ Nat.toDigits 10 n, c.isDigit = true :=
      fun c hc => Nat.isDigit_of_mem_toDigits (by decide) (by decide) hc
    have hletters : ∀ w ∈ ["xdrs".toList, "objp".toList, "buf".toList, "i".toList],
        ∃ c ∈ w, c.isDigit = false := by simp
    obtain ⟨c, hc, hnot⟩ := hletters _ (hsub h)
    rw [hdigit c hc] at hnot
    cases hnot

theorem shownBound_not_mem {inlineflag : Nat} {decls : List Declaration} {d : Declaration}
    (hvis : Visible (routineLocals inlineflag decls) d) (hvec : d.rel = .vector) :
    shownBound d ∉ routineLocals inlineflag decls := by
  by_cases hlong : d.arrayMax.length ≤ 252
  · rw [shownBound, List.take_of_length_le hlong]
    exact hvis (Or.inl hvec)
  · intro h
    have hshort : ∀ w ∈ ["xdrs".toList, "objp".toList, "buf".toList, "i".toList],
        w.length ≤ 4 := by decide
    have hle := hshort _ (routineLocals_subset inlineflag decls h)
    rw [shownBound, List.length_take] at hle
    omega

section Struct

variable (defined : List Typedef) {inlineflag : Nat} (decls : List Declaration)

theorem emitStruct_locals (inlineflag : Nat) :
    (emitStruct defined inlineflag decls).locals = routineLocals inlineflag decls := by
  unfold emitStruct
  split
  · rfl
  · split <;> rfl

theorem emitStruct_free (inlineflag : Nat) :
    (emitStruct defined inlineflag decls).free =
      (decls.map (printStat defined 1)).map Stat.ifstat := by
  rw [List.map_map]
  unfold emitStruct
  split
  · rfl
  · split <;> rfl

theorem emitStruct_branch (inlineflag : Nat) (op : Op) :
    (emitStruct defined inlineflag decls).branch op =
        (decls.map (printStat defined 1)).map Stat.ifstat ∨
      canInline inlineflag decls 0 = true ∧ ∃ flag,
        (emitStruct defined inlineflag decls).branch op =
          (segments decls []).flatMap (emitSegment defined inlineflag flag) := by
  have hsegments := fun flag => emitMembers_eq defined inlineflag flag decls []
  rw [List.map_map]
  unfold emitStruct
  split
  · left
    cases op <;> rfl
  · split
    · left
      cases op <;> rfl
    · next hcan =>
      have hyes : canInline inlineflag decls 0 = true := (Bool.not_eq_false _).mp hcan
      cases op with
      | XDR_ENCODE => exact Or.inr ⟨hyes, .PUT, hsegments .PUT⟩
      | XDR_DECODE => exact Or.inr ⟨hyes, .GET, hsegments .GET⟩
      | XDR_FREE => exact Or.inl rfl

theorem emitStruct_encode (hflag : 0 < inlineflag) (h : canInline inlineflag decls 0 = true) :
    (emitStruct defined inlineflag decls).branch .XDR_ENCODE =
      (segments decls []).flatMap (emitSegment defined inlineflag .PUT) := by
  have hsegments := emitMembers_eq defined inlineflag .PUT decls []
  unfold emitStruct
  rw [if_neg (by omega), if_neg (by rw [h]; exact Bool.noConfusion)]
  exact hsegments

/-- The condition on the structure. Every object fits into the buffer it is printed to, no
bound is the name of a variable of the routine, and where the structure is inlined, the runs
that become blocks have sizes that are printed right, no arrays of `bool`, and no bound
called `genp`. -/
structure InlineOk (inlineflag : Nat) : Prop where
  names : ∀ d ∈ decls, NameFits defined d
  bounds : ∀ d ∈ decls, Visible (routineLocals inlineflag decls) d
  runs : canInline inlineflag decls 0 = true → ∀ run, .basic run ∈ segments decls [] →
    Expanded inlineflag run → SizeOk run ∧
      ∀ d ∈ runArrays run, d.type ≠ "bool".toList ∧ d.arrayMax ≠ "genp".toList

theorem segment_subset {g : Segment} (hg : g ∈ segments decls []) : g.members ⊆ decls := by
  intro d hd
  have hmem : d ∈ (segments decls []).flatMap Segment.members := List.mem_flatMap.mpr ⟨g, hg, hd⟩
  rwa [segments_members] at hmem

variable {defined} {decls}

theorem basic_run {run : List Declaration} (hg : .basic run ∈ segments decls []) :
    (∀ d ∈ run, basicMember d = true) ∧ run ⊆ decls := by
  have hvalid : ∀ g ∈ segments decls [], g.Valid :=
    segments_valid decls (fun d hd => absurd hd List.not_mem_nil)
  exact ⟨hvalid _ hg, segment_subset decls hg⟩

/-! ## The condition is enough -/

theorem InlineOk.loops (h : InlineOk defined decls inlineflag)
    (hcan : canInline inlineflag decls 0 = true) {run : List Declaration}
    (hg : .basic run ∈ segments decls []) (hexp : Expanded inlineflag run) :
    ∀ d ∈ run, LoopOk (routineLocals inlineflag decls) d := by
  intro d hd hvec
  have hmem : d ∈ runArrays run := List.mem_filter.mpr ⟨hd, by simpa using hvec⟩
  obtain ⟨htype, hgenp⟩ := (h.runs hcan run hg hexp).2 d hmem
  refine ⟨htype, fun hin => ?_⟩
  rcases List.mem_cons.mp hin with heq | hin
  · exact hgenp heq
  · exact h.bounds d ((basic_run hg).2 hd) (Or.inl hvec) hin

theorem InlineOk.cuts (h : InlineOk defined decls inlineflag) {run : List Declaration}
    (hg : .basic run ∈ segments decls []) :
    ∀ d ∈ runArrays run, shownBound d ∉ routineLocals inlineflag decls := by
  intro d hd
  obtain ⟨hmem, hvec⟩ := List.mem_filter.mp hd
  exact shownBound_not_mem (h.bounds d ((basic_run hg).2 hmem)) (by simpa using hvec)

theorem InlineOk.segment_run (h : InlineOk defined decls inlineflag) (hflag : 0 < inlineflag)
    (hcan : canInline inlineflag decls 0 = true) {g : Segment} (hg : g ∈ segments decls [])
    (flag : Flag) (inline : Stream → Bool) (s : Stream) :
    (emitSegment defined inlineflag flag g).foldlM
        (fun s t => t.run (routineLocals inlineflag decls) c inline s) s =
      some (moveAll c g.members s) := by
  have hsub := segment_subset decls hg
  have hvis := fun d hd => h.bounds d (hsub hd)
  have hname := fun d hd => h.names d (hsub hd)
  cases g with
  | other d =>
    show (([d].map (printStat defined 1)).map Stat.ifstat).foldlM _ s = _
    rw [ifstats_run]
    exact plain_run hvis hname 1 s
  | basic run =>
    by_cases hexp : Expanded inlineflag run
    · have hblock := block_run (c := c) (names_routineLocals inlineflag decls) (basic_run hg).1
        hvis hname (h.loops hcan hg hexp) (h.cuts hg) (h.runs hcan run hg hexp).1 flag inline s
      rw [emitSegment, emitRun_of_expanded defined hflag hexp, List.foldlM_cons, hblock]
      rfl
    · rw [emitSegment, emitRun_of_not_expanded defined hexp, ifstats_run]
      exact plain_run hvis hname 1 s

theorem segments_run {gs : List Segment} {stats : Segment → List Stat}
    {inline : Stream → Bool}
    (h : ∀ g ∈ gs, ∀ s, (stats g).foldlM (fun s t => t.run locals c inline s) s =
      some (moveAll c g.members s)) (s : Stream) :
    (gs.flatMap stats).foldlM (fun s t => t.run locals c inline s) s =
      some (moveAll c (gs.flatMap Segment.members) s) := by
  induction gs generalizing s with
  | nil => rfl
  | cons g gs ih =>
    rw [List.flatMap_cons, List.flatMap_cons, List.foldlM_append, h g List.mem_cons_self,
      moveAll_append]
    exact ih (fun g' hg' => h g' (List.mem_cons_of_mem g hg')) _

theorem InlineOk.run (h : InlineOk defined decls inlineflag) (hflag : 0 < inlineflag)
    (inline : Stream → Bool) (op : Op) (s : Stream) :
    (emitStruct defined inlineflag decls).run c inline op s = some (moveAll c decls s) := by
  rw [Routine.run, emitStruct_locals]
  rcases emitStruct_branch defined decls inlineflag op with hplain | ⟨hcan, flag, hseg⟩
  · rw [hplain, ifstats_run]
    exact plain_run h.bounds h.names 1 s
  · rw [hseg, segments_run (fun g hg s => h.segment_run hflag hcan hg flag inline s),
      segments_members]
    rfl

theorem foldlM_mem {σ α : Type} {f : σ → α → Option σ} {l : List α} {s t : σ}
    (h : l.foldlM f s = some t) {x : α} (hx : x ∈ l) : ∃ u v, f u x = some v := by
  induction l generalizing s with
  | nil => cases hx
  | cons y l ih =>
    rw [List.foldlM_cons, Option.bind_eq_bind, Option.bind_eq_some_iff] at h
    obtain ⟨u, hu, hrest⟩ := h
    rcases List.mem_cons.mp hx with rfl | hx
    · exact ⟨s, u, hu⟩
    · exact ih hrest hx

theorem plain_run_members {indent : Nat} {ds : List Declaration} {s t : Stream}
    (h : (ds.map (printStat defined indent)).foldlM (fun s t => t.run locals c s) s = some t) :
    t.moved.map Prod.fst = s.moved.map Prod.fst ++
      ds.map (fun d => memberName (snprintf 256 (objectName defined d))) := by
  induction ds generalizing s with
  | nil =>
    obtain rfl : s = t := Option.some.inj h
    exact (List.append_nil _).symm
  | cons d ds ih =>
    rw [List.map_cons, List.foldlM_cons, Option.bind_eq_bind, Option.bind_eq_some_iff] at h
    obtain ⟨u, hu, hrest⟩ := h
    rw [Ifstat.run] at hu
    split at hu
    · obtain rfl := Option.some.inj hu
      rw [ih hrest]
      simp [Stream.transfer, printStat]
    · cases hu

theorem Faithful.free (h : Faithful defined inlineflag decls) (c : Values) (s : Stream) :
    (decls.map (printStat defined 1)).foldlM
        (fun s t => t.run (routineLocals inlineflag decls) c s) s =
      some (moveAll c decls s) := by
  have hrun := h.members c (fun _ => false) .XDR_FREE s
  rw [Routine.run, emitStruct_locals, Routine.branch, emitStruct_free, ifstats_run] at hrun
  exact hrun

theorem Faithful.names (h : Faithful defined inlineflag decls) :
    ∀ d ∈ decls, NameFits defined d := by
  have hplain := plain_run_members (h.free everyName ⟨0, []⟩)
  rw [moveAll_members, List.append_cancel_left_eq] at hplain
  intro d hd
  exact (memberName_snprintf defined d).mp (List.map_inj_left.mp hplain d hd).symm

theorem Faithful.bounds (h : Faithful defined inlineflag decls) :
    ∀ d ∈ decls, Visible (routineLocals inlineflag decls) d := by
  intro d hd
  obtain ⟨u, v, hrun⟩ := foldlM_mem (h.free everyName ⟨0, []⟩) (List.mem_map_of_mem hd)
  rw [Ifstat.run] at hrun
  split at hrun
  · next hvis => exact hvis
  · cases hrun

theorem block_mem (defined : List Typedef) (hflag : 0 < inlineflag)
    (hcan : canInline inlineflag decls 0 = true)
    {run : List Declaration} (hg : .basic run ∈ segments decls [])
    (hexp : Expanded inlineflag run) :
    .xdrInline (inlineSize (runSize run) (runSizestr run)) (run.map (printStat defined 2))
        (run.flatMap (emitInline .PUT)) ∈
      (emitStruct defined inlineflag decls).branch .XDR_ENCODE := by
  rw [emitStruct_encode defined decls hflag hcan, List.mem_flatMap]
  refine ⟨.basic run, hg, ?_⟩
  rw [emitSegment, emitRun_of_expanded defined hflag hexp]
  exact List.mem_singleton_self _

theorem emitInline_vector {d : Declaration} (hvec : d.rel = .vector) (flag : Flag) :
    emitInline flag d = [.loop flag d d.type d.arrayMax (ixdrCall d.type)] := by
  rw [emitInline, hvec]

theorem loop_mem {run : List Declaration} {d : Declaration} (hd : d ∈ runArrays run)
    (flag : Flag) :
    .loop flag d d.type d.arrayMax (ixdrCall d.type) ∈ run.flatMap (emitInline flag) := by
  obtain ⟨hmem, hvec⟩ := List.mem_filter.mp hd
  refine List.mem_flatMap.mpr ⟨d, hmem, ?_⟩
  rw [emitInline_vector (by simpa using hvec)]
  exact List.mem_singleton_self _

/-- The inline path of a block compiles only when `genp` has the type of the elements. -/
theorem Faithful.types (h : Faithful defined inlineflag decls) (hflag : 0 < inlineflag)
    (hcan : canInline inlineflag decls 0 = true) {run : List Declaration}
    (hg : .basic run ∈ segments decls []) (hexp : Expanded inlineflag run) :
    ∀ d ∈ runArrays run, d.type ≠ "bool".toList := by
  intro d hd
  have hrun := h.members everyName (fun _ => true) .XDR_ENCODE ⟨0, []⟩
  obtain ⟨u, v, hblock⟩ := foldlM_mem hrun (block_mem defined hflag hcan hg hexp)
  simp only [Stat.run, if_true, Option.bind_eq_bind, Option.bind_eq_some_iff] at hblock
  obtain ⟨len, -, t, hinlined, -⟩ := hblock
  obtain ⟨u', v', hloop⟩ := foldlM_mem hinlined (loop_mem hd .PUT)
  rw [InlineStat.run] at hloop
  split at hloop
  · next htype =>
    have hbasic := (basic_run hg).1 d (List.mem_filter.mp hd).1
    exact (memberType_eq_iff hbasic).mp htype.1
  · cases hloop

end Struct

/-! ## Two arrays in a row -/

end Netkit.Rpcgen

/-
Of loops whose edges keep to the parts of their bodies, the whole procedure is encoded: the
blocks are linked at every nesting depth, and no edge is left over.
-/
import Prusti.Encoder.SplitLoops

namespace Prusti.Encoder.Procedures

open Prusti.Lib Prusti.Mir CfgMethod

universe u

namespace ProcedureEncoder

variable {Ty : Type u} {encoder : ProcedureEncoder Ty}
  {backEdges : List (BasicBlock × BasicBlock)} {loopHead inv entry source target bb : BasicBlock}
  {depth : Nat} {blocks : List BasicBlock} {parts : LoopParts}

section Nesting

variable (h : NaturalNest encoder.procedure.body backEdges encoder.loops.toLoopNest)
  (hordered : OrderedNest encoder.procedure.body backEdges encoder.loops)

theorem isLoopHead_iff : encoder.loops.isLoopHead bb = true ↔ bb ∈ encoder.loops.loopHeads :=
  decide_eq_true_iff

include hordered in
/-- The encoded blocks are reached from the start block over real edges. -/
theorem mem_getReachableNonspecCfgBlocks_iff :
    bb ∈ encoder.getReachableNonspecCfgBlocks ↔
      Reaches encoder.procedure.body.realSuccessors startBlock bb ∧
        encoder.procedure.isSpecBlock bb = false := by
  rw [getReachableNonspecCfgBlocks, Procedure.encodedBlocks, List.mem_filter,
    hordered.order.mem_iff, Bool.and_eq_true, Bool.not_eq_true', Procedure.isReachableBlock,
    decide_eq_true_iff, Body.mem_reachableBasicBlocks_iff]
  refine and_iff_right_of_imp fun ⟨hreach, _⟩ => ?_
  rcases hreach.cases_tail with rfl | ⟨pred, -, hedge⟩
  · exact encoder.procedure.body.startBlock_lt
  · exact Body.target_lt_of_mem_successors (Body.realSuccessors_subset _ hedge)

include hordered in
theorem loopBody_eq (hhead : loopHead ∈ encoder.loops.loopHeads) : encoder.loopBody loopHead =
    encoder.getReachableNonspecCfgBlocks.filter
      (· ∈ encoder.loops.toLoopNest.loopBody loopHead) := by
  rw [loopBody, getReachableNonspecCfgBlocks, Procedure.encodedBlocks, Procedure.encodedBlocks,
    hordered.getLoopBody_eq loopHead hhead, List.filter_filter, List.filter_filter]
  exact List.filter_congr fun _ _ => Bool.and_comm _ _

include hordered in
theorem mem_loopBody_iff (hhead : loopHead ∈ encoder.loops.loopHeads) :
    bb ∈ encoder.loopBody loopHead ↔ bb ∈ encoder.getReachableNonspecCfgBlocks ∧
      bb ∈ encoder.loops.toLoopNest.loopBody loopHead := by
  rw [loopBody_eq hordered hhead, List.mem_filter, decide_eq_true_iff]

theorem covered_cases (hentry : encoder.IsEntry depth entry)
    (hsource : source ∈ encoder.covered depth entry) :
    (encoder.loops.getLoopDepth entry = depth ∧ source = entry) ∨
      (encoder.loops.getLoopDepth entry = depth + 1 ∧ entry ∈ encoder.loops.loopHeads ∧
        source ∈ encoder.loopBody entry) := by
  rw [covered] at hsource
  split at hsource
  · next hplain => exact .inl ⟨hplain, List.mem_singleton.mp hsource⟩
  · next hplain =>
      obtain ⟨hdepth, hhead⟩ := hentry.resolve_left hplain
      exact .inr ⟨hdepth, isLoopHead_iff.mp hhead, hsource⟩

include h hordered in
/-- An edge inside of a nested loop does not leave an entry. -/
theorem not_leavesEntry (hentry : encoder.IsEntry depth entry)
    (hhead : loopHead ∈ encoder.loops.loopHeads)
    (hdepth : encoder.loops.loopHeadDepth loopHead = depth + 1)
    (hsource : source ∈ encoder.loops.toLoopNest.loopBody loopHead)
    (htarget : target ∈ encoder.loops.toLoopNest.loopBody loopHead)
    (hencoded : target ∈ encoder.getReachableNonspecCfgBlocks) :
    ¬ encoder.LeavesEntry depth entry source target := by
  rintro ⟨hcovered, -, hout⟩
  rcases covered_cases hentry hcovered with ⟨hplain, rfl⟩ | ⟨hnested, hentryHead, hin⟩
  · have hle := h.loopHeadDepth_le hhead hsource
    omega
  · have heq : entry = loopHead := h.eq_of_loopHeadDepth_eq hentryHead hhead
      ((mem_loopBody_iff hordered hentryHead).mp hin).2 hsource
      ((h.getLoopDepth_of_head.symm.trans hnested).trans hdepth.symm)
    subst heq
    rcases hout with hplain | hout
    · omega
    · exact hout ((mem_loopBody_iff hordered hhead).mpr ⟨hencoded, htarget⟩)

include h hordered in
/-- A nested loop is entered at its head. -/
theorem isEntry_of_leavesEntry (hentry : encoder.IsEntry depth entry)
    (hleaves : encoder.LeavesEntry depth entry source target)
    (hencoded : target ∈ encoder.getReachableNonspecCfgBlocks)
    (hdepth : depth ≤ encoder.loops.getLoopDepth target) : encoder.IsEntry depth target := by
  rcases hdepth.eq_or_lt with heq | hlt
  · exact .inl heq.symm
  obtain ⟨nested, hhead, hmem, hnested⟩ := h.exists_loopHeadDepth_eq (Nat.succ_pos depth) hlt
  by_cases heq : target = nested
  · subst heq
    exact .inr ⟨h.getLoopDepth_of_head.trans hnested, isLoopHead_iff.mpr hhead⟩
  · have hedge : Edge encoder.procedure.body.realSuccessors source target :=
      Procedure.encodedTargets_subset source hleaves.2.1
    have hsource := (h.mem_loopBody hhead).mpr (((h.mem_loopBody hhead).mp hmem).pred heq hedge)
    exact absurd hleaves (not_leavesEntry h hordered hentry hhead hnested hsource hmem hencoded)

include h hordered in
/-- Entries stand before the entries that they lead to. -/
theorem idxOf_lt_of_leavesEntry (hentry : encoder.IsEntry depth entry)
    (hleaves : encoder.LeavesEntry depth entry source target)
    (hencoded : target ∈ encoder.getReachableNonspecCfgBlocks)
    (htarget : encoder.IsEntry depth target)
    (hback : (source, target) ∈ backEdges → depth < encoder.loops.getLoopDepth target) :
    encoder.loops.orderedBlocks.idxOf entry < encoder.loops.orderedBlocks.idxOf target := by
  have hedge : target ∈ encoder.procedure.body.realSuccessors source :=
    Procedure.encodedTargets_subset source hleaves.2.1
  have hforward : ForwardEdge encoder.procedure.body backEdges source target := by
    refine ⟨hedge, fun hmem => ?_⟩
    have hlt := hback hmem
    have hhead : target ∈ encoder.loops.loopHeads := h.isLoopNest.mem_loopHeads.mpr ⟨source, hmem⟩
    have hdepth := (htarget.resolve_left (Nat.ne_of_gt hlt)).1
    rw [h.getLoopDepth_of_head] at hdepth
    have hsource : source ∈ encoder.loops.toLoopNest.loopBody target := by
      rw [h.mem_loopBody hhead]
      by_cases heq : source = target
      · exact .inl heq
      · exact .inr ⟨source, hmem, .refl heq⟩
    exact not_leavesEntry h hordered hentry hhead hdepth hsource (h.head_mem hhead) hencoded hleaves
  have hlt := hordered.order.forward source target hforward
  rcases covered_cases hentry hleaves.1 with ⟨-, rfl⟩ | ⟨-, hentryHead, hin⟩
  · exact hlt
  · by_cases heq : source = entry
    · exact heq ▸ hlt
    · have hmem := ((mem_loopBody_iff hordered hentryHead).mp hin).2
      exact (h.idxOf_head_lt hordered.order hentryHead hmem heq).trans hlt

include h hordered in
theorem wellGrouped (hsub : List.Sublist blocks encoder.getReachableNonspecCfgBlocks)
    (hdepth : ∀ bb ∈ blocks, depth ≤ encoder.loops.getLoopDepth bb)
    (hhead : ∀ bb ∈ blocks.head?, encoder.IsEntry depth bb)
    (hback : ∀ entry ∈ blocks, encoder.IsEntry depth entry → ∀ source, ∀ target ∈ blocks,
      encoder.LeavesEntry depth entry source target → (source, target) ∈ backEdges →
        depth < encoder.loops.getLoopDepth target) :
    encoder.WellGrouped depth blocks where
  nodup := (hsub.trans List.filter_sublist).nodup hordered.order.nodup
  depth_le := hdepth
  head := hhead
  forward entry hentry hisEntry source _ target _ hleaves htarget htargetEntry := by
    rw [idxOf_lt_idxOf_iff hordered.order.nodup (hsub.trans List.filter_sublist) hentry htarget]
    exact idxOf_lt_of_leavesEntry h hordered hisEntry hleaves (hsub.subset htarget) htargetEntry
      (hback entry hentry hisEntry source target htarget hleaves)

include hordered in
theorem nodup_loopBody (hhead : loopHead ∈ encoder.loops.loopHeads) :
    (encoder.loopBody loopHead).Nodup := by
  rw [loopBody_eq hordered hhead]
  exact (List.filter_sublist.trans List.filter_sublist).nodup hordered.order.nodup

include hordered in
theorem head_loopBody (hhead : loopHead ∈ encoder.loops.loopHeads)
    (hencoded : loopHead ∈ encoder.getReachableNonspecCfgBlocks) :
    (encoder.loopBody loopHead).head? = some loopHead := by
  obtain ⟨rest, hrest⟩ := List.head?_eq_some_iff.mp (hordered.head_first loopHead hhead)
  rw [loopBody, Procedure.encodedBlocks, hrest, List.filter_cons_of_pos]
  · rfl
  · exact (List.mem_filter.mp hencoded).2

/-- What a part of the body of a loop is. -/
structure IsPart (encoder : ProcedureEncoder Ty) (loopHead inv : BasicBlock) (part : LoopPart)
    (blocks : List BasicBlock) : Prop where
  sublist : List.Sublist blocks (encoder.loopBody loopHead)
  mem_iff : ∀ bb, bb ∈ blocks ↔
    bb ∈ encoder.loopBody loopHead ∧ encoder.partOf loopHead inv bb = part

include h hordered in
theorem IsPart.wellGrouped {part : LoopPart} (hpart : IsPart encoder loopHead inv part blocks)
    (hhead : loopHead ∈ encoder.loops.loopHeads)
    (hencoded : loopHead ∈ encoder.getReachableNonspecCfgBlocks)
    (hlinkable : encoder.LinkableLoop loopHead inv) :
    encoder.WellGrouped (encoder.loops.loopHeadDepth loopHead) blocks := by
  have hsub := hpart.sublist
  rw [loopBody_eq hordered hhead] at hsub
  have hin : ∀ bb ∈ blocks, bb ∈ encoder.loops.toLoopNest.loopBody loopHead := fun bb hbb =>
    ((mem_loopBody_iff hordered hhead).mp (hpart.sublist.subset hbb)).2
  refine ProcedureEncoder.wellGrouped h hordered (hsub.trans List.filter_sublist)
    (fun bb hbb => h.loopHeadDepth_le hhead (hin bb hbb)) ?_ ?_
  · intro bb hfirst
    have hbb := List.mem_of_mem_head? hfirst
    refine hlinkable.starts bb (hpart.sublist.subset hbb) fun other hother hsame => ?_
    have hmem := (hpart.mem_iff other).mpr ⟨hother, hsame.trans ((hpart.mem_iff bb).mp hbb).2⟩
    by_cases heq : other = bb
    · rw [heq]
    · exact Nat.le_of_lt (idxOf_first_lt (nodup_loopBody hordered hhead) hpart.sublist
        hfirst hmem heq)
  · intro entry hentry hisEntry source target htarget hleaves hback
    have hsame := ((hpart.mem_iff entry).mp hentry).2
    obtain ⟨htargetIn, htargetPart⟩ := (hpart.mem_iff target).mp htarget
    have hne : target ≠ loopHead := by
      rcases hlinkable.links entry (hpart.sublist.subset hentry) hisEntry source hleaves.1 target
        htargetIn hleaves with ⟨-, hne⟩ | ⟨⟨hne, -⟩, -⟩ | ⟨hafter, heq⟩
      · exact hne
      · exact absurd (htargetPart.trans hsame.symm) hne
      · -- the head stands before the invariant
        intro _
        rw [heq, ← hsame, hafter, partOf_eq_afterInv_iff] at htargetPart
        have hzero : encoder.position loopHead loopHead = 0 := by
          obtain ⟨rest, hrest⟩ := List.head?_eq_some_iff.mp (head_loopBody hordered hhead hencoded)
          rw [position, hrest, List.idxOf_cons_self]
        omega
    have htargetHead : target ∈ encoder.loops.loopHeads :=
      h.isLoopNest.mem_loopHeads.mpr ⟨source, hback⟩
    rw [h.getLoopDepth_of_head]
    exact h.loopHeadDepth_lt hhead htargetHead (hin target htarget) (Ne.symm hne)

theorem Split.isPart (hsplit : Split encoder loopHead parts)
    (hat : encoder.SplitAt loopHead inv parts) :
    IsPart encoder loopHead inv .guard parts.loopGuardEvaluation ∧
      IsPart encoder loopHead inv .beforeInv parts.loopBodyBeforeInv ∧
        IsPart encoder loopHead inv .afterInv parts.loopBodyAfterInv := by
  refine ⟨⟨?_, hat.mem_guard⟩, ⟨?_, hat.mem_beforeInv⟩, ?_, hat.mem_afterInv⟩
  all_goals rw [hsplit.loopBody]
  · exact List.sublist_append_left _ _
  · exact (List.sublist_append_left _ _).trans (List.sublist_append_right _ _)
  · exact (List.sublist_append_right _ _).trans (List.sublist_append_right _ _)

include h hordered in
/-- What leaves a part for another one leads to the block behind the part, or to the head. -/
theorem IsPart.leavesGroup {part : LoopPart} (hpart : IsPart encoder loopHead inv part blocks)
    (hhead : loopHead ∈ encoder.loops.loopHeads) (hlinkable : encoder.LinkableLoop loopHead inv)
    (hleaves : encoder.LeavesGroup (encoder.loops.loopHeadDepth loopHead) blocks source target)
    (htarget : target ∈ encoder.loopBody loopHead) :
    (encoder.StartsBehind loopHead inv part target ∧
      (encoder.partOf loopHead inv target = .afterInv → source = inv)) ∨
    (part = .afterInv ∧ target = loopHead) := by
  obtain ⟨entry, hentry, hisEntry, hleaves, hout⟩ := hleaves
  obtain ⟨hentryIn, hentryPart⟩ := (hpart.mem_iff entry).mp hentry
  obtain ⟨hencoded, hmem⟩ := (mem_loopBody_iff hordered hhead).mp htarget
  have hkeeps := hlinkable.links entry hentryIn hisEntry source hleaves.1 target htarget hleaves
  rw [KeepsToParts, hentryPart] at hkeeps
  refine hkeeps.resolve_left fun ⟨hsame, _⟩ =>
    hout ⟨(hpart.mem_iff target).mpr ⟨htarget, hsame⟩, ?_⟩
  exact isEntry_of_leavesEntry h hordered hisEntry hleaves hencoded (h.loopHeadDepth_le hhead hmem)

include h hordered in
/-- The edges of a linkable loop are as its encoding needs them. -/
theorem loopLinks (hhead : loopHead ∈ encoder.loops.loopHeads)
    (hencoded : loopHead ∈ encoder.getReachableNonspecCfgBlocks)
    (hlinkable : encoder.LinkableLoop loopHead inv) (hsplit : Split encoder loopHead parts)
    (hat : encoder.SplitAt loopHead inv parts) : LoopLinks encoder loopHead parts := by
  obtain ⟨hguard, hbefore, hafter⟩ := hsplit.isPart hat
  have hafterInv : encoder.partOf loopHead inv parts.afterInvBlock = .afterInv :=
    ((hat.mem_afterInv _).mp (List.mem_of_head? hsplit.afterInvBlock)).2
  constructor
  · exact hguard.wellGrouped h hordered hhead hencoded hlinkable
  · exact hbefore.wellGrouped h hordered hhead hencoded hlinkable
  · exact hafter.wellGrouped h hordered hhead hencoded hlinkable
  · intro source target hleaves htarget
    rcases hguard.leavesGroup h hordered hhead hlinkable hleaves htarget with
      ⟨hbehind, hfrom⟩ | ⟨hpart, -⟩
    · refine ⟨hat.behind_guard target htarget hbehind, fun hempty => ?_⟩
      rw [hat.beforeInvariantBlock]
      apply hfrom
      cases hpart : encoder.partOf loopHead inv target with
      | guard => exact absurd hpart hbehind.1
      | beforeInv =>
        have hmem := (hat.mem_beforeInv target).mpr ⟨htarget, hpart⟩
        rw [hempty] at hmem
        cases hmem
      | afterInv => rfl
    · cases hpart
  · intro source target hleaves htarget
    rcases hbefore.leavesGroup h hordered hhead hlinkable hleaves htarget with
      ⟨hbehind, hfrom⟩ | ⟨hpart, -⟩
    · have heq := hat.behind_beforeInv target htarget hbehind
      exact ⟨heq, (hfrom (heq ▸ hafterInv)).trans hat.beforeInvariantBlock.symm⟩
    · cases hpart
  · intro source target hleaves htarget
    rcases hafter.leavesGroup h hordered hhead hlinkable hleaves htarget with
      ⟨⟨hne, last, -, hlast, hposition⟩, -⟩ | ⟨-, heq⟩
    · rw [partOf_eq_afterInv_iff] at hlast
      rw [Ne, partOf_eq_afterInv_iff] at hne
      omega
    · exact heq
  · exact head_loopBody hordered hhead hencoded
  · intro entry hentry hisEntry bb hbb
    rcases covered_cases hisEntry hbb with ⟨-, rfl⟩ | ⟨-, hentryHead, hin⟩
    · exact hentry
    · obtain ⟨-, hmem⟩ := (mem_loopBody_iff hordered hhead).mp hentry
      obtain ⟨hbbEncoded, hbbIn⟩ := (mem_loopBody_iff hordered hentryHead).mp hin
      exact (mem_loopBody_iff hordered hhead).mpr ⟨hbbEncoded, h.nested hhead hentryHead hmem hbbIn⟩

include h hordered in
/-- Linkable loops are encoded at every depth: the fuel exceeds the depth that is left. -/
theorem encodes_encodeLoop_of_linkable
    (hsupported : ∀ bb ∈ encoder.getReachableNonspecCfgBlocks,
      ∃ mirSuccessor, encoder.procedure.encodeBlockTerminator bb = some mirSuccessor)
    (hloops : ∀ loopHead ∈ encoder.getReachableNonspecCfgBlocks,
      loopHead ∈ encoder.loops.loopHeads → ∃ inv, encoder.invariantBlock loopHead = some inv ∧
        encoder.loops.isConditionalBranch loopHead inv = false ∧ encoder.LinkableLoop loopHead inv)
    {fuel : Nat} (hencoded : loopHead ∈ encoder.getReachableNonspecCfgBlocks)
    (hhead : loopHead ∈ encoder.loops.loopHeads)
    (hfuel : encoder.loops.loopHeads.length < fuel + encoder.loops.loopHeadDepth loopHead) :
    encoder.Encodes (encoder.encodeLoop fuel · loopHead) loopHead
      (LeavesLoop encoder loopHead) := by
  induction fuel generalizing loopHead with
  | zero =>
    have hle : encoder.loops.loopHeadDepth loopHead ≤ encoder.loops.loopHeads.length :=
      List.length_filter_le _ _
    omega
  | succ fuel ih =>
    obtain ⟨inv, hinv, hcond, hlinkable⟩ := hloops loopHead hencoded hhead
    obtain ⟨parts, hok, hat⟩ := exists_splitLoop (nodup_loopBody hordered hhead)
      (isLoopHead_iff.mpr hhead) hinv hcond hlinkable.invariant_mem hlinkable.goes_on
    apply encodes_encodeLoop hok
      (loopLinks h hordered hhead hencoded hlinkable (split_of_splitLoop hok) hat)
    intro bb hbb
    obtain ⟨hbbEncoded, -⟩ := (mem_loopBody_iff hordered hhead).mp hbb
    refine ⟨((mem_getReachableNonspecCfgBlocks_iff hordered).mp hbbEncoded).2,
      hsupported bb hbbEncoded, fun hdepth hnested => ?_⟩
    rw [isLoopHead_iff] at hnested
    rw [h.getLoopDepth_of_head] at hdepth
    exact ih hbbEncoded hnested (by omega)

end Nesting

end ProcedureEncoder

end Prusti.Encoder.Procedures

/-
Loops are nested or share no block, so that the heads of the loops around a block are
ordered by the depth of their loops.
-/
import Prusti.Mir.LoopBodies

namespace Prusti.Mir

open Prusti.Lib Relation

universe u

variable {Ty : Type u} (body : Body Ty)

/-- What leads to a back edge is reached from the start block over real edges. -/
def LoopsReached (backEdges : List (BasicBlock × BasicBlock)) : Prop :=
  ∀ source head bb, (source, head) ∈ backEdges → Reaches body.realSuccessors bb source →
    Reaches body.realSuccessors startBlock bb

/-- The computed loops are the natural loops of the back edges. -/
structure NaturalNest (backEdges : List (BasicBlock × BasicBlock)) (nest : LoopNest) : Prop where
  isLoopNest : IsLoopNest body backEdges nest
  back : BackEdges (Edge body.realSuccessors) startBlock fun source head =>
    (source, head) ∈ backEdges
  mem_loopBody : ∀ {head bb}, head ∈ nest.loopHeads →
    (bb ∈ nest.loopBody head ↔
      InLoop (Edge body.realSuccessors) (fun source head => (source, head) ∈ backEdges) head bb)

variable {body} {backEdges : List (BasicBlock × BasicBlock)} {nest : LoopNest}
  {head head' bb : BasicBlock}

theorem backEdges_realSuccessors (hback : IsBackEdges body backEdges)
    (hreach : LoopsReached body backEdges) :
    BackEdges (Edge body.realSuccessors) startBlock fun source head =>
      (source, head) ∈ backEdges where
  isEdge hsource := hback.isEdge hsource
  dominates {source head} hsource := by
    have hreached := Body.isReachable_iff.mpr
      (reaches_of_realReaches (hreach source head source hsource .refl))
    exact dominates_of_isDominatedBy ((hback.mem_iff hreached (hback.isEdge hsource)).mp hsource)
  reached {source head bb} hsource hpath := hreach source head bb hsource hpath

/-- A head that jumps to itself does no harm when it is the start block, which dominates all
that leads to it. -/
theorem naturalNest_of_self_eq_startBlock
    (hself : ∀ {head}, (head, head) ∈ backEdges → head = startBlock)
    (hback : IsBackEdges body backEdges) (hreach : LoopsReached body backEdges)
    (hnest : IsLoopNest body backEdges nest) : NaturalNest body backEdges nest where
  isLoopNest := hnest
  back := backEdges_realSuccessors hback hreach
  mem_loopBody {head bb} hhead := by
    have hcollects := hnest.collects head hhead
    have hedges := backEdges_realSuccessors hback hreach
    constructor
    · intro hbb
      rcases hcollects.avoids bb hbb with rfl | ⟨source, hsource, hpath⟩ |
        ⟨hmem, pred, hpred, hpath⟩
      · exact .self bb
      · exact .inr ⟨source, mem_backEdgeSources_iff.mp hsource, hpath⟩
      · have hmem := mem_backEdgeSources_iff.mp hmem
        have hedge := Body.mem_realPredecessors_iff.mp hpred
        have hreached := Body.isReachable_iff.mpr
          (reaches_of_realReaches (hreach head head pred hmem (.single hedge)))
        refine .inr ⟨pred, (hback.mem_iff hreached hedge).mpr ?_, hpath⟩
        rw [hself hmem]
        exact Body.isDominatedBy_iff.mpr fun hroot => hroot.1 rfl
    · rintro (rfl | ⟨source, hsource, hpath⟩)
      · obtain ⟨source, hsource⟩ := hnest.mem_loopHeads.mp hhead
        exact hcollects.head_mem_iff.mpr ⟨source, mem_backEdgeSources_iff.mpr hsource,
          (hedges.dominates hsource).reaches (hedges.reached hsource .refl)⟩
      · exact hcollects.mem_of_avoids (mem_backEdgeSources_iff.mpr hsource) hpath

theorem naturalNest_of_isLoopNest (hself : ∀ bb, bb ∉ body.realSuccessors bb)
    (hback : IsBackEdges body backEdges) (hreach : LoopsReached body backEdges)
    (hnest : IsLoopNest body backEdges nest) : NaturalNest body backEdges nest :=
  naturalNest_of_self_eq_startBlock (fun hmem => absurd (hback.isEdge hmem) (hself _))
    hback hreach hnest

namespace NaturalNest

variable (h : NaturalNest body backEdges nest)

include h

section

variable (hhead : head ∈ nest.loopHeads)

include hhead

theorem isHead : IsHead (fun source head => (source, head) ∈ backEdges) head :=
  h.isLoopNest.mem_loopHeads.mp hhead

theorem head_mem : head ∈ nest.loopBody head :=
  (h.mem_loopBody hhead).mpr (.self head)

/-- A loop whose head is in another loop is part of this other loop. -/
theorem nested (hhead' : head' ∈ nest.loopHeads) (hmem : head' ∈ nest.loopBody head) :
    nest.loopBody head' ⊆ nest.loopBody head := by
  intro bb hbb
  rw [h.mem_loopBody hhead] at hmem ⊢
  exact hmem.nested h.back (h.isHead hhead) ((h.mem_loopBody hhead').mp hbb)

theorem antisymm (hhead' : head' ∈ nest.loopHeads) (hmem : head' ∈ nest.loopBody head)
    (hmem' : head ∈ nest.loopBody head') : head = head' :=
  InLoop.antisymm h.back (h.isHead hhead) ((h.mem_loopBody hhead).mp hmem)
    ((h.mem_loopBody hhead').mp hmem')

theorem head_or_head (hhead' : head' ∈ nest.loopHeads) (hmem : bb ∈ nest.loopBody head)
    (hmem' : bb ∈ nest.loopBody head') :
    head' ∈ nest.loopBody head ∨ head ∈ nest.loopBody head' := by
  rw [h.mem_loopBody hhead] at hmem ⊢
  rw [h.mem_loopBody hhead'] at hmem' ⊢
  exact InLoop.head_or_head h.back (h.isHead hhead) (h.isHead hhead') hmem hmem'

/-- The loops around a block of an inner loop are those around the inner head, and inner to
it. -/
theorem filter_enclosingHeads (hmem : bb ∈ nest.loopBody head) :
    (nest.enclosingHeads bb).filter (head ∈ nest.loopBody ·) = nest.enclosingHeads head := by
  rw [LoopNest.enclosingHeads, LoopNest.enclosingHeads, List.filter_filter]
  refine List.filter_congr fun head' hhead' => ?_
  rw [← Bool.decide_and, decide_eq_decide]
  refine and_iff_left_of_imp fun hin => ?_
  exact h.nested hhead' hhead hin hmem

/-- An inner loop is deeper. -/
theorem loopHeadDepth_lt (hhead' : head' ∈ nest.loopHeads) (hmem : head' ∈ nest.loopBody head)
    (hne : head ≠ head') : nest.loopHeadDepth head < nest.loopHeadDepth head' := by
  rw [LoopNest.loopHeadDepth, LoopNest.loopHeadDepth, ← h.filter_enclosingHeads hhead hmem]
  apply List.length_filter_lt_length_iff_exists.mpr
  refine ⟨head', List.mem_filter.mpr ⟨hhead', decide_eq_true (h.head_mem hhead')⟩, ?_⟩
  simp only [decide_eq_true_eq]
  exact fun hmem' => hne (h.antisymm hhead hhead' hmem hmem')

end

omit h in
theorem mem_enclosingLoopHeads_iff :
    head ∈ nest.enclosingLoopHeads bb ↔ head ∈ nest.loopHeads ∧ bb ∈ nest.loopBody head := by
  rw [LoopNest.enclosingLoopHeads, List.mem_insertionSort, LoopNest.enclosingHeads,
    List.mem_filter, decide_eq_true_iff]

theorem nodup_enclosingLoopHeads : (nest.enclosingLoopHeads bb).Nodup :=
  (List.perm_insertionSort _ _).nodup_iff.mpr (h.isLoopNest.nodup.filter _)

/-- The heads around a block are listed from the outer to the inner ones. -/
theorem pairwise_enclosingLoopHeads : (nest.enclosingLoopHeads bb).Pairwise
    fun outer inner => inner ∈ nest.loopBody outer ∧ outer ≠ inner := by
  have hsorted : (nest.enclosingLoopHeads bb).Pairwise fun head head' =>
      nest.loopHeadDepth head ≤ nest.loopHeadDepth head' := List.pairwise_insertionSort _ _
  refine (hsorted.and h.nodup_enclosingLoopHeads).imp_of_mem ?_
  rintro outer inner houter hinner ⟨hle, hne⟩
  obtain ⟨houter, hmem⟩ := mem_enclosingLoopHeads_iff.mp houter
  obtain ⟨hinner, hmem'⟩ := mem_enclosingLoopHeads_iff.mp hinner
  refine ⟨?_, hne⟩
  rcases h.head_or_head houter hinner hmem hmem' with hin | hin
  · exact hin
  · have hlt := h.loopHeadDepth_lt hinner houter hin (Ne.symm hne)
    omega

theorem getLoopHead_spec (hhead : nest.getLoopHead bb = some head) :
    head ∈ nest.loopHeads ∧ bb ∈ nest.loopBody head ∧ ∀ head' ∈ nest.loopHeads,
      bb ∈ nest.loopBody head' → head ∈ nest.loopBody head' := by
  obtain ⟨outer, hsplit⟩ := List.getLast?_eq_some_iff.mp hhead
  have hpairs : (nest.enclosingLoopHeads bb).Pairwise
      fun outer inner => inner ∈ nest.loopBody outer ∧ outer ≠ inner :=
    h.pairwise_enclosingLoopHeads
  rw [hsplit, List.pairwise_append] at hpairs
  have hlast : head ∈ nest.enclosingLoopHeads bb := by simp [hsplit]
  obtain ⟨hmem, hbb⟩ := mem_enclosingLoopHeads_iff.mp hlast
  refine ⟨hmem, hbb, fun head' hhead' hbb' => ?_⟩
  have hother := mem_enclosingLoopHeads_iff.mpr ⟨hhead', hbb'⟩
  rw [hsplit, List.mem_append, List.mem_singleton] at hother
  rcases hother with hother | rfl
  · exact (hpairs.2.2 head' hother head (List.mem_singleton_self head)).1
  · exact h.head_mem hhead'

omit h in
theorem getLoopHead_eq_none_iff : nest.getLoopHead bb = none ↔ nest.enclosingHeads bb = [] := by
  rw [LoopNest.getLoopHead, List.getLast?_eq_none_iff, ← List.length_eq_zero_iff,
    LoopNest.enclosingLoopHeads, List.length_insertionSort, List.length_eq_zero_iff]

/-- The head of a block is the one of the smallest loop around it. -/
theorem getLoopHead_eq_some_iff : nest.getLoopHead bb = some head ↔
    head ∈ nest.loopHeads ∧ bb ∈ nest.loopBody head ∧ ∀ head' ∈ nest.loopHeads,
      bb ∈ nest.loopBody head' → nest.loopBody head ⊆ nest.loopBody head' := by
  constructor
  · intro hhead
    obtain ⟨hmem, hbb, hinner⟩ := h.getLoopHead_spec hhead
    exact ⟨hmem, hbb, fun head' hhead' hbb' =>
      h.nested hhead' hmem (hinner head' hhead' hbb')⟩
  · rintro ⟨hmem, hbb, hsmallest⟩
    cases hlast : nest.getLoopHead bb with
    | none =>
      rw [getLoopHead_eq_none_iff, LoopNest.enclosingHeads, List.filter_eq_nil_iff] at hlast
      exact absurd (decide_eq_true hbb) (hlast head hmem)
    | some inner =>
      obtain ⟨hinner, hbb', hall⟩ := h.getLoopHead_spec hlast
      have hin := hsmallest inner hinner hbb' (h.head_mem hmem)
      rw [h.antisymm hinner hmem hin (hall head hmem hbb)]

/-- The depth of a block counts the loops around it. -/
theorem getLoopDepth_eq : nest.getLoopDepth bb = (nest.enclosingHeads bb).length := by
  rw [LoopNest.getLoopDepth]
  cases hlast : nest.getLoopHead bb with
  | none =>
    rw [getLoopHead_eq_none_iff.mp hlast]
    rfl
  | some inner =>
    obtain ⟨hinner, hbb, hall⟩ := h.getLoopHead_spec hlast
    rw [Option.map_some, Option.getD_some, LoopNest.loopHeadDepth,
      ← h.filter_enclosingHeads hinner hbb, List.filter_eq_self.mpr]
    intro head' hhead'
    obtain ⟨hmem, hbb'⟩ := List.mem_filter.mp hhead'
    exact decide_eq_true (hall head' hmem (of_decide_eq_true hbb'))

/-- A head is at the depth of its loop. -/
theorem getLoopDepth_of_head : nest.getLoopDepth head = nest.loopHeadDepth head := h.getLoopDepth_eq

theorem loopHeadDepth_le (hhead : head ∈ nest.loopHeads) (hmem : bb ∈ nest.loopBody head) :
    nest.loopHeadDepth head ≤ nest.getLoopDepth bb := by
  rw [h.getLoopDepth_eq, LoopNest.loopHeadDepth, ← h.filter_enclosingHeads hhead hmem]
  exact List.length_filter_le _ _

theorem loopHeadDepth_pos (hhead : head ∈ nest.loopHeads) : 0 < nest.loopHeadDepth head := by
  have hself : head ∈ nest.enclosingHeads head :=
    List.mem_filter.mpr ⟨hhead, decide_eq_true (h.head_mem hhead)⟩
  exact List.length_pos_of_mem hself

/-- Of the loops around a block there is at most one at every depth. -/
theorem eq_of_loopHeadDepth_eq (hhead : head ∈ nest.loopHeads) (hhead' : head' ∈ nest.loopHeads)
    (hmem : bb ∈ nest.loopBody head) (hmem' : bb ∈ nest.loopBody head')
    (hdepth : nest.loopHeadDepth head = nest.loopHeadDepth head') : head = head' := by
  by_contra hne
  rcases h.head_or_head hhead hhead' hmem hmem' with hin | hin
  · exact Nat.ne_of_lt (h.loopHeadDepth_lt hhead hhead' hin hne) hdepth
  · exact Nat.ne_of_gt (h.loopHeadDepth_lt hhead' hhead hin (Ne.symm hne)) hdepth

/-- And there is one at every depth up to the one of the block. -/
theorem exists_loopHeadDepth_eq {depth : Nat} (hpos : 0 < depth)
    (hle : depth ≤ nest.getLoopDepth bb) :
    ∃ head ∈ nest.loopHeads, bb ∈ nest.loopBody head ∧ nest.loopHeadDepth head = depth := by
  have hmem : ∀ head ∈ nest.enclosingHeads bb, head ∈ nest.loopHeads ∧ bb ∈ nest.loopBody head := by
    intro head hhead
    obtain ⟨hhead, hbb⟩ := List.mem_filter.mp hhead
    exact ⟨hhead, of_decide_eq_true hbb⟩
  -- as many depths as there are loops around the block
  have hnodup : ((nest.enclosingHeads bb).map nest.loopHeadDepth).Nodup := by
    refine (h.isLoopNest.nodup.filter _).map_on fun head hhead head' hhead' hdepth => ?_
    obtain ⟨hhead, hbb⟩ := hmem head hhead
    obtain ⟨hhead', hbb'⟩ := hmem head' hhead'
    exact h.eq_of_loopHeadDepth_eq hhead hhead' hbb hbb' hdepth
  have hrange : ((nest.enclosingHeads bb).map nest.loopHeadDepth) ⊆
      List.range' 1 (nest.getLoopDepth bb) := by
    intro depth hdepth
    obtain ⟨head, hhead, rfl⟩ := List.mem_map.mp hdepth
    obtain ⟨hhead, hbb⟩ := hmem head hhead
    have hpos := h.loopHeadDepth_pos hhead
    have hle := h.loopHeadDepth_le hhead hbb
    rw [List.mem_range'_1]
    omega
  have hperm := (List.subperm_of_subset hnodup hrange).perm_of_length_le
    (by rw [List.length_range', List.length_map, h.getLoopDepth_eq])
  have hin : depth ∈ List.range' 1 (nest.getLoopDepth bb) := by
    rw [List.mem_range'_1]
    omega
  obtain ⟨head, hhead, heq⟩ := List.mem_map.mp (hperm.mem_iff.mpr hin)
  exact ⟨head, (hmem head hhead).1, (hmem head hhead).2, heq⟩

end NaturalNest

/-- Where dominators are taken over the same edges, they are asked of reached blocks only. -/
theorem loopsReached_of_same_edges {ε : Type}
    (hsame : ∀ bb, body.successors bb ⊆ body.realSuccessors bb)
    {found : List (BasicBlock × BasicBlock)}
    (hok : (ProcedureLoops.findBackEdges body : Except (Stop ε) _) = .ok found)
    (hback : IsBackEdges body backEdges) : LoopsReached body backEdges := by
  intro source head bb hsource hpath
  have hedge : ∃ target, target ∈ body.realSuccessors bb := by
    rcases hpath.cases_head with rfl | ⟨next, hnext, -⟩
    · exact ⟨head, hback.isEdge hsource⟩
    · exact ⟨next, hnext⟩
  obtain ⟨target, htarget⟩ := hedge
  simp only [ProcedureLoops.findBackEdges, bind_eq_ok_iff, Stop.assert_eq_ok_iff] at hok
  obtain ⟨-, hall, -⟩ := hok
  have hindex := Body.mem_indices_iff.mpr
    (Body.lt_of_mem_successors (Body.realSuccessors_subset _ htarget))
  rcases of_decide_eq_true (List.all_eq_true.mp hall bb hindex) with hnone | hreached
  · rw [hnone] at htarget
    cases htarget
  · exact ReflTransGen.mono (fun _ _ hstep => hsame _ hstep) _ _ (Body.isReachable_iff.mp hreached)

/-- What the queries on the nesting say of a block. -/
structure NestsExactly (nest : LoopNest) (bb : BasicBlock) : Prop where
  nodup : (nest.enclosingLoopHeads bb).Nodup
  mem_iff : ∀ head, head ∈ nest.enclosingLoopHeads bb ↔
    head ∈ nest.loopHeads ∧ bb ∈ nest.loopBody head
  ordered : (nest.enclosingLoopHeads bb).Pairwise fun outer inner =>
    nest.loopBody inner ⊆ nest.loopBody outer
  innermost : ∀ head, nest.getLoopHead bb = some head ↔
    head ∈ nest.loopHeads ∧ bb ∈ nest.loopBody head ∧ ∀ head' ∈ nest.loopHeads,
      bb ∈ nest.loopBody head' → nest.loopBody head ⊆ nest.loopBody head'
  depth : nest.getLoopDepth bb = (nest.loopHeads.filter fun head => bb ∈ nest.loopBody head).length

/-- The loops that are computed of any order of the back edges nest exactly. -/
theorem buildNest_nestsExactly (hself : ∀ bb, bb ∉ body.realSuccessors bb)
    (hback : IsBackEdges body backEdges) (hreach : LoopsReached body backEdges) :
    ∃ nest, ProcedureLoops.buildNest body backEdges = some nest ∧ nest.loopHeads.Nodup ∧
      (∀ head, head ∈ nest.loopHeads ↔ ∃ source, (source, head) ∈ backEdges) ∧
      ∀ bb, NestsExactly nest bb := by
  obtain ⟨nest, hok, hnest⟩ := exists_buildNest body backEdges
  have h := naturalNest_of_isLoopNest hself hback hreach hnest
  refine ⟨nest, hok, hnest.nodup, fun _ => hnest.mem_loopHeads, fun bb => ?_⟩
  refine ⟨h.nodup_enclosingLoopHeads, fun _ => NaturalNest.mem_enclosingLoopHeads_iff, ?_,
    fun _ => h.getLoopHead_eq_some_iff, h.getLoopDepth_eq⟩
  refine h.pairwise_enclosingLoopHeads.imp_of_mem fun houter hinner hin => ?_
  exact h.nested (NaturalNest.mem_enclosingLoopHeads_iff.mp houter).1
    (NaturalNest.mem_enclosingLoopHeads_iff.mp hinner).1 hin.1

namespace Witness

theorem nestedLoops_no_self_jump (bb : BasicBlock) : bb ∉ nestedLoops.realSuccessors bb := by
  intro hmem
  have hall : ∀ bb < 6, bb ∉ nestedLoops.realSuccessors bb := by decide
  exact hall bb (Body.lt_of_mem_successors (Body.realSuccessors_subset _ hmem)) hmem

theorem nestedLoops_same_edges (bb : BasicBlock) :
    nestedLoops.successors bb ⊆ nestedLoops.realSuccessors bb := by
  intro target hmem
  have hlt : bb < 6 := Body.lt_of_mem_successors hmem
  have hall : ∀ bb < 6, ∀ target ∈ nestedLoops.successors bb,
      target ∈ nestedLoops.realSuccessors bb := by decide
  exact hall bb hlt target hmem

theorem loopsReached_nestedLoops : LoopsReached nestedLoops [(4, 1), (3, 2)] :=
  loopsReached_of_same_edges (ε := Empty) nestedLoops_same_edges rfl isBackEdges_nestedLoops

theorem buildNest_nestsExactly_nestedLoops :
    ∃ nest, ProcedureLoops.buildNest nestedLoops [(4, 1), (3, 2)] = some nest ∧
      nest.loopHeads.Nodup ∧
      (∀ head, head ∈ nest.loopHeads ↔ ∃ source, (source, head) ∈ [(4, 1), (3, 2)]) ∧
      ∀ bb, NestsExactly nest bb :=
  buildNest_nestsExactly nestedLoops_no_self_jump isBackEdges_nestedLoops loopsReached_nestedLoops

example : ∃ nest, ProcedureLoops.buildNest nestedLoops [(4, 1), (3, 2)] = some nest ∧
    nest.enclosingLoopHeads 3 = [1, 2] ∧ nest.getLoopDepth 3 = 2 := ⟨_, rfl, by decide, by decide⟩

end Witness

end Prusti.Mir

/-
Of reducible control-flow graphs the loops can be computed: the forward edges have no cycle,
and every loop is entered at its head.
-/
import Prusti.Mir.BlockOrder
import Prusti.Mir.LoopNesting

namespace Prusti.Mir

open Prusti.Lib Relation

universe u

variable {Ty : Type u} {ε : Type}

/-- Every strongly connected set of blocks is reached, and has a block that dominates the
others. -/
def Body.Reducible (body : Body Ty) : Prop :=
  Lib.Reducible (Edge body.realSuccessors) fun head bb =>
    body.isReachable bb = true ∧ body.isDominatedBy bb head = true

variable {body : Body Ty} {backEdges : List (BasicBlock × BasicBlock)} {nest : LoopNest}
  {blocks : List BasicBlock} {head bb : BasicBlock}

variable {loops : ProcedureLoops}

/-- In particular a graph is reducible when the blocks are numbered so that every edge to a
lower number leads to a dominator. -/
theorem Body.reducible_of_rank (rank : BasicBlock → Nat)
    (hreach : ∀ bb ∈ body.indices, body.isReachable bb = true)
    (hrank : ∀ source, ∀ target ∈ body.realSuccessors source,
      rank source < rank target ∨ body.isDominatedBy source target = true) :
    body.Reducible := by
  intro region hregion hconnected
  obtain ⟨head, hhead, hdom⟩ := Lib.reducible_of_rank
    (fun _ _ hstep => Body.realSuccessors_subset _ hstep) rank
    (fun source target hstep => (hrank source target hstep).imp_right Body.isDominatedBy_iff.mp)
    region hregion hconnected
  refine ⟨head, hhead, fun bb hbb => ⟨hreach bb ?_, Body.isDominatedBy_iff.mpr (hdom bb hbb)⟩⟩
  obtain ⟨target, hstep, -⟩ := TransGen.head'_iff.mp (hconnected bb hbb bb hbb)
  exact Body.mem_indices_iff.mpr (Body.lt_of_mem_successors (Body.realSuccessors_subset _ hstep.1))

theorem forwardEdge_acyclic (hreducible : body.Reducible)
    (hback : IsBackEdges body backEdges) (bb : BasicBlock) :
    ¬ TransGen (ForwardEdge body backEdges) bb bb := by
  refine hreducible.acyclic (fun _ _ hstep => hstep.1) (fun source target hstep hdom => ?_) bb
  exact hstep.2 ((hback.mem_iff hdom.1 hstep.1).mpr hdom.2)

section

variable (h : NaturalNest body backEdges nest)

include h

/-- Every block of a loop but its head stands after a block of the loop that leads to it. -/
theorem NaturalNest.exists_forwardEdge (hhead : head ∈ nest.loopHeads)
    (hmem : bb ∈ nest.loopBody head) (hne : bb ≠ head) :
    ∃ pred ∈ nest.loopBody head, ForwardEdge body backEdges pred bb := by
  obtain ⟨pred, hpred, hedge, hforward⟩ :=
    ((h.mem_loopBody hhead).mp hmem).exists_pred h.back (h.isHead hhead) hne
  exact ⟨pred, (h.mem_loopBody hhead).mpr hpred, hedge, hforward⟩

/-- The head stands before the other blocks of its loop. -/
theorem NaturalNest.idxOf_head_lt (horder : IsBlockOrder body backEdges blocks)
    (hhead : head ∈ nest.loopHeads) (hmem : bb ∈ nest.loopBody head) (hne : bb ≠ head) :
    blocks.idxOf head < blocks.idxOf bb := by
  induction hindex : blocks.idxOf bb using Nat.strong_induction_on generalizing bb with
  | _ index ih =>
    obtain ⟨pred, hpred, hedge⟩ := h.exists_forwardEdge hhead hmem hne
    have hlt := horder.forward pred bb hedge
    by_cases heq : pred = head
    · rw [← hindex, ← heq]
      exact hlt
    · exact (ih _ (hindex ▸ hlt) hpred heq rfl).trans (hindex ▸ hlt)

theorem NaturalNest.lt_of_mem (hhead : head ∈ nest.loopHeads) (hmem : bb ∈ nest.loopBody head) :
    bb < body.basicBlocks.length := by
  have hreached := ((h.mem_loopBody hhead).mp hmem).reached h.back (h.isHead hhead)
  rcases hreached.cases_tail with rfl | ⟨pred, -, hedge⟩
  · exact body.startBlock_lt
  · exact Body.target_lt_of_mem_successors (Body.realSuccessors_subset _ hedge)

theorem NaturalNest.head_filter (horder : IsBlockOrder body backEdges blocks)
    (hhead : head ∈ nest.loopHeads) :
    (blocks.filter (· ∈ nest.loopBody head)).head? = some head := by
  have hmem : head ∈ blocks.filter (· ∈ nest.loopBody head) :=
    List.mem_filter.mpr ⟨(horder.mem_iff head).mpr (h.lt_of_mem hhead (h.head_mem hhead)),
      decide_eq_true (h.head_mem hhead)⟩
  cases hbody : blocks.filter (· ∈ nest.loopBody head) with
  | nil =>
    rw [hbody] at hmem
    cases hmem
  | cons first rest =>
    have hfirst : (blocks.filter (· ∈ nest.loopBody head)).head? = some first := by
      rw [hbody, List.head?_cons]
    rw [List.head?_cons, Option.some_inj]
    by_contra hne
    have hin := of_decide_eq_true (List.mem_filter.mp (List.mem_of_mem_head? hfirst)).2
    exact Nat.lt_asymm (idxOf_first_lt horder.nodup List.filter_sublist hfirst hmem (Ne.symm hne))
      (h.idxOf_head_lt horder hhead hin hne)

/-- When the blocks of a loop are passed in their order, each of them was entered before. -/
theorem NaturalNest.exists_foldlM_visitExitBlock (horder : IsBlockOrder body backEdges blocks)
    (hhead : head ∈ nest.loopHeads) {front back : List BasicBlock}
    {state : List BasicBlock × List BasicBlock}
    (hsplit : blocks.filter (· ∈ nest.loopBody head) = front ++ back)
    (hborder : ∀ bb ∈ back, (bb = head ∨ ∃ pred ∈ front, ForwardEdge body backEdges pred bb) →
      bb ∈ state.2) :
    ∃ state', back.foldlM (ProcedureLoops.visitExitBlock body nest backEdges head) state =
      (.ok state' : Except (Stop ε) _) := by
  have hsublist : List.Sublist (blocks.filter (· ∈ nest.loopBody head)) blocks :=
    List.filter_sublist
  induction back generalizing front state with
  | nil => exact ⟨state, rfl⟩
  | cons current back ih =>
    have hin : ∀ bb ∈ front ++ current :: back, bb ∈ nest.loopBody head := by
      intro bb hbb
      rw [← hsplit] at hbb
      exact of_decide_eq_true (List.mem_filter.mp hbb).2
    have hnodup : (front ++ current :: back).Nodup := by
      rw [← hsplit]
      exact hsublist.nodup horder.nodup
    have hcurrent : current ∈ state.2 := by
      apply hborder current List.mem_cons_self
      by_cases heq : current = head
      · exact .inl heq
      right
      obtain ⟨pred, hpred, hedge⟩ := h.exists_forwardEdge hhead (hin current (by simp)) heq
      refine ⟨pred, ?_, hedge⟩
      have hmem : pred ∈ front ++ current :: back := by
        rw [← hsplit]
        exact List.mem_filter.mpr
          ⟨(horder.mem_iff pred).mpr (h.lt_of_mem hhead hpred), decide_eq_true hpred⟩
      have hlt := horder.forward pred current hedge
      rcases List.mem_append.mp hmem with hfront | hback
      · exact hfront
      rcases List.mem_cons.mp hback with rfl | hback
      · exact absurd hlt (Nat.lt_irrefl _)
      · -- then the block would stand before the one that leads to it
        have hpair : List.Sublist [current, pred] blocks := by
          refine List.Sublist.trans ?_ hsublist
          rw [hsplit]
          exact ((List.singleton_sublist.mpr hback).cons_cons current).trans
            (List.sublist_append_right _ _)
        exact absurd (idxOf_lt_of_pair_sublist horder.nodup hpair) (Nat.lt_asymm hlt)
    obtain ⟨exits, hvisit⟩ : ∃ exits,
        ProcedureLoops.visitExitBlock body nest backEdges head state current =
          (.ok (exits, state.2.filter (· ≠ current) ++ (body.realSuccessors current).filter
            fun bb => (current, bb) ∉ backEdges ∧ bb ∈ nest.loopBody head) :
            Except (Stop ε) _) := by
      rw [ProcedureLoops.visitExitBlock, decide_eq_true hcurrent]
      exact ⟨_, rfl⟩
    have hentered : ∀ bb ∈ back,
        (bb = head ∨ ∃ pred ∈ front ++ [current], ForwardEdge body backEdges pred bb) →
        bb ∈ state.2.filter (· ≠ current) ++ (body.realSuccessors current).filter
          fun bb => (current, bb) ∉ backEdges ∧ bb ∈ nest.loopBody head := by
      intro bb hbb hbefore
      have hne : bb ≠ current := by
        rintro rfl
        exact (List.nodup_cons.mp (List.nodup_append'.mp hnodup).2.1).1 hbb
      rw [List.mem_append, List.mem_filter, List.mem_filter, decide_eq_true_iff, decide_eq_true_iff]
      rcases hbefore with heq | ⟨pred, hpred, hedge⟩
      · exact .inl ⟨hborder bb (List.mem_cons_of_mem _ hbb) (.inl heq), hne⟩
      rcases List.mem_append.mp hpred with hfront | hlast
      · exact .inl ⟨hborder bb (List.mem_cons_of_mem _ hbb) (.inr ⟨pred, hfront, hedge⟩), hne⟩
      · rw [List.mem_singleton.mp hlast] at hedge
        exact .inr ⟨hedge.1, hedge.2, hin bb (by simp [hbb])⟩
    obtain ⟨state', hstate'⟩ := @ih (front ++ [current])
      (exits, state.2.filter (· ≠ current) ++ (body.realSuccessors current).filter
        fun bb => (current, bb) ∉ backEdges ∧ bb ∈ nest.loopBody head)
      (hsplit.trans (List.append_cons ..)) hentered
    refine ⟨state', ?_⟩
    rw [List.foldlM_cons, hvisit]
    exact hstate'

end

theorem orderBody_eq_ok_iff {loop ordered : BasicBlock × List BasicBlock} :
    (ProcedureLoops.orderBody blocks loop : Except (Stop ε) _) = .ok ordered ↔
      (blocks.filter (· ∈ loop.2)).head? = some loop.1 ∧
        ordered = (loop.1, blocks.filter (· ∈ loop.2)) := by
  simp only [ProcedureLoops.orderBody, bind_eq_ok_iff, Stop.assert_eq_ok_iff,
    pure_eq_ok_iff, decide_eq_true_iff, exists_const]
  exact and_congr_right fun _ => eq_comm

theorem mapM_orderBody (hloops : IsLoopNest body backEdges nest)
    (hfirst : ∀ head ∈ nest.loopHeads, (blocks.filter (· ∈ nest.loopBody head)).head? = some head) :
    nest.loopBodies.mapM (ProcedureLoops.orderBody blocks) =
      (.ok (nest.loopHeads.map fun head => (head, blocks.filter (· ∈ nest.loopBody head))) :
        Except (Stop ε) _) := by
  rw [hloops.bodies, mapM_eq_ok_iff, List.forall₂_map_left_iff, List.forall₂_map_right_iff,
    List.forall₂_same]
  exact fun head hhead => orderBody_eq_ok_iff.mpr ⟨hfirst head hhead, rfl⟩

/-- What the loops of a body are when nothing fails. -/
structure OrderedNest (body : Body Ty) (backEdges : List (BasicBlock × BasicBlock))
    (loops : ProcedureLoops) : Prop where
  isLoopNest : IsLoopNest body backEdges loops.toLoopNest
  backEdges_eq : loops.backEdges = backEdges
  order : IsBlockOrder body backEdges loops.orderedBlocks
  getLoopBody_eq : ∀ head ∈ loops.loopHeads,
    loops.getLoopBody head = loops.orderedBlocks.filter (· ∈ loops.loopBody head)
  head_first : ∀ head ∈ loops.loopHeads, (loops.getLoopBody head).head? = some head
  nonconditional_eq : loops.nonconditionalLoopBlocks =
    loops.loopBodies.map (ProcedureLoops.findNonconditional body backEdges)

theorem orderedNest_of_ofBackEdges
    (hok : (ProcedureLoops.ofBackEdges body backEdges : Except (Stop ε) _) = .ok loops) :
    OrderedNest body backEdges loops := by
  simp only [ProcedureLoops.ofBackEdges, bind_eq_ok_iff, Stop.orOutOfFuel_eq_ok_iff,
    pure_eq_ok_iff] at hok
  obtain ⟨nest, hnest, blocks, hblocks, orderedLoopBodies, hbodies, exitBlocks, -, rfl⟩ := hok
  obtain ⟨nest', hnest', hloops⟩ := exists_buildNest body backEdges
  obtain rfl := Option.some.inj (hnest.symm.trans hnest')
  have hall := mapM_eq_ok_iff.mp hbodies
  rw [hloops.bodies, List.forall₂_map_left_iff] at hall
  have hfirst : ∀ head ∈ nest.loopHeads,
      (blocks.filter (· ∈ nest.loopBody head)).head? = some head := by
    intro head hhead
    obtain ⟨ordered, -, hordered⟩ := exists_of_forall₂_mem hall hhead
    exact (orderBody_eq_ok_iff.mp hordered).1
  obtain rfl := Except.ok.inj (hbodies.symm.trans (mapM_orderBody hloops hfirst))
  have hbody : ∀ head ∈ nest.loopHeads, (lookup (nest.loopHeads.map fun head =>
      (head, blocks.filter (· ∈ nest.loopBody head))) head).getD [] =
        blocks.filter (· ∈ nest.loopBody head) := by
    intro head hhead
    rw [lookup_map_key hhead, Option.getD_some]
  exact ⟨hloops, rfl, isBlockOrder_of_orderBasicBlocks hblocks, hbody,
    fun head hhead => (congrArg List.head? (hbody head hhead)).trans (hfirst head hhead), rfl⟩

/-- The start block stands before what is reached from it. -/
theorem IsBlockOrder.idxOf_startBlock_lt (horder : IsBlockOrder body backEdges blocks)
    (hback : IsBackEdges body backEdges) (hreach : Reaches body.realSuccessors startBlock bb)
    (hne : bb ≠ startBlock) : blocks.idxOf startBlock < blocks.idxOf bb := by
  induction hindex : blocks.idxOf bb using Nat.strong_induction_on generalizing bb with
  | _ index ih =>
    rcases exists_first_visit hreach with heq | ⟨pred, hedge, hpath⟩
    · exact absurd heq.symm hne
    have hpred : Reaches body.realSuccessors startBlock pred := hpath.reaches
    have hforward : ForwardEdge body backEdges pred bb := by
      refine ⟨hedge, fun hmem => ?_⟩
      have hreached := Body.isReachable_iff.mpr (reaches_of_realReaches hpred)
      exact dominates_of_isDominatedBy ((hback.mem_iff hreached hedge).mp hmem) hpath
    have hlt := horder.forward pred bb hforward
    by_cases heq : pred = startBlock
    · rw [← hindex, ← heq]
      exact hlt
    · exact (ih _ (hindex ▸ hlt) hpred heq rfl).trans (hindex ▸ hlt)

/-- A head that jumps to itself is passed by the walk up the graph, so that its body does not
start with it, unless it is the start block. -/
theorem OrderedNest.eq_startBlock_of_self (h : OrderedNest body backEdges loops)
    (hback : IsBackEdges body backEdges) (hreach : LoopsReached body backEdges)
    (hself : (head, head) ∈ backEdges) :
    head = startBlock := by
  by_contra hne
  have hhead : head ∈ loops.loopHeads := h.isLoopNest.mem_loopHeads.mpr ⟨head, hself⟩
  have hcollects := h.isLoopNest.collects head hhead
  have hreached := hreach head head head hself .refl
  rcases exists_first_visit hreached with heq | ⟨pred, hedge, hpath⟩
  · exact hne heq.symm
  -- the walk goes on above the head, up to the start block
  have hpred : pred ∈ loops.loopBody head :=
    hcollects.passed (mem_backEdgeSources_iff.mpr hself) (Body.mem_realPredecessors_iff.mpr hedge)
  have hstart : startBlock ∈ loops.loopBody head :=
    hpath.head_induction (motive := (· ∈ loops.loopBody head)) hpred
      fun _ _ hstep _ hnext hmem =>
        hcollects.closed _ hmem hnext.1 (Body.mem_realPredecessors_iff.mpr hstep)
  have hfirst := h.head_first head hhead
  rw [h.getLoopBody_eq head hhead] at hfirst
  have hlt := h.order.idxOf_startBlock_lt hback hreached hne
  have hmem : startBlock ∈ loops.orderedBlocks.filter (· ∈ loops.loopBody head) :=
    List.mem_filter.mpr ⟨(h.order.mem_iff _).mpr body.startBlock_lt, decide_eq_true hstart⟩
  exact Nat.lt_asymm hlt (idxOf_first_lt h.order.nodup List.filter_sublist hfirst hmem
    (Ne.symm hne))

/-- Where the loops are computed, they are the natural loops, also when a block jumps to
itself. -/
theorem OrderedNest.naturalNest (h : OrderedNest body backEdges loops)
    (hback : IsBackEdges body backEdges) (hreach : LoopsReached body backEdges) :
    NaturalNest body backEdges loops.toLoopNest :=
  naturalNest_of_self_eq_startBlock (fun hself => h.eq_startBlock_of_self hback hreach hself)
    hback hreach h.isLoopNest

theorem exists_ofBackEdges (hself : ∀ bb, bb ∉ body.realSuccessors bb)
    (hreducible : body.Reducible) (hback : IsBackEdges body backEdges)
    (hreach : LoopsReached body backEdges) :
    ∃ loops, (ProcedureLoops.ofBackEdges body backEdges : Except (Stop ε) _) = .ok loops := by
  obtain ⟨nest, hnest, hloops⟩ := exists_buildNest body backEdges
  have h := naturalNest_of_isLoopNest hself hback hreach hloops
  obtain ⟨blocks, hblocks⟩ : ∃ blocks, orderBasicBlocks body backEdges nest.getLoopDepth =
      (.ok blocks : Except (Stop ε) _) :=
    exists_orderBasicBlocks (forwardEdge_acyclic hreducible hback)
  have horder := isBlockOrder_of_orderBasicBlocks hblocks
  have hbodies := mapM_orderBody (ε := ε) hloops fun head hhead => h.head_filter horder hhead
  have hexits : ∀ ordered ∈ nest.loopHeads.map fun head =>
      (head, blocks.filter (· ∈ nest.loopBody head)),
      ∃ exits, ProcedureLoops.findExitBlocks body nest backEdges ordered =
        (.ok exits : Except (Stop ε) _) := by
    intro ordered hordered
    obtain ⟨head, hhead, rfl⟩ := List.mem_map.mp hordered
    obtain ⟨state, hstate⟩ : ∃ state, (blocks.filter (· ∈ nest.loopBody head)).foldlM
        (ProcedureLoops.visitExitBlock body nest backEdges head) ([], [head]) =
          (.ok state : Except (Stop ε) _) :=
      h.exists_foldlM_visitExitBlock horder hhead (List.nil_append _).symm (by simp)
    exact ⟨_, (bind_eq_ok_iff _ _ _).mpr ⟨state, hstate, rfl⟩⟩
  obtain ⟨exitBlocks, hexitBlocks⟩ := exists_mapM_eq_ok hexits
  refine ⟨⟨nest, backEdges, blocks,
    nest.loopHeads.map fun head => (head, blocks.filter (· ∈ nest.loopBody head)), exitBlocks,
    nest.loopBodies.map (ProcedureLoops.findNonconditional body backEdges)⟩, ?_⟩
  simp only [ProcedureLoops.ofBackEdges, bind_eq_ok_iff, Stop.orOutOfFuel_eq_ok_iff,
    pure_eq_ok_iff]
  exact ⟨nest, hnest, blocks, hblocks, _, hbodies, exitBlocks, hexitBlocks, rfl⟩

/-- The blocks of reducible graphs are ordered, unreachable ones among them, whatever the
depths of the loops are; and where all back edges can be told, the loops are computed, and
the bodies start with their heads. -/
theorem orderBasicBlocks_total (hself : ∀ bb, bb ∉ body.realSuccessors bb)
    (hsame : ∀ bb, body.successors bb ⊆ body.realSuccessors bb) (hreducible : body.Reducible) :
    (∀ backEdges (loopDepth : BasicBlock → Nat), IsBackEdges body backEdges →
      ∃ blocks, orderBasicBlocks body backEdges loopDepth = (.ok blocks : Except (Stop ε) _) ∧
        IsBlockOrder body backEdges blocks) ∧
    (∀ found backEdges, ProcedureLoops.findBackEdges body = (.ok found : Except (Stop ε) _) →
      found.Perm backEdges →
      ∃ loops, ProcedureLoops.ofBackEdges body backEdges = (.ok loops : Except (Stop ε) _) ∧
        IsBlockOrder body backEdges loops.orderedBlocks ∧
        ∀ head ∈ loops.loopHeads, (loops.getLoopBody head).head? = some head) := by
  constructor
  · intro backEdges loopDepth hback
    obtain ⟨blocks, hblocks⟩ : ∃ blocks, orderBasicBlocks body backEdges loopDepth =
        (.ok blocks : Except (Stop ε) _) :=
      exists_orderBasicBlocks (forwardEdge_acyclic hreducible hback)
    exact ⟨blocks, hblocks, isBlockOrder_of_orderBasicBlocks hblocks⟩
  · intro found backEdges hfound hperm
    have hback := (isBackEdges_of_findBackEdges hfound).perm hperm
    obtain ⟨loops, hloops⟩ := exists_ofBackEdges (ε := ε) hself hreducible hback
      (loopsReached_of_same_edges hsame hfound hback)
    have h := orderedNest_of_ofBackEdges hloops
    exact ⟨loops, hloops, h.order, h.head_first⟩

namespace Witness

theorem reducible_nestedLoops : nestedLoops.Reducible := by
  refine Body.reducible_of_rank id (by decide) fun source target hedge => ?_
  have hall : ∀ source < 6, ∀ target ∈ nestedLoops.realSuccessors source,
      source < target ∨ nestedLoops.isDominatedBy source target = true := by decide
  exact hall source (Body.lt_of_mem_successors (Body.realSuccessors_subset _ hedge)) target hedge

theorem orderBasicBlocks_total_nestedLoops :
    ∃ loops, ProcedureLoops.ofBackEdges nestedLoops [(4, 1), (3, 2)] =
        (.ok loops : Except (Stop Empty) _) ∧
      IsBlockOrder nestedLoops [(4, 1), (3, 2)] loops.orderedBlocks ∧
      ∀ head ∈ loops.loopHeads, (loops.getLoopBody head).head? = some head :=
  (orderBasicBlocks_total nestedLoops_no_self_jump nestedLoops_same_edges
    reducible_nestedLoops).2 [(3, 2), (4, 1)] [(4, 1), (3, 2)] rfl (List.Perm.swap _ _ _)

end Witness

end Prusti.Mir

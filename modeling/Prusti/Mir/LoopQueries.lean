/-
The queries on loops that are answered from dominators or from the innermost heads,
against the bodies of the loops.
-/
import Prusti.Mir.OrderedLoops

namespace Prusti.Mir

open Prusti.Lib Relation

universe u

variable {Ty : Type u} {ε : Type}

/-- The dominators, which are taken over all edges, are those of the graph of real edges. -/
def DominatorsAgree (body : Body Ty) : Prop :=
  ∀ bb dom, Reaches body.realSuccessors startBlock bb →
    (body.isDominatedBy bb dom = true ↔ Dominates (Edge body.realSuccessors) startBlock dom bb)

variable {body : Body Ty} {backEdges : List (BasicBlock × BasicBlock)} {nest : LoopNest}
  {loops : ProcedureLoops} {head bb : BasicBlock}

theorem dominatorsAgree_of_same_edges
    (hsame : ∀ bb, body.successors bb ⊆ body.realSuccessors bb) : DominatorsAgree body :=
  fun _ _ _ => ⟨dominates_of_isDominatedBy, fun h => Body.isDominatedBy_iff.mpr fun hpath =>
    h (hpath.mono fun _ _ hstep => hsame _ hstep)⟩

/-- An iteration of a loop: a path from the head that stays in the body and ends with a back
edge into the head. -/
structure IterationPath (body : Body Ty) (backEdges : List (BasicBlock × BasicBlock))
    (loopBody : List BasicBlock) (head : BasicBlock) (path : List BasicBlock) : Prop where
  inside : ∀ bb ∈ path, bb ∈ loopBody
  ends : ∃ source, IsPath (Edge body.realSuccessors) head source path ∧ (source, head) ∈ backEdges

theorem OrderedNest.isConditionalBranch_eq_false_iff (h : OrderedNest body backEdges loops)
    (hhead : head ∈ loops.loopHeads) :
    loops.isConditionalBranch head bb = false ↔ bb ∈ loops.loopBody head ∧
      ∀ source, (source, head) ∈ backEdges → bb ∈ body.dominators source := by
  have hlookup : lookup loops.nonconditionalLoopBlocks head =
      some (ProcedureLoops.findNonconditional body backEdges (head, loops.loopBody head)).2 := by
    rw [h.nonconditional_eq, h.isLoopNest.bodies, List.map_map]
    exact @lookup_map_key _ loops.loopHeads (fun head =>
      (ProcedureLoops.findNonconditional body backEdges (head, loops.loopBody head)).2) _ hhead
  rw [ProcedureLoops.isConditionalBranch, hlookup, Option.getD_some, decide_eq_false_iff_not,
    not_not, ProcedureLoops.findNonconditional, List.mem_filter, List.all_eq_true]
  refine and_congr_right fun _ => ?_
  constructor
  · intro hall source hsource
    exact of_decide_eq_true (hall (source, head)
      (List.mem_filter.mpr ⟨hsource, decide_eq_true rfl⟩))
  · rintro hall ⟨source, target⟩ hedge
    obtain ⟨hmem, heq⟩ := List.mem_filter.mp hedge
    obtain rfl : target = head := of_decide_eq_true heq
    exact decide_eq_true (hall source hmem)

/-- The unconditional blocks of a loop are those that no iteration avoids. -/
theorem isConditionalBranch_iff_avoidable (hself : ∀ bb, bb ∉ body.realSuccessors bb)
    (hback : IsBackEdges body backEdges) (hreach : LoopsReached body backEdges)
    (hdom : DominatorsAgree body)
    (hok : (ProcedureLoops.ofBackEdges body backEdges : Except (Stop ε) _) = .ok loops)
    (hhead : head ∈ loops.loopHeads) (hbb : bb ∈ loops.loopBody head) :
    loops.isConditionalBranch head bb = false ↔
      ∀ path, IterationPath body backEdges (loops.loopBody head) head path → bb ∈ path := by
  have horder := orderedNest_of_ofBackEdges hok
  have h := naturalNest_of_isLoopNest hself hback hreach horder.isLoopNest
  have hloop := (h.mem_loopBody hhead).mp hbb
  rw [horder.isConditionalBranch_eq_false_iff hhead, and_iff_right hbb]
  constructor
  · rintro hdominates path ⟨-, source, hpath, hsource⟩
    by_contra havoid
    have hbbDom := dominates_of_isDominatedBy (List.mem_filter.mp (hdominates source hsource)).2
    -- the head would be on the way to itself
    have hbbHead := hbbDom.of_reachesAvoiding (hpath.reachesAvoiding havoid)
    have heq : head = bb := Dominates.antisymm
      ((InLoop.self head).reached h.back (h.isHead hhead)) (hloop.dominates h.back) hbbHead
    apply havoid
    rw [← heq]
    exact List.mem_of_mem_head? hpath.first
  · intro hall source hsource
    have hreached := h.back.reached hsource .refl
    refine List.mem_filter.mpr ⟨Body.mem_indices_iff.mpr (h.lt_of_mem hhead hbb), ?_⟩
    refine (hdom source bb hreached).mpr fun havoid => ?_
    have hne : head ≠ bb := by
      rintro rfl
      exact h.back.dominates hsource havoid
    -- the part of the path behind the head is an iteration
    obtain ⟨path, hpath, hpathBlocks⟩ : ∃ path,
        IsPath (Edge body.realSuccessors) head source path ∧
          ∀ w ∈ path, w ≠ bb ∧ w ∈ loops.loopBody head := by
      refine exists_isPath ⟨hne, h.head_mem hhead⟩ ?_
      rcases exists_last_visit (d := head) havoid.2 with hpath | rfl | ⟨w, hstep, hpath⟩
      · exact absurd (hpath.mono fun _ _ hstep => hstep.1) (h.back.dominates hsource)
      · exact absurd (hback.isEdge hsource) (hself _)
      have hmem : ∀ {x}, ReachesAvoiding (fun a b => Edge body.realSuccessors a b ∧ b ≠ bb)
          head x source → x ∈ loops.loopBody head := fun hx =>
        (h.mem_loopBody hhead).mpr (.inr ⟨source, hsource, hx.mono fun _ _ hstep => hstep.1⟩)
      refine .head ⟨hstep.1, hstep.2, hmem hpath⟩ ?_
      refine hpath.head_induction (motive := fun x => ReflTransGen (fun a b =>
        Edge body.realSuccessors a b ∧ b ≠ bb ∧ b ∈ loops.loopBody head) x source) .refl ?_
      exact fun a b hab _ hb ih => .head ⟨hab.1, hab.2, hmem hb⟩ ih
    exact (hpathBlocks bb (hall path ⟨fun w hw => (hpathBlocks w hw).2, source, hpath,
      hsource⟩)).1 rfl

/-- The edge leads out of a loop and to the head of a loop. -/
def LeavesLoopToHead (body : Body Ty) (backEdges : List (BasicBlock × BasicBlock))
    (source target : BasicBlock) : Prop :=
  (∃ pred, (pred, target) ∈ backEdges) ∧ ∃ head, (∃ pred, (pred, head) ∈ backEdges) ∧
    NaturalLoop body backEdges head source ∧ ¬ NaturalLoop body backEdges head target

theorem NaturalNest.mem_loopBody_iff_naturalLoop (h : NaturalNest body backEdges nest)
    (hback : IsBackEdges body backEdges) (hhead : head ∈ nest.loopHeads) :
    bb ∈ nest.loopBody head ↔ NaturalLoop body backEdges head bb := by
  rw [h.mem_loopBody hhead]
  constructor
  · rintro (rfl | ⟨source, hsource, hpath⟩)
    · exact .inl rfl
    · have hreached := Body.isReachable_iff.mpr
        (reaches_of_realReaches (h.back.reached hsource .refl))
      have hdom := (hback.mem_iff hreached (hback.isEdge hsource)).mp hsource
      exact .inr ⟨isDominatedBy_of_avoids hdom hpath, source, hsource, hpath⟩
  · rintro (rfl | ⟨-, source, hsource, hpath⟩)
    · exact .self bb
    · exact .inr ⟨source, hsource, hpath⟩

/-- A head is the innermost one around itself. -/
theorem NaturalNest.getLoopHead_of_head (h : NaturalNest body backEdges nest)
    (hhead : head ∈ nest.loopHeads) : nest.getLoopHead head = some head := by
  refine h.getLoopHead_eq_some_iff.mpr ⟨hhead, h.head_mem hhead, fun head' hhead' hmem => ?_⟩
  exact h.nested hhead' hhead hmem

theorem NaturalNest.isOutEdge_eq_true_iff (h : NaturalNest body backEdges nest)
    {source target : BasicBlock} :
    nest.isOutEdge source target = true ↔
      (∃ head ∈ nest.loopHeads, source ∈ nest.loopBody head ∧ target ∉ nest.loopBody head) ∧
        target ∉ nest.loopHeads := by
  rw [LoopNest.isOutEdge]
  cases hsource : nest.getLoopHead source with
  | none =>
    rw [NaturalNest.getLoopHead_eq_none_iff, LoopNest.enclosingHeads,
      List.filter_eq_nil_iff] at hsource
    refine ⟨fun hfalse => absurd hfalse Bool.false_ne_true, ?_⟩
    rintro ⟨⟨head, hhead, hin, -⟩, -⟩
    exact absurd (decide_eq_true hin) (hsource head hhead)
  | some sourceHead =>
    obtain ⟨hhead, hin, hinner⟩ := h.getLoopHead_eq_some_iff.mp hsource
    cases htarget : nest.getLoopHead target with
    | none =>
      rw [NaturalNest.getLoopHead_eq_none_iff, LoopNest.enclosingHeads,
        List.filter_eq_nil_iff] at htarget
      refine iff_of_true rfl ⟨⟨sourceHead, hhead, hin, fun hmem => ?_⟩, fun hmem => ?_⟩
      · exact htarget sourceHead hhead (decide_eq_true hmem)
      · exact htarget target hmem (decide_eq_true (h.head_mem hmem))
    | some targetHead =>
      obtain ⟨hhead', hin', -⟩ := h.getLoopHead_eq_some_iff.mp htarget
      dsimp only
      split
      · next hsame =>
          refine ⟨fun hfalse => absurd hfalse Bool.false_ne_true, ?_⟩
          rintro ⟨⟨head, hmem, hsourceIn, htargetOut⟩, hno⟩
          rcases hsame with rfl | rfl
          · exact absurd (hinner head hmem hsourceIn hin') htargetOut
          · exact absurd hhead' hno
      · next hother =>
          rw [not_or] at hother
          rw [decide_eq_true_iff, NaturalNest.mem_enclosingLoopHeads_iff, and_iff_right hhead]
          constructor
          · intro hout
            refine ⟨⟨sourceHead, hhead, hin, hout⟩, fun hmem => hother.2 ?_⟩
            exact Option.some.inj ((h.getLoopHead_of_head hmem).symm.trans htarget)
          · rintro ⟨⟨head, hmem, hsourceIn, htargetOut⟩, -⟩ hmem'
            exact htargetOut (hinner head hmem hsourceIn hmem')

/-- The queries agree with the bodies of the loops, but for edges that leave a loop to the head
of a loop, and for blocks that are dominated by a head and not in its loop. -/
theorem loopQueries_exact_iff (hself : ∀ bb, bb ∉ body.realSuccessors bb)
    (hback : IsBackEdges body backEdges) (hreach : LoopsReached body backEdges) :
    ∃ nest, ProcedureLoops.buildNest body backEdges = some nest ∧
      (∀ source target,
        (nest.isOutEdge source target = true ↔
          ∃ head ∈ nest.loopHeads, source ∈ nest.loopBody head ∧ target ∉ nest.loopBody head) ↔
        ¬ LeavesLoopToHead body backEdges source target) ∧
      ∀ head ∈ nest.loopHeads, ∀ bb,
        (∃ inside, ProcedureLoops.isBlockInLoop body head bb =
          (.ok inside : Except (Stop ε) _) ∧ (inside = true ↔ bb ∈ nest.loopBody head)) ↔
        body.isReachable bb = true ∧
          (body.isDominatedBy bb head = true → NaturalLoop body backEdges head bb) := by
  obtain ⟨nest, hok, hnest⟩ := exists_buildNest body backEdges
  have h := naturalNest_of_isLoopNest hself hback hreach hnest
  refine ⟨nest, hok, fun source target => ?_, fun head hhead bb => ?_⟩
  · have hleaves : LeavesLoopToHead body backEdges source target ↔
        target ∈ nest.loopHeads ∧ ∃ head ∈ nest.loopHeads,
          source ∈ nest.loopBody head ∧ target ∉ nest.loopBody head := by
      rw [LeavesLoopToHead, hnest.mem_loopHeads]
      refine and_congr_right fun _ => exists_congr fun head => ?_
      rw [← hnest.mem_loopHeads]
      refine and_congr_right fun hhead => ?_
      rw [h.mem_loopBody_iff_naturalLoop hback hhead, h.mem_loopBody_iff_naturalLoop hback hhead]
    rw [h.isOutEdge_eq_true_iff, hleaves, and_iff_left_iff_imp, not_and']
  · rw [h.mem_loopBody_iff_naturalLoop hback hhead, ProcedureLoops.isBlockInLoop]
    simp only [bind_eq_ok_iff, Stop.assert_eq_ok_iff, pure_eq_ok_iff]
    have hdominated : NaturalLoop body backEdges head bb → body.isDominatedBy bb head = true := by
      rintro (rfl | ⟨hdom, -⟩)
      · exact Body.isDominatedBy_iff.mpr (.refl bb)
      · exact hdom
    constructor
    · rintro ⟨inside, ⟨-, hreached, rfl⟩, hexact⟩
      exact ⟨hreached, hexact.mp⟩
    · rintro ⟨hreached, hinside⟩
      exact ⟨_, ⟨⟨⟩, hreached, rfl⟩, hinside, hdominated⟩

namespace Witness

theorem isConditionalBranch_iff_avoidable_nestedLoops :
    ∃ loops, ProcedureLoops.ofBackEdges nestedLoops [(4, 1), (3, 2)] =
        (.ok loops : Except (Stop Empty) _) ∧
      (loops.isConditionalBranch 1 2 = false ↔ ∀ path,
        IterationPath nestedLoops [(4, 1), (3, 2)] (loops.loopBody 1) 1 path → 2 ∈ path) :=
  ⟨_, rfl, isConditionalBranch_iff_avoidable (ε := Empty) nestedLoops_no_self_jump
    isBackEdges_nestedLoops loopsReached_nestedLoops
    (dominatorsAgree_of_same_edges nestedLoops_same_edges) rfl (by decide) (by decide)⟩

theorem loopQueries_exact_iff_nestedLoops :
    ∃ nest, ProcedureLoops.buildNest nestedLoops [(4, 1), (3, 2)] = some nest ∧
      (∀ source target,
        (nest.isOutEdge source target = true ↔
          ∃ head ∈ nest.loopHeads, source ∈ nest.loopBody head ∧ target ∉ nest.loopBody head) ↔
        ¬ LeavesLoopToHead nestedLoops [(4, 1), (3, 2)] source target) ∧
      ∀ head ∈ nest.loopHeads, ∀ bb,
        (∃ inside, ProcedureLoops.isBlockInLoop nestedLoops head bb =
          (.ok inside : Except (Stop Empty) _) ∧ (inside = true ↔ bb ∈ nest.loopBody head)) ↔
        nestedLoops.isReachable bb = true ∧ (nestedLoops.isDominatedBy bb head = true →
          NaturalLoop nestedLoops [(4, 1), (3, 2)] head bb) :=
  loopQueries_exact_iff nestedLoops_no_self_jump isBackEdges_nestedLoops loopsReached_nestedLoops

/-- Two loops one after the other: the second one is entered from the last block of the first
one. -/
def twoLoops : Body Unit where
  basicBlocks := [⟨[], .goto 1⟩, ⟨[], .goto 2⟩, ⟨[], .switchInt .constant [1, 3]⟩,
    ⟨[], .goto 4⟩, ⟨[], .switchInt .constant [3, 5]⟩, ⟨[], .return⟩]
  localDecls := [()]
  argCount := 0
  startBlock_lt := by decide
  argCount_lt := Nat.one_pos
  target_lt := by decide

theorem twoLoops_no_self_jump (bb : BasicBlock) : bb ∉ twoLoops.realSuccessors bb := by
  intro hmem
  have hall : ∀ bb < 6, bb ∉ twoLoops.realSuccessors bb := by decide
  exact hall bb (Body.lt_of_mem_successors (Body.realSuccessors_subset _ hmem)) hmem

theorem reducible_twoLoops : twoLoops.Reducible := by
  refine Body.reducible_of_rank id (by decide) fun source target hedge => ?_
  have hall : ∀ source < 6, ∀ target ∈ twoLoops.realSuccessors source,
      source < target ∨ twoLoops.isDominatedBy source target = true := by decide
  exact hall source (Body.lt_of_mem_successors (Body.realSuccessors_subset _ hedge)) target hedge

/-- The edge from the first loop to the head of the second one does not count as one that
leaves a loop, and the last block counts as a block of the first loop. -/
theorem loopQueries_twoLoops_disagree :
    twoLoops.Reducible ∧ (∀ bb, bb ∉ twoLoops.realSuccessors bb) ∧
      3 ∈ twoLoops.realSuccessors 2 ∧
      ∃ nest, ProcedureLoops.buildNest twoLoops [(2, 1), (4, 3)] = some nest ∧
        nest.isOutEdge 2 3 = false ∧
        (1 ∈ nest.loopHeads ∧ 2 ∈ nest.loopBody 1 ∧ 3 ∉ nest.loopBody 1) ∧
        ProcedureLoops.isBlockInLoop twoLoops 1 5 = (.ok true : Except (Stop Empty) _) ∧
        5 ∉ nest.loopBody 1 :=
  ⟨reducible_twoLoops, twoLoops_no_self_jump, by decide, _, rfl, by decide, by decide, rfl,
    by decide⟩

end Witness

end Prusti.Mir

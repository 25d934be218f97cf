/-
The edges of a body that are no unwinding and no imaginary ones, the blocks that are
reached over edges, and dominators.
-/
import Prusti.Mir.Body
import Prusti.Lib.Dfs
import Prusti.Lib.Dominance
import Prusti.Lib.Saturation

namespace Prusti.Mir

open Prusti.Lib

universe u

/-- The targets of the edges that a terminator really takes. -/
def TerminatorKind.realTargets {Ty : Type u} : TerminatorKind Ty → List BasicBlock
  | .goto target => [target]
  | .assert _ target _ => [target]
  | .switchInt _ targets => targets
  | .resume | .abort | .return | .generatorDrop | .unreachable => []
  | .dropAndReplace _ _ target _ => [target]
  | .drop _ target _ => [target]
  | .call _ _ destination _ => (destination.map Prod.snd).toList
  | .falseEdge realTarget _ => [realTarget]
  | .falseUnwind realTarget _ => [realTarget]
  | .yield _ resumed _ _ => [resumed]
  | .inlineAsm destination => destination.toList

theorem TerminatorKind.realTargets_subset {Ty : Type u} (kind : TerminatorKind Ty) :
    kind.realTargets ⊆ kind.successors := by
  intro target h
  cases kind <;> simp_all [realTargets, successors]

namespace Body

variable {Ty : Type u} (body : Body Ty)

/-- The successors over real edges, with repetitions. -/
def realSuccessors (bb : BasicBlock) : List BasicBlock :=
  match body.terminator? bb with
  | some kind => kind.realTargets
  | none => []

/-- The sources of the real edges into a block, one entry for each edge. -/
def realPredecessors (bb : BasicBlock) : List BasicBlock :=
  body.indices.flatMap fun pred =>
    ((body.realSuccessors pred).filter (· = bb)).map fun _ => pred

variable {body} in
theorem realSuccessors_subset (bb : BasicBlock) : body.realSuccessors bb ⊆ body.successors bb := by
  rw [realSuccessors, successors]
  cases body.terminator? bb with
  | none => exact fun _ h => h
  | some kind => exact kind.realTargets_subset

variable {body} in
theorem mem_realPredecessors_iff {bb pred : BasicBlock} :
    pred ∈ body.realPredecessors bb ↔ bb ∈ body.realSuccessors pred := by
  rw [realPredecessors, List.mem_flatMap]
  constructor
  · rintro ⟨source, -, hsource⟩
    obtain ⟨target, htarget, rfl⟩ := List.mem_map.mp hsource
    obtain ⟨hmem, heq⟩ := List.mem_filter.mp htarget
    rwa [of_decide_eq_true heq] at hmem
  · intro hmem
    refine ⟨pred, mem_indices_iff.mpr (lt_of_mem_successors (realSuccessors_subset _ hmem)), ?_⟩
    exact List.mem_map.mpr ⟨bb, List.mem_filter.mpr ⟨hmem, decide_eq_true rfl⟩, rfl⟩

/-- The blocks on the paths from the start block that keep away from a block. -/
def avoidRules (next : BasicBlock → List BasicBlock)
    (hnext : ∀ bb, next bb ⊆ body.successors bb) (avoided : Option BasicBlock) :
    Rules BasicBlock where
  derive reached := (startBlock :: reached.flatMap next).filter (some · ≠ avoided)
  bound := body.indices
  derive_subset := by
    intro reached _ bb hbb
    apply mem_indices_iff.mpr
    rcases List.mem_cons.mp (List.mem_of_mem_filter hbb) with rfl | hbb
    · exact body.startBlock_lt
    · obtain ⟨pred, -, hpred⟩ := List.mem_flatMap.mp hbb
      exact target_lt_of_mem_successors (hnext pred hpred)

/-- The blocks that are reached from the start block over real edges. -/
def reachableBasicBlocks : List BasicBlock :=
  (body.avoidRules body.realSuccessors realSuccessors_subset none).saturate

/-- Whether some path leads to the block, over any edges. -/
def isReachable (bb : BasicBlock) : Bool :=
  bb ∈ (body.avoidRules body.successors (fun _ => List.Subset.refl _) none).saturate

/-- Every path from the start block to `bb` passes through `dom`. -/
def isDominatedBy (bb dom : BasicBlock) : Bool :=
  bb ∉ (body.avoidRules body.successors (fun _ => List.Subset.refl _) (some dom)).saturate

/-- The dominators of a block, itself among them. -/
def dominators (bb : BasicBlock) : List BasicBlock := body.indices.filter (body.isDominatedBy bb)

section Reached

open Relation

variable {body} {next : BasicBlock → List BasicBlock}
  {hnext : ∀ bb, next bb ⊆ body.successors bb} {avoided : Option BasicBlock}

theorem mem_saturate_avoidRules_iff {bb : BasicBlock} :
    bb ∈ (body.avoidRules next hnext avoided).saturate ↔
      some startBlock ≠ avoided ∧
        ReflTransGen (fun pred succ => Edge next pred succ ∧ some succ ≠ avoided)
          startBlock bb := by
  constructor
  · revert bb
    apply Rules.saturate_induction
    intro reached ih bb hbb
    obtain ⟨hmem, hne⟩ := List.mem_filter.mp hbb
    have hne := of_decide_eq_true hne
    rcases List.mem_cons.mp hmem with rfl | hmem
    · exact ⟨hne, .refl⟩
    · obtain ⟨pred, hpred, hbb⟩ := List.mem_flatMap.mp hmem
      obtain ⟨hstart, hpath⟩ := ih pred hpred
      exact ⟨hstart, hpath.tail ⟨hbb, hne⟩⟩
  · rintro ⟨hstart, hpath⟩
    induction hpath with
    | refl =>
      exact Rules.derive_saturate (List.mem_filter.mpr ⟨List.mem_cons_self, decide_eq_true hstart⟩)
    | @tail pred bb _ hstep ih =>
      exact Rules.derive_saturate (List.mem_filter.mpr
        ⟨List.mem_cons_of_mem _ (List.mem_flatMap.mpr ⟨pred, ih, hstep.1⟩), decide_eq_true hstep.2⟩)

theorem mem_reachableBasicBlocks_iff {bb : BasicBlock} :
    bb ∈ body.reachableBasicBlocks ↔ Reaches body.realSuccessors startBlock bb := by
  rw [reachableBasicBlocks, mem_saturate_avoidRules_iff]
  simp [Reaches]

theorem isReachable_iff {bb : BasicBlock} :
    body.isReachable bb = true ↔ Reaches body.successors startBlock bb := by
  rw [isReachable, decide_eq_true_iff, mem_saturate_avoidRules_iff]
  simp [Reaches]

theorem isDominatedBy_iff {bb dom : BasicBlock} :
    body.isDominatedBy bb dom = true ↔ Dominates (Edge body.successors) startBlock dom bb := by
  rw [isDominatedBy, decide_eq_true_iff, mem_saturate_avoidRules_iff]
  simp [Dominates, ReachesAvoiding]

end Reached

end Body

end Prusti.Mir

/-
Merging consecutive basic blocks that are joined by only one edge.  `none` stands
for a failed assertion, a missing key or an index out of bounds.
-/
import Prusti.Cfg.Loops
import Prusti.Cfg.Executions

namespace Prusti.Optimizations

open Prusti.Cfg Prusti.Lib

/-- The edges of a method, block by block. -/
def edges (method : CfgMethod) : List (Nat × Nat) :=
  (List.range method.basicBlocks.length).flatMap fun index =>
    (method.following index).map fun target => (index, target)

/-- Enter the source of an edge at its target. -/
def addPredecessor (result : HashMap Nat (List Nat)) (edge : Nat × Nat) : HashMap Nat (List Nat) :=
  result.insert edge.2 ((result.get? edge.2).getD [] ++ [edge.1])

def predecessors (method : CfgMethod) : HashMap Nat (List Nat) :=
  (edges method).foldl addPredecessor HashMap.empty

/-- The blocks under their positions. -/
def enumerateBlocks (method : CfgMethod) : HashMap Nat CfgBlock :=
  HashMap.ofList (method.basicBlocks.zipIdx.map Prod.swap)

/-- A new index must not be there already. -/
def insertIndex (newIndices : HashMap Nat Nat) (blockIndex newIndex : Nat) :
    Option (HashMap Nat Nat) :=
  if newIndices.contains blockIndex then none
  else some (newIndices.insert blockIndex newIndex)

/-- Follow the jumps to blocks with only one predecessor.  The fuel bounds the number
of jumps. -/
def mergeGotos (preds : HashMap Nat (List Nat)) (newIndex : Nat) :
    Nat → CfgBlock → HashMap Nat CfgBlock → HashMap Nat Nat →
      Option (CfgBlock × HashMap Nat CfgBlock × HashMap Nat Nat)
  | 0, _, _, _ => none
  | fuel + 1, block, blocks, newIndices =>
    match block.successor with
    | .goto target => do
      let sources ← preds.get? target.blockIndex
      if sources.length = 1 then do
        let newIndices ← insertIndex newIndices target.blockIndex newIndex
        let targetBlock ← blocks.get? target.blockIndex
        mergeGotos preds newIndex fuel ⟨block.stmts ++ targetBlock.stmts, targetBlock.successor⟩
          (blocks.erase target.blockIndex) newIndices
      else some (block, blocks, newIndices)
    | _ => some (block, blocks, newIndices)

structure CfgCleaner where
  newBasicBlocks : List CfgBlock
  basicBlocks : HashMap Nat CfgBlock
  newIndices : HashMap Nat Nat

/-- Take the next block unless it is merged already.  Every jump that is followed
removes a block. -/
def cleanBlock (method : CfgMethod) (state : CfgCleaner) (index : CfgBlockIndex) :
    Option CfgCleaner :=
  match state.basicBlocks.get? index.blockIndex with
  | none => some state
  | some block => do
    let newIndex := state.newBasicBlocks.length
    let newIndices ← insertIndex state.newIndices index.blockIndex newIndex
    let (block, blocks, newIndices) ← mergeGotos (predecessors method) newIndex
      method.basicBlocks.length block (state.basicBlocks.erase index.blockIndex)
      newIndices
    some ⟨state.newBasicBlocks ++ [block], blocks, newIndices⟩

def renumberTarget (newIndices : HashMap Nat Nat) (target : CfgBlockIndex) : Option CfgBlockIndex :=
  (newIndices.get? target.blockIndex).map fun newIndex =>
    { target with blockIndex := newIndex }

def renumberSuccessor (newIndices : HashMap Nat Nat) : Successor → Option Successor
  | .undefined => some .undefined
  | .ret => some .ret
  | .goto target => (renumberTarget newIndices target).map .goto
  | .gotoSwitch conditionalTargets defaultTarget => do
    let defaultTarget ← renumberTarget newIndices defaultTarget
    let conditionalTargets ← conditionalTargets.mapM fun guarded =>
      (renumberTarget newIndices guarded.2).map fun target => (guarded.1, target)
    some (.gotoSwitch conditionalTargets defaultTarget)

def renumberBlock (newIndices : HashMap Nat Nat) (block : CfgBlock) : Option CfgBlock :=
  (renumberSuccessor newIndices block.successor).map fun successor =>
    { block with successor := successor }

/-- The start block should be first. -/
def cleanCfg (method : CfgMethod) : Option CfgMethod := do
  let traversalOrder ← method.getTopologicalSort
  let first ← traversalOrder.head?
  if first.blockIndex = 0 then do
    let state ← traversalOrder.foldlM (cleanBlock method)
      ⟨[], enumerateBlocks method, HashMap.empty⟩
    let newBasicBlocks ← state.newBasicBlocks.mapM (renumberBlock state.newIndices)
    some { method with basicBlocks := newBasicBlocks }
  else none

section Predecessors

variable {method : CfgMethod}

theorem mem_edges_iff (source target : Nat) :
    (source, target) ∈ edges method ↔ Edge method.following source target := by
  simp only [edges, List.mem_flatMap, List.mem_range, List.mem_map, Prod.mk.injEq]
  constructor
  · rintro ⟨index, -, other, hother, rfl, rfl⟩
    exact hother
  · intro hedge
    refine ⟨source, ?_, target, hedge, rfl, rfl⟩
    by_contra hlarge
    have hnone := List.getElem?_eq_none (Nat.le_of_not_lt hlarge)
    rw [Edge, CfgMethod.following, hnone] at hedge
    cases hedge

/-- The predecessors of a block are the sources of the edges into it. -/
theorem get?_foldl_addPredecessor (edges : List (Nat × Nat))
    (result : HashMap Nat (List Nat)) (target : Nat) :
    ((edges.foldl addPredecessor result).get? target).getD [] =
        (result.get? target).getD [] ++ (edges.filter (·.2 == target)).map (·.1) ∧
      (((edges.foldl addPredecessor result).get? target).isSome ↔
        (result.get? target).isSome ∨ ∃ source, (source, target) ∈ edges) := by
  induction edges generalizing result with
  | nil => simp
  | cons edge edges ih =>
    obtain ⟨source, other⟩ := edge
    obtain ⟨hvalue, hsome⟩ := ih (addPredecessor result (source, other))
    rw [List.foldl_cons, hvalue, hsome, addPredecessor, HashMap.get?_insert]
    by_cases heq : other = target
    · subst heq
      simp
    · have hne : (other == target) = false := by simpa using heq
      simp [hne, Ne.symm heq]

theorem get?_predecessors {source target : Nat} (hedge : Edge method.following source target) :
    ∃ sources, (predecessors method).get? target = some sources ∧
      ∀ source, source ∈ sources ↔ Edge method.following source target := by
  obtain ⟨hvalue, hsome⟩ := get?_foldl_addPredecessor (edges method) HashMap.empty target
  have hexists := hsome.mpr (.inr ⟨source, (mem_edges_iff source target).mpr hedge⟩)
  obtain ⟨sources, hsources⟩ := Option.isSome_iff_exists.mp hexists
  refine ⟨sources, hsources, fun source => ?_⟩
  rw [hsources] at hvalue
  rw [← mem_edges_iff]
  change sources = [] ++ _ at hvalue
  rw [hvalue]
  simp

/-- A block with one predecessor has one incoming edge. -/
theorem eq_of_single {sources : List Nat} {source source' target : Nat}
    (hget : (predecessors method).get? target = some sources)
    (hsingle : sources.length = 1) (hedge : Edge method.following source target)
    (hedge' : Edge method.following source' target) : source = source' := by
  obtain ⟨other, hother, hmem⟩ := get?_predecessors hedge
  cases hget.symm.trans hother
  obtain ⟨only, rfl⟩ := List.length_eq_one_iff.mp hsingle
  have hsource := List.mem_singleton.mp ((hmem source).mpr hedge)
  have hsource' := List.mem_singleton.mp ((hmem source').mpr hedge')
  rw [hsource, hsource']

theorem get?_enumerateBlocks (method : CfgMethod) (index : Nat) :
    (enumerateBlocks method).get? index = method.basicBlocks[index]? := by
  have hnodup : (method.basicBlocks.zipIdx.map Prod.swap).Pairwise
      fun left right => (left.1 == right.1) = false := by
    have hrange : (method.basicBlocks.zipIdx.map Prod.snd).Nodup := by
      rw [List.zipIdx_map_snd]
      exact List.nodup_range'
    rw [List.pairwise_map]
    rw [List.Nodup, List.pairwise_map] at hrange
    exact hrange.imp fun h => by simpa using h
  rw [enumerateBlocks, HashMap.get?_ofList hnodup]
  cases hblock : method.basicBlocks[index]? with
  | some block =>
    have hmem : (index, block) ∈ method.basicBlocks.zipIdx.map Prod.swap :=
      List.mem_map.mpr ⟨(block, index), List.mem_zipIdx_iff_getElem?.mpr hblock, rfl⟩
    exact lookup_of_mem hnodup hmem (by simp)
  | none =>
    rw [lookup_eq_none_iff]
    intro entry hentry
    obtain ⟨pair, hpair, rfl⟩ := List.mem_map.mp hentry
    have hget := List.mem_zipIdx_iff_getElem?.mp hpair
    simp only [Prod.fst_swap, beq_eq_false_iff_ne]
    intro heq
    rw [heq, hblock] at hget
    cases hget

end Predecessors

end Prusti.Optimizations

/-
The loops of a body: natural loops with their nesting, the topological order of the
blocks, and the blocks that decide whether a loop is left.
-/
import Mathlib.Data.List.Sort
import Prusti.Lib.HashMap
import Prusti.Lib.Outcome
import Prusti.Mir.RealEdges

namespace Prusti.Mir

open Prusti.Lib

universe u

/-- The loops with their heads.  A block may belong to several loops. -/
structure LoopNest where
  loopHeads : List BasicBlock
  loopBodies : List (BasicBlock × List BasicBlock)

namespace LoopNest

variable (nest : LoopNest)

def loopBody (head : BasicBlock) : List BasicBlock := (lookup nest.loopBodies head).getD []

/-- The heads of the loops that a block belongs to, in no particular order. -/
def enclosingHeads (bb : BasicBlock) : List BasicBlock :=
  nest.loopHeads.filter fun head => bb ∈ nest.loopBody head

def loopHeadDepth (head : BasicBlock) : Nat := (nest.enclosingHeads head).length

/-- The same heads from the outer to the inner ones. -/
def enclosingLoopHeads (bb : BasicBlock) : List BasicBlock :=
  (nest.enclosingHeads bb).insertionSort fun head head' =>
    nest.loopHeadDepth head ≤ nest.loopHeadDepth head'

def getLoopHead (bb : BasicBlock) : Option BasicBlock := (nest.enclosingLoopHeads bb).getLast?

/-- Zero outside of the loops. -/
def getLoopDepth (bb : BasicBlock) : Nat := ((nest.getLoopHead bb).map nest.loopHeadDepth).getD 0

def isLoopHead (bb : BasicBlock) : Bool := bb ∈ nest.loopHeads

/-- Whether an edge exits a loop, told from the innermost heads of its ends. -/
def isOutEdge (source target : BasicBlock) : Bool :=
  match nest.getLoopHead source, nest.getLoopHead target with
  | some sourceHead, some targetHead =>
    if sourceHead = targetHead ∨ target = targetHead then false
    else sourceHead ∉ nest.enclosingLoopHeads target
  | some _, none => true
  | none, _ => false

end LoopNest

/-- What the source calls the procedure loops.  The bodies and the exit blocks of the
loops are listed in the order of the ordered blocks. -/
structure ProcedureLoops extends LoopNest where
  backEdges : List (BasicBlock × BasicBlock)
  orderedBlocks : List BasicBlock
  orderedLoopBodies : List (BasicBlock × List BasicBlock)
  loopExitBlocks : List (BasicBlock × List BasicBlock)
  nonconditionalLoopBlocks : List (BasicBlock × List BasicBlock)

/-- The marks of the topological sort, and the blocks that are left, last one last. -/
structure BlockOrdering where
  sortedBlocks : List BasicBlock
  permanentMark : List Bool
  temporaryMark : List Bool

section Collect

variable {Ty : Type u} (body : Body Ty) (head : BasicBlock)

/-- Collect a predecessor and, unless it is the head, walk on from it. -/
def visitPredecessor (state : List BasicBlock × List BasicBlock) (predecessor : BasicBlock) :
    List BasicBlock × List BasicBlock :=
  if predecessor ∈ state.2 then state
  else (if predecessor ≠ head then predecessor :: state.1 else state.1, state.2 ++ [predecessor])

/-- The work queue is a stack, listed from its top. -/
def collectQueue : Nat → List BasicBlock → List BasicBlock → Option (List BasicBlock)
  | _, [], collected => some collected
  | 0, _ :: _, _ => none
  | fuel + 1, current :: queue, collected =>
    let state := (body.realPredecessors current).foldl (visitPredecessor head) (queue, collected)
    collectQueue fuel state.1 state.2

/-- Walk up the graph and collect all blocks that belong to the loop body. -/
def collectLoopBody (collected : List BasicBlock) (backEdgeSource : BasicBlock) :
    Option (List BasicBlock) :=
  collectQueue body head (body.basicBlocks.length + 1) [backEdgeSource]
    (if backEdgeSource ∈ collected then collected else collected ++ [backEdgeSource])

end Collect

section Order

variable {Ty : Type u} {ε : Type} (body : Body Ty)
  (backEdges : List (BasicBlock × BasicBlock)) (loopDepth : BasicBlock → Nat)

/-- Leave a block after the blocks behind it.  The edges that leave a loop come first, so
that the loop stands before what follows it. -/
def visitBlock : Nat → BlockOrdering → BasicBlock → Except (Stop ε) BlockOrdering
  | 0, _, _ => .error .outOfFuel
  | fuel + 1, ordering, current => do
    let permanent ← Stop.orPanic ordering.permanentMark[current]?
    if permanent then return ordering
    let temporary ← Stop.orPanic ordering.temporaryMark[current]?
    -- asserted: not a DAG otherwise
    Stop.assert !temporary
    let successors := body.realSuccessors current
    let ordered :=
      successors.filter (loopDepth · < loopDepth current) ++
        successors.filter (loopDepth current ≤ loopDepth ·)
    let ordering ← (ordered.filter fun next => (current, next) ∉ backEdges).foldlM (visitBlock fuel)
      { ordering with temporaryMark := ordering.temporaryMark.set current true }
    return { ordering with
      sortedBlocks := ordering.sortedBlocks ++ [current]
      permanentMark := ordering.permanentMark.set current true }

/-- Visit the first block without a mark until there is none. -/
def orderRemaining : Nat → BlockOrdering → Except (Stop ε) (List BasicBlock)
  | fuel, ordering =>
    match ordering.permanentMark.findIdx? (!·), fuel with
    | none, _ => .ok ordering.sortedBlocks.reverse
    | some _, 0 => .error .outOfFuel
    | some index, fuel + 1 => do
      let ordering ← visitBlock body backEdges loopDepth
        (body.basicBlocks.length + 1) ordering index
      orderRemaining fuel ordering

/-- The topological order of the blocks, where back edges are ignored. -/
def orderBasicBlocks : Except (Stop ε) (List BasicBlock) :=
  let unmarked := List.replicate body.basicBlocks.length false
  orderRemaining body backEdges loopDepth body.basicBlocks.length ⟨[], unmarked, unmarked⟩

end Order

namespace ProcedureLoops

variable {Ty : Type u} {ε : Type} (body : Body Ty)

/-- An edge whose target dominates its source.  The dominators are asked of reachable
blocks only. -/
def findBackEdges : Except (Stop ε) (List (BasicBlock × BasicBlock)) := do
  Stop.assert (body.indices.all fun bb => body.realSuccessors bb = [] ∨ body.isReachable bb)
  return (body.indices.flatMap fun bb =>
    ((body.realSuccessors bb).filter (body.isDominatedBy bb)).map fun target =>
      (bb, target)).dedup

/-- The body of a loop is collected from all its back edges. -/
def collectBody (backEdges : List (BasicBlock × BasicBlock)) (head : BasicBlock) :
    Option (BasicBlock × List BasicBlock) := do
  let sources := (backEdges.filter (·.2 = head)).map Prod.fst
  let collected ← sources.foldlM (collectLoopBody body head) []
  return (head, collected)

/-- Whether the terminator chooses between targets. -/
def isSwitchInt (bb : BasicBlock) : Bool :=
  match body.terminator? bb with
  | some (.switchInt _ _) => true
  | _ => false

/-- The border holds the blocks of the loop that were entered and not passed yet. -/
def visitExitBlock (nest : LoopNest) (backEdges : List (BasicBlock × BasicBlock))
    (head : BasicBlock) (state : List BasicBlock × List BasicBlock) (currBb : BasicBlock) :
    Except (Stop ε) (List BasicBlock × List BasicBlock) := do
  Stop.assert (currBb ∈ state.2)
  let hasExitEdge := (body.realSuccessors currBb).any fun bb =>
    nest.getLoopDepth bb < nest.loopHeadDepth head
  let inLoop := (body.realSuccessors currBb).filter fun bb =>
    (currBb, bb) ∉ backEdges ∧ bb ∈ nest.loopBody head
  return (if isSwitchInt body currBb && hasExitEdge then state.1 ++ [currBb] else state.1,
    state.2.filter (· ≠ currBb) ++ inLoop)

/-- The blocks of a loop that decide whether it is left. -/
def findExitBlocks (nest : LoopNest) (backEdges : List (BasicBlock × BasicBlock))
    (orderedBody : BasicBlock × List BasicBlock) :
    Except (Stop ε) (BasicBlock × List BasicBlock) := do
  let state ← orderedBody.2.foldlM
    (visitExitBlock body nest backEdges orderedBody.1) ([], [orderedBody.1])
  return (orderedBody.1, state.1)

/-- The blocks of a loop that are executed in every iteration: they dominate the sources
of its back edges. -/
def findNonconditional (backEdges : List (BasicBlock × BasicBlock))
    (loop : BasicBlock × List BasicBlock) : BasicBlock × List BasicBlock :=
  (loop.1, loop.2.filter fun bb =>
    (backEdges.filter (·.2 = loop.1)).all fun edge => bb ∈ body.dominators edge.1)

/-- The order of a body is the one of the ordered blocks.  It starts with the head. -/
def orderBody (orderedBlocks : List BasicBlock) (loop : BasicBlock × List BasicBlock) :
    Except (Stop ε) (BasicBlock × List BasicBlock) := do
  let orderedBody := orderedBlocks.filter (· ∈ loop.2)
  Stop.assert (orderedBody.head? = some loop.1)
  return (loop.1, orderedBody)

def buildNest (backEdges : List (BasicBlock × BasicBlock)) : Option LoopNest := do
  let loopHeads := (backEdges.map Prod.snd).dedup
  let loopBodies ← loopHeads.mapM (collectBody body backEdges)
  return ⟨loopHeads, loopBodies⟩

/-- The loops of a set of back edges, which is iterated over in the order of the list. -/
def ofBackEdges (backEdges : List (BasicBlock × BasicBlock)) : Except (Stop ε) ProcedureLoops := do
  let nest ← Stop.orOutOfFuel (buildNest body backEdges)
  let orderedBlocks ← orderBasicBlocks body backEdges nest.getLoopDepth
  let orderedLoopBodies ← nest.loopBodies.mapM (orderBody orderedBlocks)
  let loopExitBlocks ← orderedLoopBodies.mapM (findExitBlocks body nest backEdges)
  return { nest with
    backEdges := backEdges
    orderedBlocks := orderedBlocks
    orderedLoopBodies := orderedLoopBodies
    loopExitBlocks := loopExitBlocks
    nonconditionalLoopBlocks := nest.loopBodies.map (findNonconditional body backEdges) }

def new : Except (Stop ε) ProcedureLoops := do
  let backEdges ← findBackEdges body
  ofBackEdges body backEdges

variable (loops : ProcedureLoops)

def getLoopBody (head : BasicBlock) : List BasicBlock :=
  (lookup loops.orderedLoopBodies head).getD []

def getLoopExitBlocks (head : BasicBlock) : List BasicBlock :=
  (lookup loops.loopExitBlocks head).getD []

def isConditionalBranch (head bb : BasicBlock) : Bool :=
  bb ∉ (lookup loops.nonconditionalLoopBlocks head).getD []

/-- Whether a block is inside of a loop, told from the dominators of the body. -/
def isBlockInLoop (head bb : BasicBlock) : Except (Stop ε) Bool := do
  Stop.assert (body.isReachable bb)
  return body.isDominatedBy bb head

end ProcedureLoops

end Prusti.Mir

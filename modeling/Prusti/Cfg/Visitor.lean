/-
The forward pass over the reachable blocks of a control-flow graph.  A context
is updated along every path, duplicated at forks and merged at joins; the
statements are replaced by a replacer that is given by its callbacks.
-/
import Prusti.Cfg.Method
import Prusti.Lib.Outcome

namespace Prusti.Cfg

open Prusti.Vir Prusti.Lib Prusti.Lib.Stop

/-- The callbacks of a pass with contexts `C` and actions `A`.  They work on a
state of their own and may return an error.  The check of the contexts of a
back edge has no result. -/
structure CfgReplacer (σ ε C A : Type) where
  /-- Is the action a no operation? -/
  isNoop : A → Bool
  initialContext : σ → Except ε (C × σ)
  /-- Replace some statements, mutating the branch context. -/
  replaceStmt : σ → (stmtIndex : Nat) → Stmt → (isLastBeforeReturn : Bool) →
    C → CfgBlockIndex → CfgMethod → (label : Option String) →
    Except ε (List Stmt × C × σ)
  /-- Inject some statements and replace a successor. -/
  replaceSuccessor : σ → Successor → C → Except ε (List Stmt × Successor × C × σ)
  /-- The actions to be performed before the join point, and the merged
  branch context. -/
  prependJoin : σ → List C → Except ε (List A × C × σ)
  /-- Convert actions to statements. -/
  performPrejoinAction : σ → C → CfgBlockIndex → A → Except ε (List Stmt × C × σ)

/-- A visit of a reachable block: the contexts that were joined, none if the
visit began with the initial context, and the context at the end. -/
structure Visit (C : Type) where
  block : Nat
  joined : Option (List C)
  final : C

/-- The variables of the pass.  The log of the visits is only there to speak
about them. -/
structure Pass (σ C : Type) where
  replacer : σ
  newCfg : CfgMethod
  visited : List Bool
  reachable : List Bool
  initialPctxt : List (Option C)
  finalPctxt : List (Option C)
  log : List (Visit C)

/-- What the callbacks and the new graph have become on the way through a
block, with the current context. -/
structure Walk (σ C : Type) where
  replacer : σ
  newCfg : CfgMethod
  pctxt : C

section

variable {σ ε C A : Type} (cb : CfgReplacer σ ε C A) (chars : CharClass) (cfg : CfgMethod)

/-- An update of a table; an index out of bounds is a panic. -/
def setAt {α : Type} (table : List α) (index : Nat) (value : α) : Except (Stop ε) (List α) :=
  if index < table.length then .ok (table.set index value)
  else .error .panic

/-- The context that a table has at an index.  A missing one is a panic. -/
def contextAt (table : List (Option C)) (index : Nat) : Except (Stop ε) C := do
  let context? ← orPanic table[index]?
  orPanic context?

/-- The blocks of the new graph, all of them empty. -/
def initialCfg (uuid : Nat) : Except (Stop ε) CfgMethod :=
  (List.range cfg.basicBlocks.length).foldlM (fun newCfg index => do
      let label ← orPanic cfg.basicBlocksLabels[index]?
      let (_, newCfg) ← orPanic (newCfg.addBlock chars label [])
      pure newCfg)
    (CfgMethod.new uuid cfg.methodName cfg.formalArgCount cfg.formalReturns
      cfg.localVars cfg.getAllLabels)

/-- Set the statements and the successor of an unreachable block. -/
def copyBlock (newCfg : CfgMethod) (currIndex : Nat) (currBlock : CfgBlock) :
    Except (Stop ε) CfgMethod := do
  let newCfg ← orPanic (newCfg.addStmts (newCfg.blockIndex currIndex) currBlock.stmts)
  orPanic (newCfg.setSuccessor (newCfg.blockIndex currIndex)
    (currBlock.successor.replaceUuid newCfg.uuid))

/-- The visited blocks in front of a block, the block itself among them if it
jumps to itself. -/
def incomingEdges (visited : List Bool) (currIndex : Nat) : Except (Stop ε) (List Nat) := do
  let preceding ← orPanic (cfg.getPreceding (cfg.blockIndex currIndex))
  preceding.map (·.blockIndex) |>.foldlM (fun incoming index => do
      let visitedHere ← orPanic visited[index]?
      pure (if visitedHere then incoming ++ [index] else incoming)) []

/-- Perform the action of one incoming edge in a block of its own, which is
put between the two ends of the edge. -/
def prejoinEdge (visited : List Bool) (currIndex : Nat) (walk : Walk σ C)
    (edge : Nat × A) : Except (Stop ε) (Walk σ C) := do
  let visitedSrc ← orPanic visited[edge.1]?
  Stop.assert visitedSrc
  if cb.isNoop edge.2 then pure walk
  else do
    let (newLabel, newCfg) ← orOutOfFuel walk.newCfg.getFreshLabelName
    let (newBlockIndex, newCfg) ← orPanic (newCfg.addBlock chars newLabel
      [.comment ("========== " ++ newLabel ++ " ==========")])
    let (stmtsToAdd, pctxt, replacer) ← callback
      (cb.performPrejoinAction walk.replacer walk.pctxt newBlockIndex edge.2)
    let newCfg ← orPanic (newCfg.addStmts newBlockIndex stmtsToAdd)
    let newCfg ← orPanic (newCfg.setSuccessor newBlockIndex (.goto (newCfg.blockIndex currIndex)))
    let srcBlock ← orPanic newCfg.basicBlocks[edge.1]?
    let successor ← orPanic (srcBlock.successor.replaceTarget
      (newCfg.blockIndex currIndex) newBlockIndex)
    let newCfg ← orPanic (newCfg.setSuccessor (newCfg.blockIndex edge.1) successor)
    pure ⟨replacer, newCfg, pctxt⟩

/-- The context at the beginning of a block, with the contexts joined. -/
def joinIncoming (pass : Pass σ C) (currIndex : Nat) :
    Except (Stop ε) (Option (List C) × Walk σ C) := do
  let incoming ← incomingEdges cfg pass.visited currIndex
  let incomingPctxt ← incoming.mapM (contextAt pass.finalPctxt)
  if incomingPctxt.isEmpty then do
    let (pctxt, replacer) ← callback (cb.initialContext pass.replacer)
    pure (none, ⟨replacer, pass.newCfg, pctxt⟩)
  else do
    let (actions, pctxt, replacer) ← callback (cb.prependJoin pass.replacer incomingPctxt)
    let walk ← (incoming.zip actions).foldlM (prejoinEdge cb chars pass.visited currIndex)
      ⟨replacer, pass.newCfg, pctxt⟩
    pure (some incomingPctxt, walk)

/-- Replace one statement of a block. -/
def replaceStmtAt (currIndex : Nat) (currBlock : CfgBlock) (walk : Walk σ C)
    (item : Stmt × Nat) : Except (Stop ε) (Walk σ C) := do
  let lastStmtBeforeReturn := item.2 == currBlock.stmts.length - 1 && currBlock.successor.isReturn
  let (newStmts, pctxt, replacer) ← callback (cb.replaceStmt walk.replacer
    item.2 item.1 lastStmtBeforeReturn walk.pctxt
    (walk.newCfg.blockIndex currIndex) walk.newCfg none)
  let newCfg ← orPanic (walk.newCfg.addStmts (walk.newCfg.blockIndex currIndex) newStmts)
  pure ⟨replacer, newCfg, pctxt⟩

/-- Replace the successor of a block and check that the structure of the graph
is unchanged. -/
def replaceSuccessorAt (currIndex : Nat) (currBlock : CfgBlock)
    (walk : Walk σ C) : Except (Stop ε) (Walk σ C) := do
  let (newStmts, newSuccessor, pctxt, replacer) ← callback
    (cb.replaceSuccessor walk.replacer currBlock.successor walk.pctxt)
  let newCfg ← orPanic (walk.newCfg.addStmts (walk.newCfg.blockIndex currIndex) newStmts)
  Stop.assert (currBlock.successor.targets == newSuccessor.targets)
  let newCfg ← orPanic (newCfg.setSuccessor (newCfg.blockIndex currIndex)
    (newSuccessor.replaceUuid newCfg.uuid))
  pure ⟨replacer, newCfg, pctxt⟩

/-- A back edge needs the initial context of its target. -/
def checkBackEdge (visited : List Bool) (initialPctxt : List (Option C))
    (index : Nat) : Except (Stop ε) PUnit := do
  let visitedTarget ← orPanic visited[index]?
  if visitedTarget then do
    let _ ← contextAt initialPctxt index
    pure ⟨⟩
  else pure ⟨⟩

/-- The visit of a reachable block. -/
def replaceBlock (pass : Pass σ C) (currIndex : Nat) (currBlock : CfgBlock) :
    Except (Stop ε) (Pass σ C) := do
  let reachable ← currBlock.successor.targets.foldlM
    (fun reachable index => setAt reachable index true) pass.reachable
  let (joined, walk) ← joinIncoming cb chars cfg pass currIndex
  let initialPctxt ← setAt pass.initialPctxt currIndex (some walk.pctxt)
  let walk ← currBlock.stmts.zipIdx.foldlM (replaceStmtAt cb currIndex currBlock) walk
  let walk ← replaceSuccessorAt cb currIndex currBlock walk
  let newBlock ← orPanic walk.newCfg.basicBlocks[currIndex]?
  let _ ← newBlock.successor.targets.foldlM
    (fun (_ : PUnit) index => checkBackEdge pass.visited initialPctxt index) ⟨⟩
  let finalPctxt ← setAt pass.finalPctxt currIndex (some walk.pctxt)
  pure { replacer := walk.replacer, newCfg := walk.newCfg,
         visited := pass.visited, reachable := reachable,
         initialPctxt := initialPctxt, finalPctxt := finalPctxt,
         log := pass.log ++ [⟨currIndex, joined, walk.pctxt⟩] }

/-- One round of the pass. -/
def visitBlock (pass : Pass σ C) (currIndex : Nat) : Except (Stop ε) (Pass σ C) := do
  let visitedBefore ← orPanic pass.visited[currIndex]?
  Stop.assert (!visitedBefore)
  let visited := pass.visited.set currIndex true
  let currBlock ← orPanic cfg.basicBlocks[currIndex]?
  let isReachable ← orPanic pass.reachable[currIndex]?
  if isReachable then
    replaceBlock cb chars cfg { pass with visited := visited } currIndex currBlock
  else do
    let newCfg ← copyBlock pass.newCfg currIndex currBlock
    pure { pass with newCfg := newCfg, visited := visited }

/-- The main method: visit and replace the reachable blocks of a graph. -/
def replaceCfg (replacer : σ) (uuid : Nat) : Except (Stop ε) (Pass σ C) := do
  let newCfg ← initialCfg chars cfg uuid
  let toVisit ← orOutOfFuel cfg.getTopologicalSort
  let blocks := cfg.basicBlocks.length
  let reachable ← setAt (List.replicate blocks false) 0 true
  (toVisit.map (·.blockIndex)).foldlM (visitBlock cb chars cfg)
    { replacer := replacer, newCfg := newCfg,
      visited := List.replicate blocks false, reachable := reachable,
      initialPctxt := List.replicate blocks none,
      finalPctxt := List.replicate blocks none, log := [] }

end

end Prusti.Cfg

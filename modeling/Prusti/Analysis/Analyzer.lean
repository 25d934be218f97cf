/-
The forward analyzer: a work set of blocks whose entry states are recomputed from the
states on their incoming edges until no edge changes.  Assertions that only debug
builds check are left out.
-/
import Mathlib.Data.Finset.Max
import Prusti.Lib.HashMap
import Prusti.Lib.Outcome
import Prusti.Mir.Body

namespace Prusti.Analysis

open Prusti.Lib Prusti.Mir

universe u v

inductive AnalysisError where
  | unsupportedStatement (location : Location)
  | successorWithoutState (location : Location) (successor : BasicBlock)
deriving DecidableEq, Repr

abbrev Outcome (α : Type v) := Except (Stop AnalysisError) α

/-- An abstract domain for one body. -/
structure AbstractState (S : Type v) where
  newBottom : S
  newInitial : S
  needToWiden : Nat → Bool
  join : S → S → S
  widen : S → S → Outcome S
  applyStatementEffect : Location → S → Outcome S
  applyTerminatorEffect : Location → S → Outcome (List (BasicBlock × S))

/-- The state before every location and, for every block, the states on the edges to
its successors. -/
structure PointwiseState (S : Type v) where
  stateBefore : HashMap Location S
  stateAfterBlock : HashMap BasicBlock (HashMap BasicBlock S)

namespace PointwiseState

variable {S : Type v}

def new : PointwiseState S := ⟨HashMap.empty, HashMap.empty⟩

def lookupBefore (pState : PointwiseState S) (location : Location) : Option S :=
  pState.stateBefore.get? location

def lookupAfter (pState : PointwiseState S) (location : Location) : Option S :=
  pState.stateBefore.get? ⟨location.block, location.statementIndex + 1⟩

def lookupAfterBlock (pState : PointwiseState S) (block : BasicBlock) :
    Option (HashMap BasicBlock S) :=
  pState.stateAfterBlock.get? block

def setBefore (pState : PointwiseState S) (location : Location) (state : S) : PointwiseState S :=
  { pState with stateBefore := pState.stateBefore.insert location state }

def setAfterBlock (pState : PointwiseState S) (block : BasicBlock)
    (states : HashMap BasicBlock S) : PointwiseState S :=
  { pState with stateAfterBlock := pState.stateAfterBlock.insert block states }

/-- The recorded state on the edge between two blocks. -/
def lookupEdge (pState : PointwiseState S) (source target : BasicBlock) : Option S :=
  (pState.lookupAfterBlock source).bind fun states => states.get? target

@[simp] theorem lookupBefore_setBefore (pState : PointwiseState S)
    (location location' : Location) (state : S) :
    (pState.setBefore location state).lookupBefore location' =
      if location = location' then some state else pState.lookupBefore location' := by
  rw [lookupBefore, setBefore, HashMap.get?_insert]
  simp only [beq_iff_eq]
  rfl

@[simp] theorem lookupAfterBlock_setBefore (pState : PointwiseState S)
    (location : Location) (state : S) (block : BasicBlock) :
    (pState.setBefore location state).lookupAfterBlock block = pState.lookupAfterBlock block := rfl

@[simp] theorem lookupBefore_setAfterBlock (pState : PointwiseState S)
    (block : BasicBlock) (states : HashMap BasicBlock S) (location : Location) :
    (pState.setAfterBlock block states).lookupBefore location = pState.lookupBefore location := rfl

@[simp] theorem lookupAfterBlock_setAfterBlock (pState : PointwiseState S)
    (block block' : BasicBlock) (states : HashMap BasicBlock S) :
    (pState.setAfterBlock block states).lookupAfterBlock block' =
      if block = block' then some states else pState.lookupAfterBlock block' := by
  rw [lookupAfterBlock, setAfterBlock, HashMap.get?_insert]
  simp only [beq_iff_eq]
  rfl

end PointwiseState

/-- What the main loop changes. -/
structure Iteration (S : Type v) where
  pState : PointwiseState S
  workSet : Finset BasicBlock
  counters : HashMap BasicBlock Nat

/-- What the loop over the successors of a block changes. -/
structure EdgeUpdate (S : Type v) where
  newMap : HashMap BasicBlock S
  mapAfterBlock : HashMap BasicBlock S
  workSet : Finset BasicBlock

section Analyzer

variable {Ty : Type u} {S : Type v} (domain : AbstractState S) (body : Body Ty)

/-- The state a block starts with before its incoming edges are joined. -/
def entryState (bb : BasicBlock) : S :=
  if bb = startBlock then domain.newInitial else domain.newBottom

/-- Join the state of one incoming edge.  A block that is not processed yet has no
effect; one that is must have a state for every successor. -/
def joinIncoming (pState : PointwiseState S) (bb : BasicBlock) (state : S)
    (pred : BasicBlock) : Outcome S :=
  match pState.lookupAfterBlock pred with
  | some states => do
    let incoming ← Stop.orPanic (states.get? bb)
    pure (domain.join state incoming)
  | none => pure state

def stateBeforeBlock (pState : PointwiseState S) (bb : BasicBlock) : Outcome S :=
  (body.predecessors bb).foldlM (joinIncoming domain pState bb) (entryState domain bb)

/-- Widen with the state of the last visit. -/
def widenState (pState : PointwiseState S) (bb : BasicBlock) (counter : Nat) (state : S) :
    Outcome S :=
  if domain.needToWiden counter then do
    let previous ← Stop.orPanic (pState.lookupBefore ⟨bb, 0⟩)
    domain.widen state previous
  else pure state

def applyStatement (bb : BasicBlock) (current : PointwiseState S × S)
    (statementIndex : Nat) : Outcome (PointwiseState S × S) := do
  let location : Location := ⟨bb, statementIndex⟩
  let state ← domain.applyStatementEffect location current.2
  pure (current.1.setBefore location current.2, state)

/-- Enter a state for a successor, joined with the one that is there. -/
def addState (newMap : HashMap BasicBlock S) (next : BasicBlock × S) : HashMap BasicBlock S :=
  match newMap.get? next.1 with
  | some state => newMap.insert next.1 (domain.join state next.2)
  | none => newMap.insert next.1 next.2

/-- Every successor must have a state. -/
def checkSuccessors (bb : BasicBlock) (newMap : HashMap BasicBlock S) : Outcome PUnit.{v + 1} :=
  match (body.successors bb).find? fun next => !newMap.contains next with
  | some next => .error (.error (.successorWithoutState (body.terminatorLoc bb) next))
  | none => pure ⟨⟩

variable [DecidableEq S]

/-- Store the state of an edge, and add its target to the work set if the state
changed. -/
def storeEdge (update : EdgeUpdate S) (next : BasicBlock) : EdgeUpdate S :=
  match update.newMap.get? next with
  | some state =>
    { newMap := update.newMap.erase next
      mapAfterBlock := update.mapAfterBlock.insert next state
      workSet :=
        if update.mapAfterBlock.get? next = some state then update.workSet
        else insert next update.workSet }
  | none => update

/-- One round of the main loop, for a block that is taken from the work set.  A block
that the body does not have is an index out of bounds. -/
def processBlock (iteration : Iteration S) (bb : BasicBlock) : Outcome (Iteration S) := do
  let workSet := iteration.workSet.erase bb
  let _ ← Stop.assert (decide (bb < body.basicBlocks.length))
  let state ← stateBeforeBlock domain body iteration.pState bb
  let counter := (iteration.counters.get? bb).getD 0 + 1
  let state ← widenState domain iteration.pState bb counter state
  let (pState, state) ← (List.range (body.statements bb).length).foldlM
    (applyStatement domain bb) (iteration.pState, state)
  let location := body.terminatorLoc bb
  let pState := pState.setBefore location state
  let nextStates ← domain.applyTerminatorEffect location state
  let newMap := nextStates.foldl (addState domain) HashMap.empty
  let _ ← checkSuccessors body bb newMap
  let update := (body.successors bb).foldl storeEdge
    ⟨newMap, (pState.lookupAfterBlock bb).getD HashMap.empty, workSet⟩
  pure
    { pState := pState.setAfterBlock bb update.mapAfterBlock
      workSet := update.workSet
      counters := iteration.counters.insert bb counter }

/-- The main loop.  The fuel bounds the number of rounds. -/
def iterate : Nat → Iteration S → Outcome (PointwiseState S)
  | 0, iteration =>
    if iteration.workSet.Nonempty then .error .outOfFuel else pure iteration.pState
  | fuel + 1, iteration =>
    if h : iteration.workSet.Nonempty then do
      let iteration ← processBlock domain body iteration (iteration.workSet.min' h)
      iterate fuel iteration
    else pure iteration.pState

def initialIteration : Iteration S := ⟨PointwiseState.new, body.indices.toFinset, HashMap.empty⟩

def runFwdAnalysis (fuel : Nat) : Outcome (PointwiseState S) :=
  iterate domain body fuel (initialIteration body)

end Analyzer

end Prusti.Analysis

/-
The liveness analysis of MIR: which assignments to whole locals may reach a program point,
computed with a queue of single statements, terminators and merges.
-/
import Mathlib.Data.Finset.Insert
import Mathlib.Data.Finset.Filter
import Mathlib.Data.Finset.Lattice.Basic
import Prusti.Lib.HashMap
import Prusti.Mir.Body

namespace Prusti.Analysis

open Prusti.Lib Prusti.Mir

universe u

structure Assignment where
  target : Local
  location : Location
deriving DecidableEq, Repr

abbrev AssignmentSet := Finset Assignment

/-- Remove the assignments to a local and add one. -/
def AssignmentSet.replace (set : AssignmentSet) (root : Local) (location : Location) :
    AssignmentSet :=
  insert (⟨root, location⟩ : Assignment) (set.filter fun assignment => assignment.target ≠ root)

/-- The states before blocks and after statements.  The index behind the last statement
stands for the terminator. -/
structure AnalysisResult (S : Type) where
  beforeBlock : HashMap BasicBlock S
  afterStatement : HashMap Location S

inductive WorkItem where
  | applyStatementEffects (location : Location)
  | applyTerminatorEffects (bb : BasicBlock)
  | mergeEffects (bb : BasicBlock)
deriving DecidableEq, Repr

/-- The queue is a stack, listed from its top. -/
structure LivenessAnalysis where
  result : AnalysisResult AssignmentSet
  queue : List WorkItem

namespace LivenessAnalysis

section Analysis

variable {Ty : Type u} (body : Body Ty)

/-- The locations of a block, with the one of its terminator. -/
def locations (bb : BasicBlock) : List Location :=
  (List.range ((body.statements bb).length + 1)).map fun idx => ⟨bb, idx⟩

/-- All sets are empty at first. -/
def initializeSets : AnalysisResult AssignmentSet where
  beforeBlock := HashMap.ofList (body.indices.map fun bb => (bb, ∅))
  afterStatement :=
    HashMap.ofList ((body.indices.flatMap (locations body)).map fun location => (location, ∅))

/-- The item for a location. -/
def itemAt (location : Location) : WorkItem :=
  if location.statementIndex = (body.statements location.block).length then
    .applyTerminatorEffects location.block
  else .applyStatementEffects location

/-- The queue at first: everything, from the first block on. -/
def propagateWorkQueue : List WorkItem :=
  body.indices.flatMap fun bb => .mergeEffects bb :: (locations body bb).map (itemAt body)

/-- A missing set is a panic. -/
def getSetBeforeStatement (result : AnalysisResult AssignmentSet) (location : Location) :
    Option AssignmentSet :=
  if location.statementIndex = 0 then result.beforeBlock.get? location.block
  else result.afterStatement.get? ⟨location.block, location.statementIndex - 1⟩

def getSetBeforeTerminator (result : AnalysisResult AssignmentSet) (bb : BasicBlock) :
    Option AssignmentSet :=
  if (body.statements bb).length = 0 then result.beforeBlock.get? bb
  else result.afterStatement.get? ⟨bb, (body.statements bb).length - 1⟩

def getSetAfterBlock (result : AnalysisResult AssignmentSet) (bb : BasicBlock) :
    Option AssignmentSet :=
  result.afterStatement.get? ⟨bb, (body.statements bb).length⟩

/-- Only assignments to whole locals count. -/
def replaceInSet (set : AssignmentSet) (place : Place Ty) (location : Location) : AssignmentSet :=
  match place.asLocal with
  | some root => set.replace root location
  | none => set

def statementEffect (statement : StatementKind Ty) (location : Location)
    (set : AssignmentSet) : AssignmentSet :=
  match statement with
  | .assign target _ => replaceInSet set target location
  | _ => set

def terminatorEffect (kind : TerminatorKind Ty) (location : Location) (set : AssignmentSet) :
    AssignmentSet :=
  match kind with
  | .call _ _ (some (place, _)) _ => replaceInSet set place location
  | _ => set

/-- Store the set after a location.  If it changed, what follows is queued. -/
def updateSetAfterStatement (analysis : LivenessAnalysis) (location : Location)
    (set : AssignmentSet) : Option LivenessAnalysis := do
  let oldSet ← analysis.result.afterStatement.get? location
  if oldSet = set then return analysis
  let result := { analysis.result with
    afterStatement := analysis.result.afterStatement.insert location set }
  let count := (body.statements location.block).length
  if location.statementIndex + 1 = count then
    return ⟨result, .applyTerminatorEffects location.block :: analysis.queue⟩
  else if location.statementIndex = count then
    return ⟨result, (body.successors location.block).foldl
      (fun queue successor => .mergeEffects successor :: queue) analysis.queue⟩
  else
    return ⟨result, .applyStatementEffects ⟨location.block, location.statementIndex + 1⟩ ::
      analysis.queue⟩

def applyStatementEffects (analysis : LivenessAnalysis) (location : Location) :
    Option LivenessAnalysis :=
  match (body.statements location.block)[location.statementIndex]? with
  | some statement => do
    let set ← getSetBeforeStatement analysis.result location
    updateSetAfterStatement body analysis location (statementEffect statement location set)
  | none => none

/-- One set is kept for all edges of the terminator. -/
def applyTerminatorEffects (analysis : LivenessAnalysis) (bb : BasicBlock) :
    Option LivenessAnalysis :=
  match body.terminator? bb with
  | some kind => do
    let location := body.terminatorLoc bb
    let set ← getSetBeforeTerminator body analysis.result bb
    updateSetAfterStatement body analysis location (terminatorEffect kind location set)
  | none => none

/-- Merge the sets of the predecessors.  If the set before the block changed, its first
statement is queued. -/
def mergeEffects (analysis : LivenessAnalysis) (bb : BasicBlock) : Option LivenessAnalysis := do
  if body.predecessors bb = [] then return analysis
  let sets ← (body.predecessors bb).mapM (getSetAfterBlock body analysis.result)
  let set := sets.foldl (· ∪ ·) ∅
  let oldSet ← analysis.result.beforeBlock.get? bb
  if oldSet = set then return analysis
  let result := { analysis.result with
    beforeBlock := analysis.result.beforeBlock.insert bb set }
  if (body.statements bb).length = 0 then
    return ⟨result, .applyTerminatorEffects bb :: analysis.queue⟩
  else
    return ⟨result, .applyStatementEffects ⟨bb, 0⟩ :: analysis.queue⟩

def applyItem (analysis : LivenessAnalysis) : WorkItem → Option LivenessAnalysis
  | .applyStatementEffects location => applyStatementEffects body analysis location
  | .applyTerminatorEffects bb => applyTerminatorEffects body analysis bb
  | .mergeEffects bb => mergeEffects body analysis bb

/-- Work until the queue is empty.  The rounds are counted, and too many are a panic. -/
def run : Nat → LivenessAnalysis → Option LivenessAnalysis
  | 0, analysis => if analysis.queue = [] then some analysis else none
  | rounds + 1, analysis =>
    match analysis.queue with
    | [] => some analysis
    | item :: queue => do
      let analysis ← applyItem body { analysis with queue := queue } item
      run rounds analysis

/-- The counter that is checked before each round starts at zero. -/
def maxCounter : Nat := 1000000

end Analysis

end LivenessAnalysis

open LivenessAnalysis in
def computeLiveness {Ty : Type u} (body : Body Ty) : Option (AnalysisResult AssignmentSet) :=
  (run body (maxCounter + 1) ⟨initializeSets body, propagateWorkQueue body⟩).map
    LivenessAnalysis.result

end Prusti.Analysis

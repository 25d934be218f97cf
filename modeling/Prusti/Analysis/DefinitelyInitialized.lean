/-
The abstract domain of the places that are definitely initialized.  The smaller the
set, the higher it is in the lattice.
-/
import Mathlib.Data.Finset.Union
import Prusti.Analysis.Analyzer
import Prusti.Analysis.PlaceUtils

namespace Prusti.Analysis

open Prusti.Lib Prusti.Mir

universe u

variable {Ty : Type u} [DecidableEq Ty] (tcx : TyCtxt Ty) (body : Body Ty)

abbrev DefInitPlaces (Ty : Type u) [DecidableEq Ty] := Finset (Place Ty)

namespace DefinitelyInitializedState

/-- The top element of the lattice contains no places. -/
def newTop : DefInitPlaces Ty := ∅

/-- The bottom element of the lattice contains all places: all locals, with everything
below them. -/
def newBottom : DefInitPlaces Ty := body.locals.toFinset.image Place.ofLocal

def newInitial : DefInitPlaces Ty := body.argsIter.toFinset.image Place.ofLocal

/-- Set a place as definitely initialized.  A place that is added replaces the places
below it, and completes the places above it. -/
def setPlaceInitialised (places : DefInitPlaces Ty) (place : Place Ty) :
    Option (DefInitPlaces Ty) :=
  if ∃ current ∈ places, isPrefix place current then some places
  else
    collapse tcx body (insert place (places.filter fun current => !isPrefix current place)) place

/-- What is left of a place when another one is uninitialised. -/
def remainingPlaces (place oldPlace : Place Ty) : Option (DefInitPlaces Ty) :=
  if isPrefix place oldPlace then (expand tcx body oldPlace place).map List.toFinset
  else if isPrefix oldPlace place then some ∅
  else some {oldPlace}

/-- Set a place as possibly uninitialized, and check that it is properly removed. -/
def setPlaceUninitialised (oldPlaces : DefInitPlaces Ty) (place : Place Ty) :
    Option (DefInitPlaces Ty) :=
  if ∃ oldPlace ∈ oldPlaces, remainingPlaces tcx body place oldPlace = none then none
  else
    let places := oldPlaces.biUnion fun oldPlace =>
      (remainingPlaces tcx body place oldPlace).getD ∅
    if ∀ place1 ∈ places, !isPrefix place1 place && !isPrefix place place1 then some places
    else none

/-- The lattice join intersects the two place sets. -/
def join (left right : DefInitPlaces Ty) : DefInitPlaces Ty :=
  (left.filter fun place => ∃ potentialPrefix ∈ right, isPrefix place potentialPrefix) ∪
    right.filter fun place => ∃ potentialPrefix ∈ left, isPrefix place potentialPrefix

/-- A move makes its place uninitialised. -/
def applyOperandEffect (places : DefInitPlaces Ty) : Operand Ty → Option (DefInitPlaces Ty)
  | .move place => setPlaceUninitialised tcx body places place
  | .copy _ | .constant => some places

def applyRvalueEffect (places : DefInitPlaces Ty) : Rvalue Ty → Option (DefInitPlaces Ty)
  | .repeat operand | .cast operand | .unaryOp operand | .use operand =>
    applyOperandEffect tcx body places operand
  | .binaryOp operand1 operand2 | .checkedBinaryOp operand1 operand2 => do
    let places ← applyOperandEffect tcx body places operand1
    applyOperandEffect tcx body places operand2
  | .aggregate operands => operands.foldlM (applyOperandEffect tcx body) places
  | _ => some places

def applyStatementKind (places : DefInitPlaces Ty) : StatementKind Ty → Option (DefInitPlaces Ty)
  | .assign target source => do
    let places ← applyRvalueEffect tcx body places source
    setPlaceInitialised tcx body places target
  | _ => some places

def applyStatementEffect (location : Location) (places : DefInitPlaces Ty) :
    Outcome (DefInitPlaces Ty) := do
  match (body.statements location.block)[location.statementIndex]? with
  | some statement => Stop.orPanic (applyStatementKind tcx body places statement)
  | none => .error .panic

/-- Of an error edge nothing is known. -/
def errorState (target : Option BasicBlock) : List (BasicBlock × DefInitPlaces Ty) :=
  target.toList.map fun bb => (bb, newTop)

/-- The states for the successors of a terminator other than inline assembly. -/
def applyTerminatorKind (places : DefInitPlaces Ty) :
    TerminatorKind Ty → Option (List (BasicBlock × DefInitPlaces Ty))
  | .switchInt discr targets => do
    let newState ← applyOperandEffect tcx body places discr
    some (targets.map fun bb => (bb, newState))
  | .drop place target unwind => do
    let newState ← setPlaceUninitialised tcx body places place
    some ((target, newState) :: errorState unwind)
  | .dropAndReplace place value target unwind => do
    let newState ← setPlaceUninitialised tcx body places place
    let newState ← applyOperandEffect tcx body newState value
    let newState ← setPlaceInitialised tcx body newState place
    some ((target, newState) :: errorState unwind)
  | .call func args destination cleanup => do
    let newState ← args.foldlM (applyOperandEffect tcx body) places
    let newState ← applyOperandEffect tcx body newState func
    match destination with
    | some (place, bb) => do
      let newState ← setPlaceInitialised tcx body newState place
      some ((bb, newState) :: errorState cleanup)
    | none => some (errorState cleanup)
  | .assert cond target cleanup => do
    let newState ← applyOperandEffect tcx body places cond
    some ((target, newState) :: errorState cleanup)
  | .yield value resume _ drop => do
    let newState ← applyOperandEffect tcx body places value
    some ((resume, newState) :: errorState drop)
  | kind => some (kind.successors.map fun bb => (bb, places))

def applyTerminatorEffect (location : Location) (places : DefInitPlaces Ty) :
    Outcome (List (BasicBlock × DefInitPlaces Ty)) :=
  match body.terminator? location.block with
  | some (.inlineAsm _) => .error (.error (.unsupportedStatement location))
  | some kind => Stop.orPanic (applyTerminatorKind tcx body places kind)
  | none => .error .panic

/-- The domain never widens, and cannot. -/
def abstractState : AbstractState (DefInitPlaces Ty) where
  newBottom := newBottom body
  newInitial := newInitial body
  needToWiden := fun _ => false
  join := join
  widen := fun _ _ => .error .panic
  applyStatementEffect := applyStatementEffect tcx body
  applyTerminatorEffect := applyTerminatorEffect tcx body

end DefinitelyInitializedState

end Prusti.Analysis

/-
The reborrowing DAG of the loans that die at a location: the loans are sorted
topologically, and every node says how its loan is restored.
-/
import Prusti.Borrowck.Facts
import Prusti.Lib.HashMap
import Prusti.Lib.Outcome
import Prusti.Mir.Body

namespace Prusti.Borrowck

open Prusti.Lib Prusti.Mir

universe u v

structure LoopMagicWand where
  loopId : BasicBlock
  «variable» : Local
  region : Region
  rootLoan : Loan
deriving DecidableEq, Repr

inductive ReborrowingKind where
  | assignment (loan : Loan)
  | argumentMove (loan : Loan)
  | call (loan : Loan) («variable» : Local) (region : Region)
  | loop (magicWand : LoopMagicWand)
deriving DecidableEq, Repr

inductive ReborrowingZombity where
  | real
  | zombie (location : Location)
deriving DecidableEq, Repr

structure ReborrowingDAGNode where
  loan : Loan
  kind : ReborrowingKind
  zombity : ReborrowingZombity
  incomingZombies : Bool
  reborrowingLoans : List Loan
  reborrowedLoans : List Loan
deriving DecidableEq, Repr

structure ReborrowingDAG where
  nodes : List ReborrowingDAGNode
deriving DecidableEq, Repr

def ReborrowingDAG.loans (dag : ReborrowingDAG) : List Loan := dag.nodes.map ReborrowingDAGNode.loan

inductive PoloniusInfoError where
  | loansInNestedLoops (location1 : Location) (loop1 : BasicBlock) (location2 : Location)
      (loop2 : BasicBlock)
  | reborrowingDagHasNoMagicWands (location : Location)
  | multipleMagicWandsPerLoop (location : Location)
deriving DecidableEq, Repr

abbrev Outcome (α : Type v) := Except (Stop PoloniusInfoError) α

/-- What the borrow checker and the earlier steps know about a body. -/
structure PoloniusFacts (Ty : Type u) where
  mir : Body Ty
  placeholder : List (Region × Loan)
  borrowRegion : List (Region × Loan × PointIndex)
  restricts : List (PointIndex × Region × Loan)
  incompatibleLoans : List (List Loan)
  pointLocation : PointIndex → Location
  callMagicWands : HashMap Loan Local
  placeRegions : HashMap Local Region
  enclosingLoopHeads : HashMap BasicBlock (List BasicBlock)
  referenceMoves : List Loan
  argumentMoves : List Loan

structure PoloniusInfo (Ty : Type u) where
  mir : Body Ty
  placeholder : List (Region × Loan)
  loanPosition : HashMap Loan Location
  callMagicWands : HashMap Loan Local
  placeRegions : HashMap Local Region
  additionalFacts : AdditionalFacts
  loopMagicWands : HashMap BasicBlock (List LoopMagicWand)
  enclosingLoopHeads : HashMap BasicBlock (List BasicBlock)
  referenceMoves : List Loan
  argumentMoves : List Loan

/-- The computation of the magic wands of loops is disabled, so there are none. -/
def PoloniusInfo.new {Ty : Type u} (facts : PoloniusFacts Ty) : PoloniusInfo Ty where
  mir := facts.mir
  placeholder := facts.placeholder
  loanPosition := HashMap.ofList (facts.borrowRegion.map fun borrowed =>
    (borrowed.2.1, facts.pointLocation borrowed.2.2))
  callMagicWands := facts.callMagicWands
  placeRegions := facts.placeRegions
  additionalFacts :=
    AdditionalFacts.new facts.restricts facts.borrowRegion facts.incompatibleLoans
  loopMagicWands := HashMap.empty
  enclosingLoopHeads := facts.enclosingLoopHeads
  referenceMoves := facts.referenceMoves
  argumentMoves := facts.argumentMoves

namespace PoloniusInfo

variable {Ty : Type u} (info : PoloniusInfo Ty)

/-- The innermost loop around a block. -/
def getLoopHead (bb : BasicBlock) : Option BasicBlock :=
  (info.enclosingLoopHeads.get? bb).bind List.getLast?

/-- The loops in which loans are made.  There may be one only. -/
def getLoanLoops (loans : List Loan) : Outcome (List (Loan × BasicBlock)) := do
  let pairs := loans.filterMap fun loan => do
    let loanLocation ← info.loanPosition.get? loan
    let loopHead ← info.getLoopHead loanLocation.block
    return (loan, loopHead)
  let _ ← pairs.forM fun (loan1, loop1) => do
    let location1 ← Stop.orPanic (info.loanPosition.get? loan1)
    pairs.forM fun (loan2, loop2) => do
      let location2 ← Stop.orPanic (info.loanPosition.get? loan2)
      if loop1 ≠ loop2 then
        throw (.error (.loansInNestedLoops location1 loop1 location2 loop2))
  return pairs

/-- The loans that are no placeholders.  Out of the loans that are made in the loops that
the location is not in, only the root of the magic wand is kept. -/
def selectLoans (loans : List Loan) (location : Location) : Outcome (List Loan × Option Loan) := do
  let loans := loans.filter fun loan => info.placeholder.all fun entry => entry.2 ≠ loan
  match info.getLoopHead location.block with
  | some _ => return (loans, none)
  | none =>
    let loanLoops ← info.getLoanLoops loans
    match loanLoops with
    | [] => return (loans, none)
    | (_, loopHead) :: _ =>
      if info.loopMagicWands.entries = [] then
        throw (.error (.reborrowingDagHasNoMagicWands location))
      let loopMagicWands ← Stop.orPanic (info.loopMagicWands.get? loopHead)
      match loopMagicWands with
      | [magicWand] =>
        let representativeLoan := some magicWand.rootLoan
        return (loans.filter fun loan => !loanLoops.any fun (loopLoan, _) =>
          loopLoan = loan && some loan ≠ representativeLoan, representativeLoan)
      | _ => throw (.error (.multipleMagicWandsPerLoop location))

/-- Whether the sort goes on from a loan to another one.  The root of the loop may have no
direct reborrows, because of the cycles. -/
def visits (representativeLoan : Option Loan) (reborrowsDirect : Finset (Loan × Loan))
    (currentLoan loan : Loan) : Bool :=
  if some currentLoan = representativeLoan then
    loan ≠ currentLoan && (currentLoan, loan) ∈ info.additionalFacts.reborrows
  else if some loan = representativeLoan then
    (currentLoan, loan) ∈ info.additionalFacts.reborrows
  else (currentLoan, loan) ∈ reborrowsDirect

end PoloniusInfo

/-- What the topological sort changes. -/
structure Sorting where
  sortedLoans : List Loan
  permanentMark : List Bool
  temporaryMark : List Bool
deriving DecidableEq, Repr

namespace Sorting

/-- The visit of the loan at an index.  The fuel bounds the depth of the recursion. -/
def visit (visits : Loan → Loan → Bool) (loans : List Loan) : Nat → Nat → Sorting → Outcome Sorting
  | 0, _, _ => .error .outOfFuel
  | fuel + 1, current, sorting => do
    let permanent ← Stop.orPanic sorting.permanentMark[current]?
    if permanent then return sorting
    let temporary ← Stop.orPanic sorting.temporaryMark[current]?
    let _ ← Stop.assert (!temporary)
    let sorting := { sorting with temporaryMark := sorting.temporaryMark.set current true }
    let currentLoan ← Stop.orPanic loans[current]?
    let sorting ← loans.zipIdx.foldlM (fun sorting (loan, newCurrent) =>
      if visits currentLoan loan then visit visits loans fuel newCurrent sorting
      else return sorting) sorting
    return { sorting with
      permanentMark := sorting.permanentMark.set current true
      sortedLoans := sorting.sortedLoans ++ [currentLoan] }

/-- Visit the first loan without a permanent mark until all have one. -/
def visitAll (visits : Loan → Loan → Bool) (loans : List Loan) : Nat → Sorting → Outcome Sorting
  | 0, _ => .error .outOfFuel
  | fuel + 1, sorting =>
    match sorting.permanentMark.findIdx? (! ·) with
    | some index => do
      let sorting ← visit visits loans (loans.length + 1) index sorting
      visitAll visits loans fuel sorting
    | none => return sorting

end Sorting

namespace PoloniusInfo

variable {Ty : Type u} (info : PoloniusInfo Ty)

/-- The loans in topological order.  The fuel suffices, as every visit marks a loan. -/
def sortLoans (representativeLoan : Option Loan) (reborrowsDirect : Finset (Loan × Loan))
    (loans : List Loan) : Outcome (List Loan) := do
  let unmarked := List.replicate loans.length false
  let sorting ← Sorting.visitAll (info.visits representativeLoan reborrowsDirect) loans
    (loans.length + 1) ⟨[], unmarked, unmarked⟩
  return sorting.sortedLoans.reverse

def constructReborrowingKind (loan : Loan) (representativeLoan : Option Loan) :
    Outcome ReborrowingKind :=
  match info.callMagicWands.get? loan with
  | some target => do
    let region ← Stop.orPanic (info.placeRegions.get? target)
    return .call loan target region
  | none =>
    if loan ∈ info.argumentMoves then return .argumentMove loan
    else if some loan = representativeLoan then do
      let magicWands := info.loopMagicWands.entries.flatMap Prod.snd
      let magicWand ← Stop.orPanic (magicWands.find? fun magicWand =>
        magicWand.rootLoan = loan)
      return .loop magicWand
    else return .assignment loan

/-- The source of a moved reference is a zombie. -/
def constructReborrowingZombity (loan : Loan) (zombieLoans : List Loan) :
    Outcome ReborrowingZombity :=
  if loan ∈ zombieLoans ∨ loan ∈ info.referenceMoves then do
    let location ← Stop.orPanic (info.loanPosition.get? loan)
    return .zombie location
  else return .real

/-- The loans that no other one of the list reborrows. -/
def findLoanRoots (loans : List Loan) : List Loan :=
  loans.filter fun loan => !loans.any fun otherLoan =>
    (otherLoan, loan) ∈ info.additionalFacts.reborrows

/-- Whether there is a call at a location.  The block must exist. -/
def isCall (location : Location) : Outcome Bool :=
  match info.mir.basicBlocks[location.block]? with
  | some data =>
    if data.statements.length ≠ location.statementIndex then return false
    else match data.terminator with
      | .call _ _ _ _ => return true
      | _ => return false
  | none => .error .panic

def checkIncomingZombies (loan : Loan) (loans zombieLoans : List Loan) (location : Location) :
    Outcome Bool := do
  let incoming := loans.filter fun incomingLoan =>
    (incomingLoan, loan) ∈ info.additionalFacts.reborrowsDirect
  let incomingLoans := incoming.map fun incomingLoan => decide (incomingLoan ∈ zombieLoans ∨
    incomingLoan ∈ info.referenceMoves ∨ incomingLoan ∈ info.argumentMoves)
  let hasIncomingCall := incoming.any info.callMagicWands.contains
  let isCall ← info.isCall location
  let rootDieAtCall := isCall && loan ∈ info.findLoanRoots loans
  if rootDieAtCall || hasIncomingCall then return true
  else if incomingLoans ≠ [] then
    let incomingZombies := incomingLoans.any id
    let _ ← Stop.assert (incomingZombies == incomingLoans.all id)
    return incomingZombies
  else return false

def constructNode (representativeLoan : Option Loan) (loans zombieLoans : List Loan)
    (location : Location) (sortedLoans : List Loan) (loan : Loan) :
    Outcome ReborrowingDAGNode := do
  let reborrowingLoans := sortedLoans.filter fun other =>
    (other, loan) ∈ info.additionalFacts.reborrowsDirect
  let reborrowedLoans := sortedLoans.filter fun other =>
    (loan, other) ∈ info.additionalFacts.reborrowsDirect
  let kind ← info.constructReborrowingKind loan representativeLoan
  let zombity ← info.constructReborrowingZombity loan zombieLoans
  let incomingZombies ← info.checkIncomingZombies loan loans zombieLoans location
  return { loan, kind, zombity, incomingZombies, reborrowingLoans, reborrowedLoans }

def constructReborrowingDagCustomReborrows (loans zombieLoans : List Loan)
    (location : Location) (reborrowsDirect : Finset (Loan × Loan)) :
    Outcome ReborrowingDAG := do
  let (loans, representativeLoan) ← info.selectLoans loans location
  let sortedLoans ← info.sortLoans representativeLoan reborrowsDirect loans
  let nodes ← sortedLoans.mapM
    (info.constructNode representativeLoan loans zombieLoans location sortedLoans)
  return ⟨nodes⟩

/-- The loans include the zombie loans. -/
def constructReborrowingDag (loans zombieLoans : List Loan) (location : Location) :
    Outcome ReborrowingDAG :=
  info.constructReborrowingDagCustomReborrows loans zombieLoans location
    info.additionalFacts.reborrowsDirect

end PoloniusInfo

end Prusti.Borrowck

/-
The encoding of the blocks of a procedure: every block outside of loops is encoded once,
and the body of a loop is cut at the loop invariant and partly encoded twice.
-/
import Prusti.Mir.Loops

namespace Prusti.Encoder.Procedures

open Prusti.Lib Prusti.Mir

universe u

/-- What a block of the encoding is made for, in place of its label. -/
inductive BlockOrigin where
  | start
  | «return»
  | copy (bb : BasicBlock)
  | edge (source destination : BasicBlock)
  | loopStart (loopHead : BasicBlock)
  | invPre (loopHead : BasicBlock)
  | invPost (loopHead : BasicBlock)
  | endBody (loopHead : BasicBlock) (invPostBlock : Nat)
deriving DecidableEq, Repr

/-- The guards of a switch are left out. -/
inductive Successor where
  | undefined
  | «return»
  | goto (target : Nat)
  | gotoSwitch (guardedTargets : List Nat) (defaultTarget : Nat)
deriving DecidableEq, Repr

structure CfgBlock where
  origin : BlockOrigin
  successor : Successor
deriving DecidableEq, Repr

structure CfgMethod where
  basicBlocks : List CfgBlock
deriving DecidableEq, Repr

def Successor.targets : Successor → List Nat
  | .undefined | .return => []
  | .goto target => [target]
  | .gotoSwitch guardedTargets defaultTarget => guardedTargets ++ [defaultTarget]

namespace CfgMethod

/-- A new block has no successor yet. -/
def addBlock (method : CfgMethod) (origin : BlockOrigin) : CfgMethod × Nat :=
  (⟨method.basicBlocks ++ [⟨origin, .undefined⟩]⟩, method.basicBlocks.length)

def setSuccessor (method : CfgMethod) (index : Nat) (successor : Successor) : CfgMethod :=
  ⟨method.basicBlocks.modify index fun block => { block with successor := successor }⟩

/-- The blocks that a block jumps to. -/
def following (method : CfgMethod) (index : Nat) : List Nat :=
  match method.basicBlocks[index]? with
  | some block => block.successor.targets
  | none => []

end CfgMethod

inductive MirSuccessor where
  | «return»
  /-- A dead path. -/
  | kill
  | goto (target : BasicBlock)
  | gotoSwitch (guardedTargets : List BasicBlock) (defaultTarget : BasicBlock)
deriving DecidableEq, Repr

/-- The default target comes first. -/
def MirSuccessor.targets : MirSuccessor → List BasicBlock
  | .return | .kill => []
  | .goto target => [target]
  | .gotoSwitch guardedTargets defaultTarget => defaultTarget :: guardedTargets

/-- The error of the encoder about a loop, by its head. -/
inductive LoopEncoderError where
  | loopInvariantInBranch (loopHead : BasicBlock)
deriving DecidableEq, Repr

def MirSuccessor.encode (returnBlock : Nat) (resolveTarget : BasicBlock → Option Nat) :
    MirSuccessor → Except (Stop LoopEncoderError) Successor
  | .return => .ok (.goto returnBlock)
  | .kill => .ok .return
  | .goto bbi => do return .goto (← Stop.orPanic (resolveTarget bbi))
  | .gotoSwitch conditionalTargets defaultBbi => do
    let guardedTargets ← conditionalTargets.mapM fun bbi => Stop.orPanic (resolveTarget bbi)
    return .gotoSwitch guardedTargets (← Stop.orPanic (resolveTarget defaultBbi))

/-- A procedure, with what the encoding of its statements decides. -/
structure Procedure (Ty : Type u) where
  body : Body Ty
  /-- The blocks that only type-check specifications. -/
  specBasicBlocks : List BasicBlock
  /-- Whether the switch of a block is over a boolean, and the span of its conditional
  target after the one of its default target. -/
  reorders : BasicBlock → Bool
  /-- Whether borrows expire on an edge. -/
  expires : BasicBlock → BasicBlock → Bool

namespace Procedure

variable {Ty : Type u} (procedure : Procedure Ty)

def isSpecBlock (bbi : BasicBlock) : Bool := bbi ∈ procedure.specBasicBlocks

def isReachableBlock (bbi : BasicBlock) : Bool := bbi ∈ procedure.body.reachableBasicBlocks

/-- The blocks of a list that are encoded. -/
def encodedBlocks (blocks : List BasicBlock) : List BasicBlock :=
  blocks.filter fun bbi => procedure.isReachableBlock bbi && !procedure.isSpecBlock bbi

def isUnreachableTerminator (bbi : BasicBlock) : Bool :=
  match procedure.body.terminator? bbi with
  | some .unreachable => true
  | _ => false

/-- The last target of a switch is its default.  It is ignored when it is unreachable or
only type-checks a loop invariant, and the last conditional target takes its place. -/
def encodeSwitch (bbi : BasicBlock) (guardedTargets : List BasicBlock)
    (defaultTarget : BasicBlock) : Option MirSuccessor :=
  if procedure.isUnreachableTerminator defaultTarget || procedure.isSpecBlock defaultTarget then
    guardedTargets.getLast?.map (.gotoSwitch guardedTargets.dropLast)
  else
    match guardedTargets with
    | [target] =>
      if procedure.reorders bbi then some (.gotoSwitch [defaultTarget] target)
      else some (.gotoSwitch [target] defaultTarget)
    | _ => some (.gotoSwitch guardedTargets defaultTarget)

/-- The terminators that the encoder does not implement are panics. -/
def encodeTerminator (bbi : BasicBlock) : TerminatorKind Ty → Option MirSuccessor
  | .return => some .return
  | .goto target => some (.goto target)
  | .switchInt _ targets => do procedure.encodeSwitch bbi targets.dropLast (← targets.getLast?)
  | .unreachable | .abort => some .kill
  | .drop _ target _ => some (.goto target)
  | .falseEdge realTarget _ => some (.goto realTarget)
  | .falseUnwind realTarget _ => some (.goto realTarget)
  | .dropAndReplace _ _ target _ => some (.goto target)
  | .call _ _ destination _ =>
    match destination with
    | some (_, target) => some (.goto target)
    | none => some .kill
  | .assert _ target _ => some (.goto target)
  | .resume | .yield _ _ _ _ | .generatorDrop | .inlineAsm _ => none

def encodeBlockTerminator (bbi : BasicBlock) : Option MirSuccessor :=
  (procedure.body.terminator? bbi).bind (procedure.encodeTerminator bbi)

/-- The block at whose end the loop invariant holds: the one before the code that
type-checks the invariant, or the first block that decides whether the loop is left. -/
def getLoopInvariantBlock (loops : ProcedureLoops) (loopHead : BasicBlock) :
    Except LoopEncoderError BasicBlock :=
  let loopBody := (loops.getLoopBody loopHead).filter fun bb => !procedure.isSpecBlock bb
  let beforeInvariantBlock :=
    (loopBody.find? fun bb =>
      loops.getLoopDepth bb = loops.loopHeadDepth loopHead &&
        (procedure.body.successors bb).any fun succBb =>
          procedure.isReachableBlock succBb && procedure.isSpecBlock succBb).getD
      ((loops.getLoopExitBlocks loopHead).head?.getD loopHead)
  if loops.isConditionalBranch loopHead beforeInvariantBlock then
    .error (.loopInvariantInBranch loopHead)
  else .ok beforeInvariantBlock

end Procedure

/-- The encoder of a procedure.  The blocks of the loop invariants are computed before the
blocks are encoded. -/
structure ProcedureEncoder (Ty : Type u) where
  procedure : Procedure Ty
  loops : ProcedureLoops
  cachedLoopInvariantBlock : List (BasicBlock × BasicBlock)

/-- The positions of the blocks that are added first. -/
def startCfgBlock : Nat := 0

def returnCfgBlock : Nat := 1

/-- The method with the edges that are still to be resolved: from a block of the method to
a block of the body. -/
structure GroupState where
  method : CfgMethod
  bbMap : HashMap BasicBlock Nat
  unresolvedEdges : List (Nat × BasicBlock)

/-- The result of an encoding: the method, the first block of the encoding, and the
unresolved edges. -/
structure Encoded (Head : Type) where
  method : CfgMethod
  head : Head
  unresolvedEdges : List (Nat × BasicBlock)

/-- The body of a loop, split into the evaluation of the guard and what is before and after
the invariant. -/
structure LoopParts where
  beforeInvariantBlock : BasicBlock
  loopGuardEvaluation : List BasicBlock
  loopBodyBeforeInv : List BasicBlock
  loopBodyAfterInv : List BasicBlock
  afterGuardBlock : BasicBlock
  afterInvBlock : BasicBlock
deriving DecidableEq, Repr

/-- Resolve the edges whose target is known.  The other ones stay unresolved. -/
def encodeUnresolvedEdges (resolver : BasicBlock → Option Nat) :
    CfgMethod → List (Nat × BasicBlock) → CfgMethod × List (Nat × BasicBlock)
  | method, [] => (method, [])
  | method, (currBlock, target) :: edges =>
    match resolver target with
    | some targetBlock =>
      encodeUnresolvedEdges resolver (method.setSuccessor currBlock (.goto targetBlock)) edges
    | none =>
      let (method, stillUnresolved) := encodeUnresolvedEdges resolver method edges
      (method, (currBlock, target) :: stillUnresolved)

/-- Edges are resolved to a fixed target only. -/
def resolveOnly (target : BasicBlock) (targetBlock : Nat) (bb : BasicBlock) : Option Nat :=
  if bb = target then some targetBlock else none

/-- The first head from a position on. -/
def followingBlock (heads : List (Option Nat)) (position : Nat) :
    Except (Stop LoopEncoderError) Nat :=
  Stop.orPanic ((heads.drop position).find? Option.isSome).join

namespace ProcedureEncoder

variable {Ty : Type u} (encoder : ProcedureEncoder Ty)

def getReachableNonspecCfgBlocks : List BasicBlock :=
  encoder.procedure.encodedBlocks encoder.loops.orderedBlocks

/-- The blocks of a loop that are encoded. -/
def loopBody (loopHead : BasicBlock) : List BasicBlock :=
  encoder.procedure.encodedBlocks (encoder.loops.getLoopBody loopHead)

/-- A block on the edge is forced if there are several, and needed if borrows expire. -/
def encodeEdgeBlock (source : BasicBlock) (forceBlock : Bool)
    (state : CfgMethod × HashMap BasicBlock Nat × Bool) (destination : BasicBlock) :
    CfgMethod × HashMap BasicBlock Nat × Bool :=
  if forceBlock || encoder.procedure.expires source destination then
    let (method, edgeBlock) := state.1.addBlock (.edge source destination)
    (method, state.2.1.insert destination edgeBlock, state.2.2)
  else (state.1, state.2.1, false)

def encodeBlock (method : CfgMethod) (bbi : BasicBlock) :
    Except (Stop LoopEncoderError) (Encoded Nat) := do
  Stop.assert !encoder.procedure.isSpecBlock bbi
  let (method, currBlock) := method.addBlock (.copy bbi)
  let mirSuccessor ← Stop.orPanic (encoder.procedure.encodeBlockTerminator bbi)
  let mirTargets := mirSuccessor.targets
  let (method, targetsMap, completeResolution) :=
    mirTargets.foldl (encoder.encodeEdgeBlock bbi (1 < mirTargets.length))
      (method, HashMap.empty, true)
  if completeResolution then
    let currSuccessor ← mirSuccessor.encode returnCfgBlock targetsMap.get?
    return ⟨method.setSuccessor currBlock currSuccessor, currBlock,
      targetsMap.entries.map Prod.swap⟩
  else
    match mirSuccessor with
    | .goto target => return ⟨method, currBlock, [(currBlock, target)]⟩
    | .gotoSwitch guardedTargets defaultTarget =>
      Stop.assert guardedTargets.isEmpty
      return ⟨method, currBlock, [(currBlock, defaultTarget)]⟩
    | _ => .error .panic

section Group

variable (encodeLoop : CfgMethod → BasicBlock → Except (Stop LoopEncoderError) (Encoded Nat))

/-- Add the encoding of a block or of a nested loop to a group. -/
def addToGroup (state : GroupState) (currBb : BasicBlock) (encoded : Encoded Nat) : GroupState :=
  ⟨encoded.method, state.bbMap.insert currBb encoded.head,
    state.unresolvedEdges ++ encoded.unresolvedEdges⟩

/-- A nested loop is encoded at its head, and its other blocks are skipped. -/
def encodeGroupBlock (groupLoopDepth : Nat) (state : GroupState) (currBb : BasicBlock) :
    Except (Stop LoopEncoderError) GroupState := do
  let currLoopDepth := encoder.loops.getLoopDepth currBb
  if currLoopDepth = groupLoopDepth then
    return addToGroup state currBb (← encoder.encodeBlock state.method currBb)
  else
    Stop.assert (groupLoopDepth < currLoopDepth)
    if currLoopDepth = groupLoopDepth + 1 && encoder.loops.isLoopHead currBb then
      return addToGroup state currBb (← encodeLoop state.method currBb)
    else return state

/-- Encode a topologically ordered group of blocks. -/
def encodeBlocksGroup (method : CfgMethod) (orderedGroupBlocks : List BasicBlock)
    (groupLoopDepth : Nat) : Except (Stop LoopEncoderError) (Encoded (Option Nat)) := do
  let state ← orderedGroupBlocks.foldlM (encoder.encodeGroupBlock encodeLoop groupLoopDepth)
    ⟨method, HashMap.empty, []⟩
  let groupHead ← orderedGroupBlocks.head?.mapM fun bb => Stop.orPanic (state.bbMap.get? bb)
  let (method, stillUnresolved) :=
    encodeUnresolvedEdges state.bbMap.get? state.method state.unresolvedEdges
  return ⟨method, groupHead, stillUnresolved⟩

end Group

/-- Identify the important blocks of a loop, and split its body there. -/
def splitLoop (loopHead : BasicBlock) : Except (Stop LoopEncoderError) LoopParts := do
  Stop.assert (encoder.loops.isLoopHead loopHead)
  let loopBody := encoder.loopBody loopHead
  let loopExitBlocks := encoder.loops.getLoopExitBlocks loopHead
  let beforeInvariantBlock ← Stop.orPanic (lookup encoder.cachedLoopInvariantBlock loopHead)
  let beforeInvBlockPos ← Stop.orPanic (loopBody.findIdx? (· = beforeInvariantBlock))
  let afterInvBlockPos := 1 + beforeInvBlockPos
  -- the last block before the invariant that decides whether the loop is left
  let loopGuardSwitch := ((loopBody.take afterInvBlockPos).filter (· ∈ loopExitBlocks)).getLast?
  let afterGuardBlockPos := (loopGuardSwitch.bind fun guardSwitch =>
    (loopBody.findIdx? (· = guardSwitch)).map (· + 1)).getD 0
  let afterGuardBlock ← Stop.orPanic loopBody[afterGuardBlockPos]?
  let afterInvBlock ← Stop.orPanic loopBody[afterInvBlockPos]?
  if encoder.loops.isConditionalBranch loopHead beforeInvariantBlock then
    throw (.error (.loopInvariantInBranch loopHead))
  return {
    beforeInvariantBlock := beforeInvariantBlock
    loopGuardEvaluation := loopBody.take afterGuardBlockPos
    loopBodyBeforeInv := (loopBody.take afterInvBlockPos).drop afterGuardBlockPos
    loopBodyAfterInv := loopBody.drop afterInvBlockPos
    afterGuardBlock := afterGuardBlock
    afterInvBlock := afterInvBlock }

/-- Encode a loop as start - G - B1 - invariant - B2 - G - B1 - end, where G evaluates the
guard and B1 and B2 are the bodies before and after the invariant. -/
def encodeLoop : Nat → CfgMethod → BasicBlock → Except (Stop LoopEncoderError) (Encoded Nat)
  | 0, _, _ => .error .outOfFuel
  | fuel + 1, method, loopHead => do
    let parts ← encoder.splitLoop loopHead
    let encodeGroup := fun method blocks => encoder.encodeBlocksGroup (encodeLoop fuel) method
      blocks (encoder.loops.loopHeadDepth loopHead)
    let (method, startBlock) := method.addBlock (.loopStart loopHead)
    let firstG ← encodeGroup method parts.loopGuardEvaluation
    let firstB1 ← encodeGroup firstG.method parts.loopBodyBeforeInv
    let (method, invPreBlock) := firstB1.method.addBlock (.invPre loopHead)
    let (method, invPostBlock) := method.addBlock (.invPost loopHead)
    let method := method.setSuccessor invPreBlock (.goto invPostBlock)
    let lastB2 ← encodeGroup method parts.loopBodyAfterInv
    let lastG ← encodeGroup lastB2.method parts.loopGuardEvaluation
    let lastB1 ← encodeGroup lastG.method parts.loopBodyBeforeInv
    let (method, endBodyBlock) := lastB1.method.addBlock (.endBody loopHead invPostBlock)
    let heads := [some startBlock, firstG.head, firstB1.head, some invPreBlock, lastB2.head,
      lastG.head, lastB1.head, some endBodyBlock]
    -- link the edges from left to right
    let method := method.setSuccessor startBlock (.goto (← followingBlock heads 1))
    let (method, fromFirstG) := encodeUnresolvedEdges
      (resolveOnly parts.afterGuardBlock (← followingBlock heads 2)) method
      firstG.unresolvedEdges
    let (method, fromFirstB1) := encodeUnresolvedEdges
      (resolveOnly parts.afterInvBlock (← followingBlock heads 3)) method
      firstB1.unresolvedEdges
    let method := method.setSuccessor invPostBlock (.goto (← followingBlock heads 4))
    let (method, fromLastB2) := encodeUnresolvedEdges
      (resolveOnly loopHead (← followingBlock heads 5)) method lastB2.unresolvedEdges
    let (method, fromLastG) := encodeUnresolvedEdges
      (resolveOnly parts.afterGuardBlock (← followingBlock heads 6)) method
      lastG.unresolvedEdges
    let (method, fromLastB1) := encodeUnresolvedEdges
      (resolveOnly parts.afterInvBlock (← followingBlock heads 7)) method
      lastB1.unresolvedEdges
    let method := method.setSuccessor endBodyBlock .return
    return ⟨method, startBlock, fromFirstG ++ fromFirstB1 ++ fromLastB2 ++ fromLastG ++ fromLastB1⟩

/-- Encode all blocks between the start and the return block.  A loop is nested in at most
as many loops as there are. -/
def encodeBlocks : Except (Stop LoopEncoderError) (Encoded (Option Nat)) := do
  let method : CfgMethod := ⟨[⟨.start, .undefined⟩, ⟨.return, .return⟩]⟩
  let encoded ← encoder.encodeBlocksGroup
    (encoder.encodeLoop (encoder.loops.loopHeads.length + 1)) method
    encoder.getReachableNonspecCfgBlocks 0
  return { encoded with
    method := encoded.method.setSuccessor startCfgBlock
      (.goto (encoded.head.getD returnCfgBlock)) }

end ProcedureEncoder

/-- Compute the blocks of the loop invariants. -/
def Procedure.preprocessLoops {Ty : Type u} (procedure : Procedure Ty) (loops : ProcedureLoops) :
    Except LoopEncoderError (List (BasicBlock × BasicBlock)) :=
  ((procedure.encodedBlocks loops.orderedBlocks).filter loops.isLoopHead).mapM fun bbi => do
    return (bbi, ← procedure.getLoopInvariantBlock loops bbi)

end Prusti.Encoder.Procedures

/-
Bodies of the intermediate representation MIR, as far as the analyses read them:
places, statements, terminators and the control-flow graph.  Types are left abstract;
a type context says what kind of type each one is.
-/
import Mathlib.Data.List.Basic

namespace Prusti.Mir

universe u

abbrev Local := Nat

abbrev BasicBlock := Nat

/-- A statement of a block, or its terminator when the index is the number of
statements. -/
structure Location where
  block : BasicBlock
  statementIndex : Nat
deriving DecidableEq, Repr

inductive ProjectionElem (Ty : Type u) where
  | deref
  | field (field : Nat) (ty : Ty)
  | index («local» : Local)
  | constantIndex (offset minLength : Nat) (fromEnd : Bool)
  | subslice («from» «to» : Nat) (fromEnd : Bool)
  | downcast (variant : Nat)
deriving DecidableEq, Repr

@[ext] structure Place (Ty : Type u) where
  «local» : Local
  projection : List (ProjectionElem Ty)
deriving DecidableEq, Repr

inductive Operand (Ty : Type u) where
  | copy (place : Place Ty)
  | move (place : Place Ty)
  | constant

/-- The right-hand sides of assignments, with the places and operands they use. -/
inductive Rvalue (Ty : Type u) where
  | use (operand : Operand Ty)
  | «repeat» (operand : Operand Ty)
  | ref (place : Place Ty)
  | threadLocalRef
  | addressOf (place : Place Ty)
  | len (place : Place Ty)
  | cast (operand : Operand Ty)
  | binaryOp (left right : Operand Ty)
  | checkedBinaryOp (left right : Operand Ty)
  | nullaryOp
  | unaryOp (operand : Operand Ty)
  | discriminant (place : Place Ty)
  | aggregate (operands : List (Operand Ty))

inductive StatementKind (Ty : Type u) where
  | assign (target : Place Ty) (source : Rvalue Ty)
  | fakeRead (place : Place Ty)
  | setDiscriminant (place : Place Ty)
  | storageLive («local» : Local)
  | storageDead («local» : Local)
  | llvmInlineAsm (outputs : List (Place Ty)) (inputs : List (Operand Ty))
  | retag (place : Place Ty)
  | ascribeUserType (place : Place Ty)
  | coverage
  | copyNonOverlapping (src dst count : Operand Ty)
  | nop

inductive TerminatorKind (Ty : Type u) where
  | goto (target : BasicBlock)
  | switchInt (discr : Operand Ty) (targets : List BasicBlock)
  | resume
  | abort
  | «return»
  | unreachable
  | drop (place : Place Ty) (target : BasicBlock) (unwind : Option BasicBlock)
  | dropAndReplace (place : Place Ty) (value : Operand Ty) (target : BasicBlock)
      (unwind : Option BasicBlock)
  | call (func : Operand Ty) (args : List (Operand Ty))
      (destination : Option (Place Ty × BasicBlock)) (cleanup : Option BasicBlock)
  | assert (cond : Operand Ty) (target : BasicBlock) (cleanup : Option BasicBlock)
  | yield (value : Operand Ty) (resume : BasicBlock) (resumeArg : Place Ty)
      (drop : Option BasicBlock)
  | generatorDrop
  | falseEdge (realTarget imaginaryTarget : BasicBlock)
  | falseUnwind (realTarget : BasicBlock) (unwind : Option BasicBlock)
  | inlineAsm (destination : Option BasicBlock)

/-- The successors, with repetitions, in the order of the compiler. -/
def TerminatorKind.successors {Ty : Type u} : TerminatorKind Ty → List BasicBlock
  | .goto target => [target]
  | .switchInt _ targets => targets
  | .resume | .abort | .return | .unreachable | .generatorDrop => []
  | .drop _ target unwind => target :: unwind.toList
  | .dropAndReplace _ _ target unwind => target :: unwind.toList
  | .call _ _ destination cleanup => (destination.map Prod.snd).toList ++ cleanup.toList
  | .assert _ target cleanup => target :: cleanup.toList
  | .yield _ resumed _ dropped => resumed :: dropped.toList
  | .falseEdge realTarget imaginaryTarget => [realTarget, imaginaryTarget]
  | .falseUnwind realTarget unwind => realTarget :: unwind.toList
  | .inlineAsm destination => destination.toList

structure BasicBlockData (Ty : Type u) where
  statements : List (StatementKind Ty)
  terminator : TerminatorKind Ty

/-- The first local is the return value, the next `argCount` ones are the
arguments.  There is a start block, and every edge leads to a block of the body. -/
structure Body (Ty : Type u) where
  basicBlocks : List (BasicBlockData Ty)
  localDecls : List Ty
  argCount : Nat
  startBlock_lt : 0 < basicBlocks.length
  argCount_lt : argCount < localDecls.length
  target_lt : ∀ data ∈ basicBlocks, ∀ next ∈ data.terminator.successors, next < basicBlocks.length

/-- What the analyses ask of a type.  Of a box the type behind it is given as well. -/
inductive TyKind (Ty : Type u) where
  | adt (isStruct : Bool) (boxed : Option Ty) (fields : List Ty)
  | tuple (elements : List Ty)
  | ref (pointee : Ty)
  | rawPtr (pointee : Ty)
  | other

structure TyCtxt (Ty : Type u) where
  kind : Ty → TyKind Ty

/-- The type of a place, and the variant when the place is a downcast. -/
structure PlaceTy (Ty : Type u) where
  ty : Ty
  variantIndex : Option Nat

def startBlock : BasicBlock := 0

namespace Place

variable {Ty : Type u}

def ofLocal («local» : Local) : Place Ty := ⟨«local», []⟩

/-- The local, if the place is one. -/
def asLocal (place : Place Ty) : Option Local :=
  if place.projection = [] then some place.local else none

def project (place : Place Ty) (elem : ProjectionElem Ty) : Place Ty :=
  ⟨place.local, place.projection ++ [elem]⟩

@[simp] theorem local_project (place : Place Ty) (elem : ProjectionElem Ty) :
    (place.project elem).local = place.local := rfl

@[simp] theorem projection_project (place : Place Ty) (elem : ProjectionElem Ty) :
    (place.project elem).projection = place.projection ++ [elem] := rfl

end Place

namespace Body

variable {Ty : Type u} (body : Body Ty)

/-- The indices of the blocks. -/
def indices : List BasicBlock := List.range body.basicBlocks.length

def locals : List Local := List.range body.localDecls.length

def argsIter : List Local := (List.range body.argCount).map (· + 1)

def statements (bb : BasicBlock) : List (StatementKind Ty) :=
  match body.basicBlocks[bb]? with
  | some data => data.statements
  | none => []

def terminator? (bb : BasicBlock) : Option (TerminatorKind Ty) :=
  (body.basicBlocks[bb]?).map BasicBlockData.terminator

def terminatorLoc (bb : BasicBlock) : Location := ⟨bb, (body.statements bb).length⟩

def successors (bb : BasicBlock) : List BasicBlock :=
  match body.terminator? bb with
  | some kind => kind.successors
  | none => []

/-- The sources of the edges into a block, one entry for each edge. -/
def predecessors (bb : BasicBlock) : List BasicBlock :=
  body.indices.flatMap fun pred =>
    ((body.successors pred).filter (· = bb)).map fun _ => pred

variable {body}

variable {bb : BasicBlock}

theorem mem_indices_iff : bb ∈ body.indices ↔ bb < body.basicBlocks.length := List.mem_range

theorem lt_of_mem_successors {next : BasicBlock} (h : next ∈ body.successors bb) :
    bb < body.basicBlocks.length := by
  rw [successors, terminator?] at h
  by_contra hlarge
  rw [List.getElem?_eq_none (Nat.le_of_not_lt hlarge)] at h
  cases h

theorem mem_predecessors_iff {pred : BasicBlock} :
    pred ∈ body.predecessors bb ↔ bb ∈ body.successors pred := by
  rw [predecessors, List.mem_flatMap]
  constructor
  · rintro ⟨source, -, hsource⟩
    obtain ⟨target, htarget, rfl⟩ := List.mem_map.mp hsource
    obtain ⟨hmem, heq⟩ := List.mem_filter.mp htarget
    rwa [of_decide_eq_true heq] at hmem
  · intro hmem
    refine ⟨pred, mem_indices_iff.mpr (lt_of_mem_successors hmem), ?_⟩
    exact List.mem_map.mpr ⟨bb, List.mem_filter.mpr ⟨hmem, decide_eq_true rfl⟩, rfl⟩

theorem terminator?_eq_some (h : bb < body.basicBlocks.length) :
    ∃ kind, body.terminator? bb = some kind :=
  ⟨_, by rw [terminator?, List.getElem?_eq_getElem h]; rfl⟩

theorem target_lt_of_mem_successors {next : BasicBlock} (h : next ∈ body.successors bb) :
    next < body.basicBlocks.length := by
  have hlt := lt_of_mem_successors h
  rw [successors, terminator?, List.getElem?_eq_getElem hlt] at h
  exact body.target_lt _ (List.getElem_mem hlt) next h

theorem lt_of_getElem?_statements {idx : Nat} {statement : StatementKind Ty}
    (h : (body.statements bb)[idx]? = some statement) : bb < body.basicBlocks.length := by
  by_contra hlarge
  rw [statements, List.getElem?_eq_none (Nat.le_of_not_lt hlarge)] at h
  cases h

theorem successors_eq {kind : TerminatorKind Ty} (h : body.terminator? bb = some kind) :
    body.successors bb = kind.successors := by
  rw [successors, h]

end Body

namespace TyCtxt

variable {Ty : Type u} (tcx : TyCtxt Ty)

/-- The type behind a pointer. -/
def builtinDeref (ty : Ty) : Option Ty :=
  match tcx.kind ty with
  | .ref pointee => some pointee
  | .rawPtr pointee => some pointee
  | .adt _ boxed _ => boxed
  | _ => none

/-- The type of a projection.  The elements of arrays are left out: both callers stop
at a place with such a projection before they ask for a type. -/
def projectionTy (placeTy : PlaceTy Ty) : ProjectionElem Ty → Option (PlaceTy Ty)
  | .deref => (tcx.builtinDeref placeTy.ty).map fun ty => ⟨ty, none⟩
  | .field _ ty => some ⟨ty, none⟩
  | .downcast variant => some ⟨placeTy.ty, some variant⟩
  | .index _ | .constantIndex _ _ _ | .subslice _ _ _ => none

/-- The type of a place. -/
def placeTy (body : Body Ty) (place : Place Ty) : Option (PlaceTy Ty) := do
  let ty ← body.localDecls[place.local]?
  place.projection.foldlM tcx.projectionTy ⟨ty, none⟩

end TyCtxt

end Prusti.Mir

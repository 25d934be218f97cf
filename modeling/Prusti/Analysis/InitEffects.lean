/-
The effects of the definitely-initialized domain, as functions on the sets of leaf
places that the states denote.
-/
import Prusti.Lib.Lists
import Prusti.Analysis.PlaceSets

namespace Prusti.Analysis

open Prusti.Lib Prusti.Mir

universe u

section Places

variable {Ty : Type u}

def operandMoves : Operand Ty → List (Place Ty)
  | .move place => [place]
  | .copy _ | .constant => []

def rvalueOperands : Rvalue Ty → List (Operand Ty)
  | .use operand | .repeat operand | .cast operand | .unaryOp operand => [operand]
  | .binaryOp left right | .checkedBinaryOp left right => [left, right]
  | .aggregate operands => operands
  | .ref _ | .threadLocalRef | .addressOf _ | .len _ | .nullaryOp | .discriminant _ => []

/-- The operands of the statements that are no assignments. -/
def otherOperands : StatementKind Ty → List (Operand Ty)
  | .llvmInlineAsm _ inputs => inputs
  | .copyNonOverlapping src dst count => [src, dst, count]
  | _ => []

/-- The places that a statement assigns or moves. -/
def statementPlaces : StatementKind Ty → List (Place Ty)
  | .assign target source => target :: (rvalueOperands source).flatMap operandMoves
  | .llvmInlineAsm outputs inputs => outputs ++ inputs.flatMap operandMoves
  | statement => (otherOperands statement).flatMap operandMoves

/-- The places that a terminator assigns, moves or drops. -/
def terminatorPlaces : TerminatorKind Ty → List (Place Ty)
  | .switchInt discr _ => operandMoves discr
  | .drop place _ _ => [place]
  | .dropAndReplace place value _ _ => place :: operandMoves value
  | .call func args destination _ =>
    args.flatMap operandMoves ++ operandMoves func ++ (destination.map Prod.fst).toList
  | .assert cond _ _ => operandMoves cond
  | .yield value _ resumeArg _ => resumeArg :: operandMoves value
  | _ => []

/-- The assigned and moved places of a body are built from the locals by struct and tuple
fields and dereferences. -/
structure PlacesBuilt (tcx : TyCtxt Ty) (body : Body Ty) : Prop where
  statement : ∀ bb, ∀ statement ∈ body.statements bb, ∀ place ∈ statementPlaces statement,
    IsPlace tcx body place
  terminator : ∀ bb kind, body.terminator? bb = some kind →
    ∀ place ∈ terminatorPlaces kind, IsPlace tcx body place

end Places

variable {Ty : Type u} [DecidableEq Ty] (tcx : TyCtxt Ty) (body : Body Ty)

/-- A place is initialised with everything below it. -/
def initialise (place : Place Ty) (leaves : Set (Place Ty)) : Set (Place Ty) :=
  leaves ∪ {leaf | IsLeafPlace tcx body leaf ∧ place ≤ leaf}

/-- A place is uninitialised with everything below it. -/
def uninitialise (place : Place Ty) (leaves : Set (Place Ty)) : Set (Place Ty) :=
  {leaf ∈ leaves | ¬ place ≤ leaf}

omit [DecidableEq Ty] in
theorem uninitialise_subset (place : Place Ty) {leaves others : Set (Place Ty)}
    (h : leaves ⊆ others) : uninitialise place leaves ⊆ uninitialise place others :=
  fun _ hleaf => ⟨h hleaf.1, hleaf.2⟩

/-- Operands that are moved are uninitialised, one after the other. -/
def moveOperands (operands : List (Operand Ty)) (leaves : Set (Place Ty)) : Set (Place Ty) :=
  (operands.flatMap operandMoves).foldl (fun leaves place => uninitialise place leaves) leaves

/-- What the domain makes of a statement. -/
def statementEffect (leaves : Set (Place Ty)) : StatementKind Ty → Set (Place Ty)
  | .assign target source =>
    initialise tcx body target (moveOperands (rvalueOperands source) leaves)
  | _ => leaves

/-- The edges of a terminator with their states, where `onError` is what is kept of a
state on an edge for errors. -/
def terminatorEffect (onError : Set (Place Ty) → Set (Place Ty)) (leaves : Set (Place Ty)) :
    TerminatorKind Ty → List (BasicBlock × Set (Place Ty))
  | .switchInt discr targets =>
    targets.map fun bb => (bb, moveOperands [discr] leaves)
  | .drop place target unwind =>
    let after := uninitialise place leaves
    (target, after) :: unwind.toList.map fun bb => (bb, onError after)
  | .dropAndReplace place value target unwind =>
    let after := moveOperands [value] (uninitialise place leaves)
    (target, initialise tcx body place after) :: unwind.toList.map fun bb => (bb, onError after)
  | .call func args destination cleanup =>
    let after := moveOperands (args ++ [func]) leaves
    (destination.toList.map fun dest => (dest.2, initialise tcx body dest.1 after)) ++
      cleanup.toList.map fun bb => (bb, onError after)
  | .assert cond target cleanup =>
    let after := moveOperands [cond] leaves
    (target, after) :: cleanup.toList.map fun bb => (bb, onError after)
  | .yield value resume _ drop =>
    let after := moveOperands [value] leaves
    (resume, after) :: drop.toList.map fun bb => (bb, onError after)
  | kind => kind.successors.map fun bb => (bb, leaves)

omit [DecidableEq Ty] in
theorem mem_successors_of_mem_map {targets : List BasicBlock} {leaves : Set (Place Ty)}
    {edge : BasicBlock × Set (Place Ty)}
    (h : edge ∈ targets.map fun bb => (bb, leaves)) : edge.1 ∈ targets := by
  obtain ⟨bb, hbb, rfl⟩ := List.mem_map.mp h
  exact hbb

/-- The edges of a terminator lead to its successors. -/
theorem mem_successors_of_mem_terminatorEffect {onError : Set (Place Ty) → Set (Place Ty)}
    {leaves : Set (Place Ty)} {kind : TerminatorKind Ty} {edge : BasicBlock × Set (Place Ty)}
    (h : edge ∈ terminatorEffect tcx body onError leaves kind) :
    edge.1 ∈ kind.successors := by
  cases kind with
  | drop | dropAndReplace | assert | yield =>
    rcases List.mem_cons.mp h with rfl | h
    · exact List.mem_cons_self
    · exact List.mem_cons_of_mem _ (mem_successors_of_mem_map h)
  | call func args destination cleanup =>
    rcases List.mem_append.mp h with h | h
    · refine List.mem_append_left _ ?_
      cases destination with
      | none => cases h
      | some dest =>
        rw [List.mem_singleton.mp h]
        exact List.mem_singleton.mpr rfl
    · exact List.mem_append_right _ (mem_successors_of_mem_map h)
  | _ =>
    obtain ⟨bb, hbb, rfl⟩ := List.mem_map.mp h
    exact hbb

section Monotone

variable {tcx body} {leaves others : Set (Place Ty)}

theorem initialise_subset {place : Place Ty} (h : leaves ⊆ others) :
    initialise tcx body place leaves ⊆ initialise tcx body place others :=
  Set.union_subset_union_left _ h

omit [DecidableEq Ty] in
theorem moveOperands_subset (operands : List (Operand Ty)) (h : leaves ⊆ others) :
    moveOperands operands leaves ⊆ moveOperands operands others := by
  rw [moveOperands, moveOperands]
  induction operands.flatMap operandMoves generalizing leaves others with
  | nil => exact h
  | cons place places ih => exact ih (uninitialise_subset place h)

theorem statementEffect_subset (h : leaves ⊆ others) (statement : StatementKind Ty) :
    statementEffect tcx body leaves statement ⊆ statementEffect tcx body others statement := by
  cases statement with
  | assign target source => exact initialise_subset (moveOperands_subset _ h)
  | _ => exact h

/-- The states on the edges grow with the state before the terminator and with what is
kept on error edges. -/
theorem terminatorEffect_subset (onError onError' : Set (Place Ty) → Set (Place Ty))
    (hle : leaves ⊆ others)
    (hError : ∀ {left right : Set (Place Ty)}, left ⊆ right → onError left ⊆ onError' right)
    (kind : TerminatorKind Ty) :
    List.Forall₂ (fun left right => left.1 = right.1 ∧ left.2 ⊆ right.2)
      (terminatorEffect tcx body onError leaves kind)
      (terminatorEffect tcx body onError' others kind) := by
  have hedges : ∀ (targets : List BasicBlock) {left right : Set (Place Ty)}, left ⊆ right →
      List.Forall₂ (fun left right => left.1 = right.1 ∧ left.2 ⊆ right.2)
        (targets.map fun bb => (bb, left)) (targets.map fun bb => (bb, right)) := by
    intro targets left right h
    rw [List.forall₂_map_left_iff, List.forall₂_map_right_iff, List.forall₂_same]
    exact fun bb _ => ⟨rfl, h⟩
  cases kind with
  | switchInt discr targets => exact hedges targets (moveOperands_subset _ hle)
  | drop place target unwind =>
    have h := uninitialise_subset place hle
    exact .cons ⟨rfl, h⟩ (hedges _ (hError h))
  | dropAndReplace place value target unwind =>
    have h := moveOperands_subset [value] (uninitialise_subset place hle)
    exact .cons ⟨rfl, initialise_subset h⟩ (hedges _ (hError h))
  | call func args destination cleanup =>
    have h := moveOperands_subset (args ++ [func]) hle
    cases destination with
    | none => exact hedges _ (hError h)
    | some dest => exact .cons ⟨rfl, initialise_subset h⟩ (hedges _ (hError h))
  | assert cond target cleanup =>
    have h := moveOperands_subset [cond] hle
    exact .cons ⟨rfl, h⟩ (hedges _ (hError h))
  | yield value resume resumeArg drop =>
    have h := moveOperands_subset [value] hle
    exact .cons ⟨rfl, h⟩ (hedges _ (hError h))
  | _ => exact hedges _ hle

end Monotone

namespace DefinitelyInitializedState

variable {tcx body} {places : DefInitPlaces Ty}

variable {leaves : Set (Place Ty)}

/-- A result is a canonical set that denotes some leaves. -/
def Denotes (tcx : TyCtxt Ty) (body : Body Ty) (result : DefInitPlaces Ty)
    (leaves : Set (Place Ty)) : Prop :=
  CanonicalPlaces tcx body result ∧ leafPlaces tcx body result = leaves

theorem applyOperandEffect_denotes (hplaces : Denotes tcx body places leaves) {operand : Operand Ty}
    (hbuilt : ∀ place ∈ operandMoves operand, IsPlace tcx body place) :
    ∃ result, applyOperandEffect tcx body places operand = some result ∧
      Denotes tcx body result (moveOperands [operand] leaves) := by
  obtain ⟨hcanonical, rfl⟩ := hplaces
  cases operand with
  | copy place => exact ⟨places, rfl, hcanonical, rfl⟩
  | constant => exact ⟨places, rfl, hcanonical, rfl⟩
  | move place =>
    exact setPlaceUninitialised_spec hcanonical (hbuilt place (List.mem_singleton.mpr rfl))

theorem foldlM_applyOperandEffect_denotes (hplaces : Denotes tcx body places leaves)
    {operands : List (Operand Ty)}
    (hbuilt : ∀ place ∈ operands.flatMap operandMoves, IsPlace tcx body place) :
    ∃ result, operands.foldlM (applyOperandEffect tcx body) places = some result ∧
      Denotes tcx body result (moveOperands operands leaves) := by
  induction operands generalizing places leaves with
  | nil => exact ⟨places, rfl, hplaces⟩
  | cons operand operands ih =>
    rw [List.flatMap_cons, List.forall_mem_append] at hbuilt
    obtain ⟨next, hnext, hdenotes⟩ := applyOperandEffect_denotes hplaces hbuilt.1
    obtain ⟨result, hresult, hdenotes⟩ := ih hdenotes hbuilt.2
    refine ⟨result, by rw [List.foldlM_cons, hnext]; exact hresult, ?_⟩
    rw [moveOperands, List.flatMap_cons, List.foldl_append]
    rw [moveOperands, moveOperands, List.flatMap_singleton] at hdenotes
    exact hdenotes

theorem applyRvalueEffect_eq (source : Rvalue Ty) :
    applyRvalueEffect tcx body places source =
      (rvalueOperands source).foldlM (applyOperandEffect tcx body) places := by
  cases source <;> simp [applyRvalueEffect, rvalueOperands]

theorem setPlaceInitialised_denotes {place : Place Ty} (hplaces : Denotes tcx body places leaves)
    (hplace : IsPlace tcx body place) :
    ∃ result, setPlaceInitialised tcx body places place = some result ∧
      Denotes tcx body result (initialise tcx body place leaves) := by
  obtain ⟨hcanonical, rfl⟩ := hplaces
  exact setPlaceInitialised_spec hcanonical hplace

theorem setPlaceUninitialised_denotes {place : Place Ty} (hplaces : Denotes tcx body places leaves)
    (hplace : IsPlace tcx body place) :
    ∃ result, setPlaceUninitialised tcx body places place = some result ∧
      Denotes tcx body result (uninitialise place leaves) := by
  obtain ⟨hcanonical, rfl⟩ := hplaces
  exact setPlaceUninitialised_spec hcanonical hplace

/-- The effect of a statement on the sets is its effect on the leaves. -/
theorem applyStatementKind_denotes (hplaces : Denotes tcx body places leaves)
    {statement : StatementKind Ty}
    (hbuilt : ∀ place ∈ statementPlaces statement, IsPlace tcx body place) :
    ∃ result, applyStatementKind tcx body places statement = some result ∧
      Denotes tcx body result (statementEffect tcx body leaves statement) := by
  cases statement with
  | assign target source =>
    rw [statementPlaces, List.forall_mem_cons] at hbuilt
    obtain ⟨moved, hmoved, hdenotes⟩ := foldlM_applyOperandEffect_denotes hplaces hbuilt.2
    obtain ⟨result, hresult, hdenotes⟩ := setPlaceInitialised_denotes hdenotes hbuilt.1
    refine ⟨result, ?_, hdenotes⟩
    rw [applyStatementKind, applyRvalueEffect_eq, hmoved]
    exact hresult
  | _ => exact ⟨places, rfl, hplaces⟩

/-- Lists of edges whose sets denote the leaves. -/
def EdgesDenote (tcx : TyCtxt Ty) (body : Body Ty)
    (nextStates : List (BasicBlock × DefInitPlaces Ty))
    (edges : List (BasicBlock × Set (Place Ty))) : Prop :=
  List.Forall₂ (fun next edge => next.1 = edge.1 ∧ Denotes tcx body next.2 edge.2)
    nextStates edges

theorem edgesDenote_map (hplaces : Denotes tcx body places leaves) (targets : List BasicBlock) :
    EdgesDenote tcx body (targets.map fun bb => (bb, places))
      (targets.map fun bb => (bb, leaves)) := by
  rw [EdgesDenote, List.forall₂_map_left_iff, List.forall₂_map_right_iff, List.forall₂_same]
  exact fun bb _ => ⟨rfl, hplaces⟩

theorem edgesDenote_errorState (target : Option BasicBlock) :
    EdgesDenote tcx body (errorState target) (target.toList.map fun bb => (bb, ∅)) := by
  refine edgesDenote_map ⟨canonical_newTop, ?_⟩ target.toList
  rw [leafPlaces, Forest.leaves, Set.eq_empty_iff_forall_notMem]
  rintro leaf ⟨-, x, hx, -⟩
  exact Finset.notMem_empty x hx

/-- The effect of a terminator on the sets is its effect on the leaves, with nothing left
on the edges for errors. -/
theorem applyTerminatorKind_denotes (hplaces : Denotes tcx body places leaves)
    {kind : TerminatorKind Ty} (hbuilt : ∀ place ∈ terminatorPlaces kind, IsPlace tcx body place) :
    ∃ nextStates, applyTerminatorKind tcx body places kind = some nextStates ∧
      EdgesDenote tcx body nextStates (terminatorEffect tcx body (fun _ => ∅) leaves kind) := by
  cases kind with
  | switchInt discr targets =>
    obtain ⟨result, hresult, hdenotes⟩ := applyOperandEffect_denotes hplaces hbuilt
    refine ⟨_, ?_, edgesDenote_map hdenotes targets⟩
    rw [applyTerminatorKind, hresult]
    rfl
  | drop place target unwind =>
    obtain ⟨result, hresult, hdenotes⟩ :=
      setPlaceUninitialised_denotes hplaces (hbuilt place (List.mem_singleton.mpr rfl))
    refine ⟨(target, result) :: errorState unwind, ?_,
      .cons ⟨rfl, hdenotes⟩ (edgesDenote_errorState unwind)⟩
    rw [applyTerminatorKind, hresult]
    rfl
  | dropAndReplace place value target unwind =>
    rw [terminatorPlaces, List.forall_mem_cons] at hbuilt
    obtain ⟨dropped, hdropped, hdenotes⟩ := setPlaceUninitialised_denotes hplaces hbuilt.1
    obtain ⟨moved, hmoved, hdenotes⟩ := applyOperandEffect_denotes hdenotes hbuilt.2
    obtain ⟨result, hresult, hdenotes⟩ := setPlaceInitialised_denotes hdenotes hbuilt.1
    refine ⟨(target, result) :: errorState unwind, ?_,
      .cons ⟨rfl, hdenotes⟩ (edgesDenote_errorState unwind)⟩
    simp only [applyTerminatorKind, hdropped, hmoved, hresult, Option.bind_eq_bind,
      Option.bind_some]
  | call func args destination cleanup =>
    rw [terminatorPlaces, List.forall_mem_append] at hbuilt
    have hoperands : ∀ place ∈ (args ++ [func]).flatMap operandMoves, IsPlace tcx body place := by
      rw [List.flatMap_append, List.flatMap_singleton]
      exact hbuilt.1
    obtain ⟨moved, hmoved, hdenotes⟩ := foldlM_applyOperandEffect_denotes hplaces hoperands
    rw [List.foldlM_append] at hmoved
    obtain ⟨first, hfirst, hlast⟩ := Option.bind_eq_some_iff.mp hmoved
    have hfunc : applyOperandEffect tcx body first func = some moved := by
      simpa using hlast
    cases destination with
    | none =>
      refine ⟨_, ?_, edgesDenote_errorState cleanup⟩
      simp only [applyTerminatorKind, hfirst, hfunc, Option.bind_eq_bind, Option.bind_some]
    | some dest =>
      obtain ⟨result, hresult, hdenotes⟩ := setPlaceInitialised_denotes hdenotes
        (hbuilt.2 dest.1 (List.mem_singleton.mpr rfl))
      refine ⟨(dest.2, result) :: errorState cleanup, ?_,
        .cons ⟨rfl, hdenotes⟩ (edgesDenote_errorState cleanup)⟩
      simp only [applyTerminatorKind, hfirst, hfunc, hresult, Option.bind_eq_bind, Option.bind_some]
  | assert cond target cleanup =>
    obtain ⟨result, hresult, hdenotes⟩ := applyOperandEffect_denotes hplaces hbuilt
    refine ⟨(target, result) :: errorState cleanup, ?_,
      .cons ⟨rfl, hdenotes⟩ (edgesDenote_errorState cleanup)⟩
    rw [applyTerminatorKind, hresult]
    rfl
  | yield value resume resumeArg drop =>
    rw [terminatorPlaces, List.forall_mem_cons] at hbuilt
    obtain ⟨result, hresult, hdenotes⟩ := applyOperandEffect_denotes hplaces hbuilt.2
    refine ⟨(resume, result) :: errorState drop, ?_,
      .cons ⟨rfl, hdenotes⟩ (edgesDenote_errorState drop)⟩
    rw [applyTerminatorKind, hresult]
    rfl
  | _ => exact ⟨_, rfl, edgesDenote_map hplaces _⟩

variable {places' : DefInitPlaces Ty} {location : Location}

section

variable (hbuilt : PlacesBuilt tcx body) (hcanonical : CanonicalPlaces tcx body places)

include hbuilt hcanonical

/-- A statement effect that returns is the effect of the statement on the leaves. -/
theorem exists_statement_of_ok (h : applyStatementEffect tcx body location places = .ok places') :
    ∃ statement, (body.statements location.block)[location.statementIndex]? = some statement ∧
      Denotes tcx body places'
        (statementEffect tcx body (leafPlaces tcx body places) statement) := by
  rw [applyStatementEffect] at h
  cases hstatement : (body.statements location.block)[location.statementIndex]? with
  | none => simp [hstatement] at h
  | some statement =>
    simp only [hstatement, Stop.orPanic_eq_ok_iff] at h
    obtain ⟨result, hresult, hdenotes⟩ := applyStatementKind_denotes ⟨hcanonical, rfl⟩
      (hbuilt.statement location.block statement (List.mem_of_getElem? hstatement))
    rw [Option.some_inj.mp (h.symm.trans hresult)]
    exact ⟨statement, rfl, hdenotes⟩

/-- A terminator effect that returns is the effect of the terminator on the leaves. -/
theorem exists_terminator_of_ok {nextStates : List (BasicBlock × DefInitPlaces Ty)}
    (h : applyTerminatorEffect tcx body location places = .ok nextStates) :
    ∃ kind, body.terminator? location.block = some kind ∧ EdgesDenote tcx body nextStates
        (terminatorEffect tcx body (fun _ => ∅) (leafPlaces tcx body places) kind) := by
  cases hkind : body.terminator? location.block with
  | none =>
    rw [applyTerminatorEffect, hkind] at h
    cases h
  | some kind =>
    obtain ⟨result, hresult, hdenotes⟩ := applyTerminatorKind_denotes ⟨hcanonical, rfl⟩
      (hbuilt.terminator location.block kind hkind)
    have heffect : applyTerminatorKind tcx body places kind = some nextStates := by
      rw [applyTerminatorEffect, hkind] at h
      cases kind with
      | inlineAsm destination => cases h
      | _ => exact (Stop.orPanic_eq_ok_iff _ _).mp h
    rw [Option.some_inj.mp (heffect.symm.trans hresult)]
    exact ⟨kind, rfl, hdenotes⟩

theorem applyStatementEffect_noPanic
    (hlt : location.statementIndex < (body.statements location.block).length) :
    Stop.NoPanic (applyStatementEffect tcx body location places) := by
  have hstatement := List.getElem?_eq_getElem hlt
  obtain ⟨result, hresult, -⟩ := applyStatementKind_denotes ⟨hcanonical, rfl⟩
    (hbuilt.statement location.block _ (List.getElem_mem hlt))
  rw [applyStatementEffect, hstatement]
  exact Stop.NoPanic.orPanic ⟨result, hresult⟩

theorem applyTerminatorEffect_noPanic (hlt : location.block < body.basicBlocks.length) :
    Stop.NoPanic (applyTerminatorEffect tcx body location places) := by
  obtain ⟨kind, hkind⟩ := Body.terminator?_eq_some hlt
  obtain ⟨result, hresult, -⟩ := applyTerminatorKind_denotes ⟨hcanonical, rfl⟩
    (hbuilt.terminator location.block kind hkind)
  have hnoPanic : Stop.NoPanic (Stop.orPanic (applyTerminatorKind tcx body places kind) :
      Outcome (List (BasicBlock × DefInitPlaces Ty))) :=
    Stop.NoPanic.orPanic ⟨result, hresult⟩
  rw [applyTerminatorEffect, hkind]
  cases kind with
  | inlineAsm destination =>
    intro stop hstop
    cases hstop
    exact ⟨_, rfl⟩
  | _ => exact hnoPanic

end

theorem canonical_entryState (bb : BasicBlock) :
    CanonicalPlaces tcx body (entryState (abstractState tcx body) bb) := by
  rw [entryState]
  split
  · exact canonical_newInitial
  · exact canonical_newBottom

theorem canonical_of_statement (hbuilt : PlacesBuilt tcx body)
    (hcanonical : CanonicalPlaces tcx body places)
    (h : applyStatementEffect tcx body location places = .ok places') :
    CanonicalPlaces tcx body places' := by
  obtain ⟨_, -, hdenotes⟩ := exists_statement_of_ok hbuilt hcanonical h
  exact hdenotes.1

theorem canonical_of_terminator (hbuilt : PlacesBuilt tcx body)
    (hcanonical : CanonicalPlaces tcx body places)
    {nextStates : List (BasicBlock × DefInitPlaces Ty)}
    (h : applyTerminatorEffect tcx body location places = .ok nextStates) :
    ∀ next ∈ nextStates, CanonicalPlaces tcx body next.2 := by
  obtain ⟨_, -, hdenotes⟩ := exists_terminator_of_ok hbuilt hcanonical h
  intro next hnext
  obtain ⟨edge, -, -, hedge⟩ := exists_of_forall₂_mem hdenotes hnext
  exact hedge.1

end DefinitelyInitializedState

end Prusti.Analysis

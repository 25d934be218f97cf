/-
Soundness of the definitely-initialized analysis: along every path of the control-flow
graph, what the analysis has computed for a point is initialised there.
-/
import Prusti.Analysis.Paths
import Prusti.Analysis.InitEffects

namespace Prusti.Analysis

open Prusti.Lib Prusti.Mir

universe u

namespace DefinitelyInitializedState

variable {Ty : Type u} [DecidableEq Ty] (tcx : TyCtxt Ty) (body : Body Ty)

/-- The initialised leaf places after a statement: operands that are moved are
uninitialised, targets and outputs are initialised, and nothing else has an effect. -/
def executeStatement (leaves : Set (Place Ty)) : StatementKind Ty → Set (Place Ty)
  | .assign target source =>
    initialise tcx body target (moveOperands (rvalueOperands source) leaves)
  | .llvmInlineAsm outputs inputs =>
    outputs.foldl (fun leaves place => initialise tcx body place leaves)
      (moveOperands inputs leaves)
  | statement => moveOperands (otherOperands statement) leaves

/-- The initialised leaf places on the edges after a terminator.  An error edge is taken
after the operands are moved and before the target is assigned. -/
def executeTerminator (leaves : Set (Place Ty)) (kind : TerminatorKind Ty) :
    List (BasicBlock × Set (Place Ty)) :=
  terminatorEffect tcx body id leaves kind

/-- The leaf places of the arguments. -/
def argumentLeaves : Set (Place Ty) :=
  {leaf | IsLeafPlace tcx body leaf ∧ ∃ arg ∈ body.argsIter, Place.ofLocal arg ≤ leaf}

/-- The paths from the start block, whose statements all meet some condition, with the
leaf places that are initialised after them. -/
inductive Executes (condition : StatementKind Ty → Prop) : Location → Set (Place Ty) → Prop where
  | start : Executes condition ⟨startBlock, 0⟩ (argumentLeaves tcx body)
  | statement {bb : BasicBlock} {idx : Nat} {leaves : Set (Place Ty)}
      {statement : StatementKind Ty} (h : Executes condition ⟨bb, idx⟩ leaves)
      (hstatement : (body.statements bb)[idx]? = some statement)
      (hcondition : condition statement) :
      Executes condition ⟨bb, idx + 1⟩ (executeStatement tcx body leaves statement)
  | edge {bb next : BasicBlock} {leaves leaves' : Set (Place Ty)} {kind : TerminatorKind Ty}
      (h : Executes condition (body.terminatorLoc bb) leaves)
      (hkind : body.terminator? bb = some kind)
      (hedge : (next, leaves') ∈ executeTerminator tcx body leaves kind) :
      Executes condition ⟨next, 0⟩ leaves'

/-- Every part of a place is initialised. -/
def Initialised (place : Place Ty) (leaves : Set (Place Ty)) : Prop :=
  ∀ leaf, IsLeafPlace tcx body leaf → isPrefix leaf place = true → leaf ∈ leaves

/-- The statement moves no operand, unless it is an assignment. -/
def MovesOnlyInAssignment (statement : StatementKind Ty) : Prop :=
  (otherOperands statement).flatMap operandMoves = []

variable {tcx body} {places : DefInitPlaces Ty} {leaves : Set (Place Ty)}

theorem initialised_iff :
    (∀ place ∈ places, Initialised tcx body place leaves) ↔
      leafPlaces tcx body places ⊆ leaves := by
  constructor
  · rintro h leaf ⟨hleaf, place, hplace, hle⟩
    exact h place hplace leaf hleaf (isPrefix_iff.mpr hle)
  · intro h place hplace leaf hleaf hpre
    exact h ⟨hleaf, place, hplace, isPrefix_iff.mp hpre⟩

theorem leafPlaces_newInitial :
    leafPlaces tcx body (newInitial body) = argumentLeaves tcx body := by
  ext leaf
  simp only [leafPlaces, Forest.leaves, argumentLeaves, newInitial, Set.mem_ofPred_eq,
    Finset.mem_image, List.mem_toFinset, exists_exists_and_eq_and]
  rfl

theorem subset_foldl_initialise (outputs : List (Place Ty)) (leaves : Set (Place Ty)) :
    leaves ⊆ outputs.foldl (fun leaves place => initialise tcx body place leaves) leaves := by
  induction outputs generalizing leaves with
  | nil => exact Set.Subset.rfl
  | cons place outputs ih => exact Set.subset_union_left.trans (ih _)

/-- The domain leaves out the effects of statements that are no assignments, which is
sound when these move no operand. -/
theorem statementEffect_subset_execute {statement : StatementKind Ty}
    (h : MovesOnlyInAssignment statement) :
    statementEffect tcx body leaves statement ⊆ executeStatement tcx body leaves statement := by
  have hmoves : moveOperands (otherOperands statement) leaves = leaves := by
    rw [moveOperands, show (otherOperands statement).flatMap operandMoves = [] from h]
    rfl
  cases statement with
  | assign target source => exact Set.Subset.rfl
  | llvmInlineAsm outputs inputs =>
    have hinputs : moveOperands inputs leaves = leaves := hmoves
    change leaves ⊆ outputs.foldl _ (moveOperands inputs leaves)
    rw [hinputs]
    exact subset_foldl_initialise outputs leaves
  | _ => exact hmoves.ge

section Run

variable {pState : PointwiseState (DefInitPlaces Ty)} {fuel : Nat}

theorem recorded_canonical (hbuilt : PlacesBuilt tcx body)
    (hrun : runFwdAnalysis (abstractState tcx body) body fuel = .ok pState) :
    AssertionsHold body (fun _ => CanonicalPlaces tcx body)
      (fun _ _ => CanonicalPlaces tcx body) pState := by
  have h : InductiveAssertion (abstractState tcx body) body
      (fun _ => CanonicalPlaces tcx body) (fun _ _ => CanonicalPlaces tcx body) :=
    { entry := canonical_entryState
      joinEdge := fun _ => canonical_join
      statement := fun _ => canonical_of_statement hbuilt
      terminator := fun _ hbefore heffect => canonical_of_terminator hbuilt hbefore heffect
      join := canonical_join }
  exact h.run (fun _ => rfl) hrun

theorem join_subset_of_left (left right : DefInitPlaces Ty)
    (h : leafPlaces tcx body left ⊆ leaves) : leafPlaces tcx body (join left right) ⊆ leaves := by
  rw [leafPlaces_join]
  exact Set.inter_subset_left.trans h

theorem join_subset_of_right (left right : DefInitPlaces Ty)
    (h : leafPlaces tcx body right ⊆ leaves) :
    leafPlaces tcx body (join left right) ⊆ leaves := by
  rw [leafPlaces_join]
  exact Set.inter_subset_right.trans h

/-- The state on an edge is sound when the state before the terminator is. -/
theorem exists_lookupEdge (hbuilt : PlacesBuilt tcx body)
    (hrun : runFwdAnalysis (abstractState tcx body) body fuel = .ok pState)
    {bb : BasicBlock} {kind : TerminatorKind Ty} {edge : BasicBlock × Set (Place Ty)}
    (hplaces : pState.lookupBefore (body.terminatorLoc bb) = some places)
    (hsound : leafPlaces tcx body places ⊆ leaves) (hkind : body.terminator? bb = some kind)
    (hedge : edge ∈ executeTerminator tcx body leaves kind) :
    ∃ places', pState.lookupEdge bb edge.1 = some places' ∧
      leafPlaces tcx body places' ⊆ edge.2 := by
  have hcanonical := (recorded_canonical hbuilt hrun).before le_rfl hplaces
  have htarget : edge.1 ∈ body.successors bb := by
    rw [Body.successors_eq hkind]
    exact mem_successors_of_mem_terminatorEffect tcx body hedge
  have hsolution := runFwdAnalysis_isSolution (fun _ => rfl) hrun
  refine hsolution.edge_of_state (P := fun places => leafPlaces tcx body places ⊆ edge.2)
    join_subset_of_left join_subset_of_right htarget hplaces ?_
  intro nextStates heffect
  obtain ⟨kind', hkind', hdenotes⟩ := exists_terminator_of_ok hbuilt hcanonical heffect
  obtain rfl := Option.some_inj.mp (hkind.symm.trans hkind')
  have hle : List.Forall₂ _ _ (executeTerminator tcx body leaves kind) :=
    terminatorEffect_subset (fun _ => ∅) id hsound (fun _ => Set.empty_subset _) kind
  obtain ⟨edge', hedge', htarget', hsubset⟩ := exists_of_forall₂_mem_right hle hedge
  obtain ⟨next, hnext, hnextTarget, -, hleaves⟩ := exists_of_forall₂_mem_right hdenotes hedge'
  exact ⟨next, hnext, hnextTarget.trans htarget', hleaves.trans_subset hsubset⟩

/-- The state before every location that a path reaches is sound. -/
theorem Executes.exists_lookupBefore (hbuilt : PlacesBuilt tcx body)
    (hrun : runFwdAnalysis (abstractState tcx body) body fuel = .ok pState)
    {location : Location} (hpath : Executes tcx body MovesOnlyInAssignment location leaves) :
    ∃ places, pState.lookupBefore location = some places ∧ leafPlaces tcx body places ⊆ leaves := by
  have hsolution := runFwdAnalysis_isSolution (fun _ => rfl) hrun
  induction hpath with
  | start =>
    exact hsolution.before_start
      (P := fun places => leafPlaces tcx body places ⊆ argumentLeaves tcx body)
      join_subset_of_left leafPlaces_newInitial.subset
  | @statement bb idx leaves statement _ hstatement hcondition ih =>
    obtain ⟨places, hplaces, hsound⟩ := ih
    have hlt := (List.getElem?_eq_some_iff.mp hstatement).1
    have hblock := Body.lt_of_getElem?_statements hstatement
    have hcanonical := (recorded_canonical hbuilt hrun).before hlt.le hplaces
    obtain ⟨_, places', hbefore, heffect, hafter⟩ := hsolution.statement bb hblock idx hlt
    obtain rfl := Option.some_inj.mp (hbefore.symm.trans hplaces)
    obtain ⟨statement', hstatement', -, hleaves⟩ := exists_statement_of_ok hbuilt hcanonical heffect
    obtain rfl := Option.some_inj.mp (hstatement.symm.trans hstatement')
    refine ⟨places', hafter, hleaves.trans_subset ?_⟩
    exact (statementEffect_subset hsound statement).trans
      (statementEffect_subset_execute hcondition)
  | @edge bb next leaves leaves' kind _ hkind hedge ih =>
    obtain ⟨places, hplaces, hsound⟩ := ih
    obtain ⟨places', hplaces', hsound'⟩ := exists_lookupEdge hbuilt hrun hplaces hsound hkind hedge
    have htarget : next ∈ body.successors bb := by
      rw [Body.successors_eq hkind]
      exact mem_successors_of_mem_terminatorEffect tcx body hedge
    exact hsolution.before_of_edge (P := fun places => leafPlaces tcx body places ⊆ leaves')
      join_subset_of_left join_subset_of_right htarget hplaces' hsound'

/-- The analysis is sound along every path on which only assignments and terminators move
operands: every part of a place that is computed for a location or an edge is initialised
there. -/
theorem runFwdAnalysis_sound (hbuilt : PlacesBuilt tcx body)
    (hrun : runFwdAnalysis (abstractState tcx body) body fuel = .ok pState)
    {location : Location} (hpath : Executes tcx body MovesOnlyInAssignment location leaves) :
    (∃ places, pState.lookupBefore location = some places ∧
      ∀ place ∈ places, Initialised tcx body place leaves) ∧
    ∀ kind, location = body.terminatorLoc location.block →
      body.terminator? location.block = some kind →
        ∀ edge ∈ executeTerminator tcx body leaves kind,
          ∃ places, pState.lookupEdge location.block edge.1 = some places ∧
            ∀ place ∈ places, Initialised tcx body place edge.2 := by
  obtain ⟨places, hplaces, hsound⟩ := Executes.exists_lookupBefore hbuilt hrun hpath
  refine ⟨⟨places, hplaces, initialised_iff.mpr hsound⟩, ?_⟩
  intro kind hlocation hkind edge hedge
  rw [hlocation] at hplaces
  obtain ⟨places', hplaces', hsound'⟩ := exists_lookupEdge hbuilt hrun hplaces hsound hkind hedge
  exact ⟨places', hplaces', initialised_iff.mpr hsound'⟩

end Run

namespace Witness

/-- A temporary that holds a copy of the argument is moved into inline assembly. -/
def inlineAsmBody : Body Bool where
  basicBlocks := [
    ⟨[.storageLive 2, .assign ⟨2, []⟩ (.use (.copy ⟨1, []⟩)),
      .llvmInlineAsm [] [.move ⟨2, []⟩], .storageDead 2], .return⟩]
  localDecls := [false, false, false]
  argCount := 1
  startBlock_lt := by decide
  argCount_lt := by decide
  target_lt := by decide

theorem placesBuilt_inlineAsmBody : PlacesBuilt pairTcx inlineAsmBody := by
  have hroot : IsPlace pairTcx inlineAsmBody ⟨2, []⟩ := .ofLocal (by decide)
  refine ⟨?_, ?_⟩
  · intro bb statement hstatement
    match bb with
    | 0 =>
      have hplaces : ∀ place ∈ statementPlaces statement, place = ⟨2, []⟩ := by
        change statement ∈ [_, _, _, _] at hstatement
        rw [List.mem_cons, List.mem_cons, List.mem_cons, List.mem_singleton] at hstatement
        rcases hstatement with rfl | rfl | rfl | rfl <;> decide
      intro place hplace
      rw [hplaces place hplace]
      exact hroot
    | _ + 1 => cases hstatement
  · intro bb kind hkind
    match bb with
    | 0 =>
      obtain rfl := Option.some_inj.mp hkind
      exact fun place hplace => nomatch hplace
    | _ + 1 => cases hkind

theorem exists_run_inlineAsmBody :
    ∃ pState, runFwdAnalysis (abstractState pairTcx inlineAsmBody) inlineAsmBody 1 = .ok pState :=
  Stop.exists_of_isOk (by decide +kernel)

/-- The path that has copied the argument. -/
theorem executes_copy (condition : StatementKind Bool → Prop) (hlive : condition (.storageLive 2))
    (hassign : condition (.assign ⟨2, []⟩ (.use (.copy ⟨1, []⟩)))) :
    ∃ leaves, Executes pairTcx inlineAsmBody condition ⟨0, 2⟩ leaves :=
  ⟨_, .statement (.statement .start rfl hlive) rfl hassign⟩

theorem runFwdAnalysis_sound_copy :
    ∃ pState leaves, runFwdAnalysis (abstractState pairTcx inlineAsmBody) inlineAsmBody 1 =
        .ok pState ∧
      Executes pairTcx inlineAsmBody MovesOnlyInAssignment ⟨0, 2⟩ leaves ∧
      ∃ places, pState.lookupBefore ⟨0, 2⟩ = some places ∧
        ∀ place ∈ places, Initialised pairTcx inlineAsmBody place leaves := by
  obtain ⟨pState, hrun⟩ := exists_run_inlineAsmBody
  obtain ⟨leaves, hpath⟩ := executes_copy MovesOnlyInAssignment rfl rfl
  exact ⟨pState, leaves, hrun, hpath, (runFwdAnalysis_sound placesBuilt_inlineAsmBody hrun hpath).1⟩

/-- After the inline assembly the temporary is still in the set. -/
theorem not_sound_inlineAsm :
    PlacesBuilt pairTcx inlineAsmBody ∧ ∃ pState leaves places,
      runFwdAnalysis (abstractState pairTcx inlineAsmBody) inlineAsmBody 1 = .ok pState ∧
      Executes pairTcx inlineAsmBody (fun _ => True) ⟨0, 3⟩ leaves ∧
      pState.lookupBefore ⟨0, 3⟩ = some places ∧
      ∃ place ∈ places, ¬ Initialised pairTcx inlineAsmBody place leaves := by
  obtain ⟨pState, hrun⟩ := exists_run_inlineAsmBody
  obtain ⟨leaves, hpath⟩ := executes_copy (fun _ => True) trivial trivial
  have hlookup : ((runFwdAnalysis (abstractState pairTcx inlineAsmBody) inlineAsmBody
      1).toOption.bind fun pState => pState.lookupBefore ⟨0, 3⟩) =
        some {Place.ofLocal 1, Place.ofLocal 2} := by
    decide +kernel
  rw [hrun] at hlookup
  refine ⟨placesBuilt_inlineAsmBody, pState, _, _, hrun,
    .statement hpath rfl trivial, hlookup, Place.ofLocal 2, by decide, fun hinit => ?_⟩
  have hroot : IsPlace pairTcx inlineAsmBody (Place.ofLocal 2) := .ofLocal (by decide)
  have hchildren : placeChildren pairTcx inlineAsmBody (Place.ofLocal 2) = ∅ := by decide
  have hleaf := hinit (Place.ofLocal 2) ⟨hroot, hchildren⟩ (isPrefix_iff.mpr le_rfl)
  exact hleaf.2 le_rfl

end Witness

end DefinitelyInitializedState

end Prusti.Analysis

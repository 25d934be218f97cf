/-
The reaching definitions of every body: the forward analysis terminates, and what it
records is exact.
-/
import Prusti.Analysis.ReachingExactness

namespace Prusti.Analysis

open Prusti.Lib Prusti.Mir

universe u

variable {Ty : Type u} {body : Body Ty}

namespace ReachingDefsState

section Definitions

variable (body)

/-- The definitions that the statements and the terminator of a block make. -/
def blockDefinitions (bb : BasicBlock) : List (Local × DefLocation) :=
  (body.statements bb).zipIdx.filterMap (fun statement =>
    (assignedLocal statement.1).map fun root => (root, .assignment ⟨bb, statement.2⟩)) ++
  (body.terminator? bb).toList.flatMap fun kind =>
    (defEdges false kind).filterMap fun edge =>
      edge.assigned.map fun root => (root, .assignment (body.terminatorLoc bb))

def parameterDefinitions : List (Local × DefLocation) :=
  body.argsIter.zipIdx.map fun argument => (argument.1, .parameter argument.2)

/-- All definitions of a body. -/
def definitions : Finset (Local × DefLocation) :=
  (parameterDefinitions body ++
    (List.range body.basicBlocks.length).flatMap (blockDefinitions body)).toFinset

variable {body}

variable {bb : BasicBlock} {root : Local}

theorem mem_definitions_of_block {definition : Local × DefLocation}
    (hlt : bb < body.basicBlocks.length) (h : definition ∈ blockDefinitions body bb) :
    definition ∈ definitions body := by
  rw [definitions, List.mem_toFinset, List.mem_append]
  exact .inr (List.mem_flatMap.mpr ⟨bb, List.mem_range.mpr hlt, h⟩)

theorem parameter_mem_definitions {idx : Nat} (h : body.argsIter[idx]? = some root) :
    (root, .parameter idx) ∈ definitions body := by
  rw [definitions, List.mem_toFinset, List.mem_append]
  exact .inl (List.mem_map.mpr ⟨(root, idx), List.mem_zipIdx_iff_getElem?.mpr h, rfl⟩)

theorem statement_mem_definitions {idx : Nat} {statement : StatementKind Ty}
    (hstatement : (body.statements bb)[idx]? = some statement)
    (hassigned : assignedLocal statement = some root) :
    (root, .assignment ⟨bb, idx⟩) ∈ definitions body := by
  refine mem_definitions_of_block (Body.lt_of_getElem?_statements hstatement)
    (List.mem_append_left _ (List.mem_filterMap.mpr ⟨(statement, idx), ?_, ?_⟩))
  · exact List.mem_zipIdx_iff_getElem?.mpr hstatement
  · rw [hassigned, Option.map_some]

theorem terminator_mem_definitions {kind : TerminatorKind Ty} {edge : DefEdge}
    (hkind : body.terminator? bb = some kind) (hedge : edge ∈ defEdges false kind)
    (hassigned : edge.assigned = some root) :
    (root, .assignment (body.terminatorLoc bb)) ∈ definitions body := by
  have htarget : edge.target ∈ body.successors bb := by
    rw [Body.successors_eq hkind]
    exact target_mem_successors hedge
  refine mem_definitions_of_block (Body.lt_of_mem_successors htarget)
    (List.mem_append_right _ (List.mem_flatMap.mpr ⟨kind, ?_, ?_⟩))
  · rw [hkind]
    exact List.mem_singleton.mpr rfl
  · exact List.mem_filterMap.mpr ⟨edge, hedge, by rw [hassigned, Option.map_some]⟩

end Definitions

/-- The maps that occur in an analysis store no empty sets, and only definitions of the
body. -/
structure WellFormed (body : Body Ty) (defs : ReachingDefs) : Prop where
  nonempty : ∀ root sites, defs.lookup root = some sites → sites.Nonempty
  known : ∀ root, ∀ site ∈ defsOf defs root, (root, site) ∈ definitions body

section WellFormed

variable {defs other : ReachingDefs} {root : Local} {sites : Finset DefLocation}
  {location : Location}

theorem wellFormed_empty : WellFormed body ∅ where
  nonempty _ _ h := by cases h
  known _ _ h := absurd h (Finset.notMem_empty _)

theorem WellFormed.insert (hdefs : WellFormed body defs) (hnonempty : sites.Nonempty)
    (hknown : ∀ site ∈ sites, (root, site) ∈ definitions body) :
    WellFormed body (defs.insert root sites) where
  nonempty root' sites' h := by
    by_cases heq : root' = root
    · subst heq
      rw [Finmap.lookup_insert, Option.some_inj] at h
      rwa [← h]
    · rw [Finmap.lookup_insert_of_ne defs heq] at h
      exact hdefs.nonempty root' sites' h
  known root' site h := by
    rw [defsOf_insert] at h
    by_cases heq : root' = root
    · subst heq
      rw [if_pos rfl] at h
      exact hknown site h
    · rw [if_neg heq] at h
      exact hdefs.known root' site h

theorem WellFormed.extendDefs (hdefs : WellFormed body defs) (hnonempty : sites.Nonempty)
    (hknown : ∀ site ∈ sites, (root, site) ∈ definitions body) :
    WellFormed body (extendDefs defs root sites) := by
  refine hdefs.insert (hnonempty.mono Finset.subset_union_right) fun site hsite => ?_
  rcases Finset.mem_union.mp hsite with hsite | hsite
  · exact hdefs.known root site hsite
  · exact hknown site hsite

theorem WellFormed.assignDefs {target : Option Local} (hdefs : WellFormed body defs)
    (hknown : ∀ root, target = some root → (root, .assignment location) ∈ definitions body) :
    WellFormed body (assignDefs defs target location) := by
  cases target with
  | none => exact hdefs
  | some root =>
    refine hdefs.insert (Finset.singleton_nonempty _) fun site hsite => ?_
    obtain rfl := Finset.mem_singleton.mp hsite
    exact hknown root rfl

theorem WellFormed.mayAssignDefs {target : Option Local} (hdefs : WellFormed body defs)
    (hknown : ∀ root, target = some root → (root, .assignment location) ∈ definitions body) :
    WellFormed body (mayAssignDefs defs target location) := by
  cases target with
  | none => exact hdefs
  | some root =>
    refine hdefs.extendDefs (Finset.singleton_nonempty _) fun site hsite => ?_
    obtain rfl := Finset.mem_singleton.mp hsite
    exact hknown root rfl

/-- A loop that adds one nonempty set of definitions after the other. -/
theorem WellFormed.foldl_extendDefs {ι : Type} (key : ι → Local)
    (sites : ι → Finset DefLocation) {items : List ι} (hdefs : WellFormed body defs)
    (hnonempty : ∀ item ∈ items, (sites item).Nonempty)
    (hknown : ∀ item ∈ items, ∀ site ∈ sites item, (key item, site) ∈ definitions body) :
    WellFormed body
      (items.foldl (fun defs item => ReachingDefsState.extendDefs defs (key item) (sites item))
        defs) := by
  induction items generalizing defs with
  | nil => exact hdefs
  | cons item items ih =>
    rw [List.forall_mem_cons] at hnonempty hknown
    exact ih (hdefs.extendDefs hnonempty.1 hknown.1) hnonempty.2 hknown.2

theorem WellFormed.join (hdefs : WellFormed body defs) (hother : WellFormed body other) :
    WellFormed body (join defs other) := by
  induction other using Finmap.induction_on with
  | H entries =>
    rw [join_toFinmap]
    have hlookup : ∀ entry ∈ entries.entries,
        entries.toFinmap.lookup entry.1 = some entry.2 := fun entry hentry =>
      AList.mem_lookup_iff.mpr hentry
    refine hdefs.foldl_extendDefs (fun entry : Sigma fun _ : Local => Finset DefLocation =>
      entry.1) (fun entry => entry.2) ?_ ?_
    · exact fun entry hentry => hother.nonempty entry.1 entry.2 (hlookup entry hentry)
    · intro entry hentry site hsite
      refine hother.known entry.1 site ?_
      rw [defsOf, hlookup entry hentry]
      exact hsite

theorem wellFormed_newInitial : WellFormed body (newInitial body) := by
  refine wellFormed_empty.foldl_extendDefs Prod.fst (fun argument => {.parameter argument.2}) ?_ ?_
  · exact fun _ _ => Finset.singleton_nonempty _
  · intro argument hargument site hsite
    obtain rfl := Finset.mem_singleton.mp hsite
    exact parameter_mem_definitions (List.mem_zipIdx_iff_getElem?.mp hargument)

theorem wellFormed_entryState (bb : BasicBlock) :
    WellFormed body (entryState (abstractState body) bb) := by
  rw [entryState]
  split
  · exact wellFormed_newInitial
  · exact wellFormed_empty

/-- Without empty sets a map is determined by the sets of its locals. -/
theorem WellFormed.ext (hdefs : WellFormed body defs) (hother : WellFormed body other)
    (h : ∀ root, defsOf defs root = defsOf other root) : defs = other := by
  have hlookup : ∀ {defs : ReachingDefs}, WellFormed body defs → ∀ root,
      defs.lookup root = if defsOf defs root = ∅ then none else some (defsOf defs root) := by
    intro defs hdefs root
    rw [defsOf]
    cases hsites : defs.lookup root with
    | none => rfl
    | some sites => rw [Option.getD_some, if_neg (hdefs.nonempty root sites hsites).ne_empty]
  refine Finmap.ext_lookup fun root => ?_
  rw [hlookup hdefs, hlookup hother, h root]

end WellFormed

section Height

variable {left right : ReachingDefs}

/-- The number of definitions of a body that a map holds. -/
def definedCount (body : Body Ty) (defs : ReachingDefs) : Nat :=
  ((definitions body).filter fun definition => definition.2 ∈ defsOf defs definition.1).card

theorem definedCount_lt (hleft : WellFormed body left) (hright : WellFormed body right)
    (hle : ∀ root, defsOf left root ⊆ defsOf right root) (hne : left ≠ right) :
    definedCount body left < definedCount body right := by
  have hnot : ∃ root, ¬ defsOf right root ⊆ defsOf left root := by
    by_contra hall
    push Not at hall
    exact hne (hleft.ext hright fun root => (hle root).antisymm (hall root))
  obtain ⟨root, hroot⟩ := hnot
  obtain ⟨site, hsite, hmissing⟩ := Finset.not_subset.mp hroot
  refine Finset.card_lt_card (Finset.ssubset_iff_of_subset ?_ |>.mpr ⟨(root, site), ?_, ?_⟩)
  · intro definition hdefinition
    obtain ⟨hmem, hin⟩ := Finset.mem_filter.mp hdefinition
    exact Finset.mem_filter.mpr ⟨hmem, hle _ hin⟩
  · exact Finset.mem_filter.mpr ⟨hright.known root site hsite, hsite⟩
  · exact fun hmem => hmissing (Finset.mem_filter.mp hmem).2

theorem assignDefs_subset {target : Option Local} {location : Location}
    (hle : ∀ root, defsOf left root ⊆ defsOf right root) (root : Local) :
    defsOf (assignDefs left target location) root ⊆
      defsOf (assignDefs right target location) root := by
  intro site hsite
  rw [mem_assignDefs_iff] at hsite ⊢
  exact hsite.imp_right fun hkept => ⟨hkept.1, hle root hkept.2⟩

theorem edgeStates_le {location : Location} {kind : TerminatorKind Ty}
    (hle : ∀ root, defsOf left root ⊆ defsOf right root) :
    List.Forall₂ (fun next next' => next.1 = next'.1 ∧
      ∀ root, defsOf next.2 root ⊆ defsOf next'.2 root)
      (edgeStates left location kind) (edgeStates right location kind) := by
  rw [edgeStates, edgeStates, List.forall₂_map_left_iff, List.forall₂_map_right_iff,
    List.forall₂_same]
  refine fun edge _ => ⟨rfl, fun root site hsite => ?_⟩
  rw [mem_edgeState_iff] at hsite ⊢
  exact hsite.imp_right fun hkept => ⟨hkept.1, hle root hkept.2⟩

theorem wellFormed_edgeStates {bb : BasicBlock} {kind : TerminatorKind Ty}
    {defs : ReachingDefs} (hkind : body.terminator? bb = some kind) (hdefs : WellFormed body defs) :
    ∀ next ∈ edgeStates defs (body.terminatorLoc bb) kind, WellFormed body next.2 := by
  intro next hnext
  obtain ⟨edge, hedge, rfl⟩ := List.mem_map.mp hnext
  have hknown : ∀ root, edge.assigned = some root →
      (root, .assignment (body.terminatorLoc bb)) ∈ definitions body := fun _ =>
    terminator_mem_definitions hkind hedge
  change WellFormed body (if edge.certain then _ else _)
  split
  · exact hdefs.assignDefs hknown
  · exact hdefs.mayAssignDefs hknown

theorem applyTerminatorEffect_noPanic {bb : BasicBlock} {defs : ReachingDefs}
    (hlt : bb < body.basicBlocks.length) :
    Stop.NoPanic (applyTerminatorEffect body (body.terminatorLoc bb) defs) := by
  obtain ⟨kind, hkind⟩ : ∃ kind, body.terminator? (body.terminatorLoc bb).block = some kind :=
    Body.terminator?_eq_some hlt
  by_cases hasm : ∀ destination, kind ≠ .inlineAsm destination
  · rw [applyTerminatorEffect_eq hkind hasm]
    exact Stop.NoPanic.ok _
  · push Not at hasm
    obtain ⟨destination, rfl⟩ := hasm
    intro stop hstop
    rw [applyTerminatorEffect, hkind] at hstop
    exact ⟨_, (Except.error.inj hstop).symm⟩

end Height

/-- The domain is monotone and of finite height. -/
def finiteHeight (body : Body Ty) : FiniteHeight (abstractState body) body where
  Good := WellFormed body
  le left right := ∀ root, defsOf left root ⊆ defsOf right root
  rank := definedCount body
  height := (definitions body).card
  needToWiden _ := rfl
  good_entry := wellFormed_entryState
  good_join hleft hright := hleft.join hright
  good_statement hdefs h := by
    obtain ⟨statement, hstatement, rfl⟩ := exists_statement_of_ok h
    exact hdefs.assignDefs fun _ => statement_mem_definitions hstatement
  good_terminator hdefs h := by
    obtain ⟨kind, hkind, rfl⟩ := exists_terminator_of_ok h
    exact wellFormed_edgeStates hkind hdefs
  refl _ _ := Finset.Subset.rfl
  trans hfirst hsecond root := (hfirst root).trans (hsecond root)
  le_join_left _ _ root site hsite := mem_join_left root site _ _ hsite
  join_le_join _ _ _ _ hleft hright root site hsite :=
    mem_join_iff.mpr ((mem_join_iff.mp hsite).imp (fun h => hleft root h) fun h => hright root h)
  statement_le _ _ hle h h' := by
    obtain ⟨statement, hstatement, rfl⟩ := exists_statement_of_ok h
    obtain ⟨statement', hstatement', rfl⟩ := exists_statement_of_ok h'
    obtain rfl := Option.some_inj.mp (hstatement.symm.trans hstatement')
    exact assignDefs_subset hle
  terminator_le _ _ hle h h' := by
    obtain ⟨kind, hkind, rfl⟩ := exists_terminator_of_ok h
    obtain ⟨kind', hkind', rfl⟩ := exists_terminator_of_ok h'
    obtain rfl := Option.some_inj.mp (hkind.symm.trans hkind')
    exact edgeStates_le hle
  statement_noPanic {bb idx defs} hlt _ := by
    let location : Location := ⟨bb, idx⟩
    have hstatement : (body.statements location.block)[location.statementIndex]? =
        some (body.statements bb)[idx] := List.getElem?_eq_getElem hlt
    change Stop.NoPanic (applyStatementEffect body location defs)
    rw [applyStatementEffect_eq hstatement]
    exact Stop.NoPanic.ok _
  terminator_noPanic hlt _ := applyTerminatorEffect_noPanic hlt
  rank_le _ := Finset.card_filter_le _ _
  rank_lt := definedCount_lt

end ReachingDefsState

end Prusti.Analysis

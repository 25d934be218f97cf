/-
The reaching definitions that the forward analysis computes are exactly those with a
path to the point.
-/
import Prusti.Analysis.Paths
import Prusti.Analysis.Convergence
import Prusti.Analysis.DefPaths

namespace Prusti.Analysis

open Prusti.Mir

universe u

namespace ReachingDefsState

section Sets

variable {defs other : ReachingDefs} {root root' : Local} {site : DefLocation}
  {location : Location}

theorem mem_extendDefs_iff {sites : Finset DefLocation} :
    site ∈ defsOf (extendDefs defs root sites) root' ↔
      site ∈ defsOf defs root' ∨ root' = root ∧ site ∈ sites := by
  rw [extendDefs, defsOf_insert]
  by_cases heq : root' = root
  · subst heq
    simp
  · simp [heq]

theorem mem_assignDefs_iff {target : Option Local} :
    site ∈ defsOf (assignDefs defs target location) root ↔
      (target = some root ∧ site = .assignment location) ∨
        (target ≠ some root ∧ site ∈ defsOf defs root) := by
  cases target with
  | none => simp [assignDefs]
  | some root' =>
    rw [assignDefs, replaceDefs, defsOf_insert]
    by_cases heq : root = root'
    · subst heq
      simp
    · simp [heq, Ne.symm heq]

theorem mem_mayAssignDefs_iff {target : Option Local} :
    site ∈ defsOf (mayAssignDefs defs target location) root ↔
      (target = some root ∧ site = .assignment location) ∨ site ∈ defsOf defs root := by
  cases target with
  | none => simp [mayAssignDefs]
  | some root' =>
    rw [mayAssignDefs, mem_extendDefs_iff, Finset.mem_singleton, or_comm, Option.some_inj, eq_comm]

/-- A loop that adds one set after the other. -/
theorem mem_foldl_extendDefs_iff {ι : Type} (key : ι → Local)
    (sites : ι → Finset DefLocation) (items : List ι) :
    site ∈ defsOf (items.foldl (fun defs item => extendDefs defs (key item) (sites item)) defs)
        root ↔
      site ∈ defsOf defs root ∨ ∃ item ∈ items, key item = root ∧ site ∈ sites item := by
  induction items generalizing defs with
  | nil => simp
  | cons item items ih =>
    rw [List.foldl_cons, ih, mem_extendDefs_iff, or_assoc]
    simp [eq_comm]

theorem join_toFinmap (entries : AList fun _ : Local => Finset DefLocation) :
    join defs entries.toFinmap =
      entries.entries.foldl (fun defs entry => extendDefs defs entry.1 entry.2) defs := by
  unfold join Finmap.foldl
  rw [AList.toFinmap_entries, Multiset.coe_foldl]

theorem mem_join_iff :
    site ∈ defsOf (join defs other) root ↔ site ∈ defsOf defs root ∨ site ∈ defsOf other root := by
  induction other using Finmap.induction_on with
  | H entries =>
    rw [join_toFinmap, mem_foldl_extendDefs_iff (ι := Sigma fun _ : Local => Finset DefLocation)
      (fun entry => entry.1) fun entry => entry.2]
    refine or_congr_right ?_
    have hother : defsOf entries.toFinmap root = (entries.lookup root).getD ∅ := rfl
    rw [hother]
    constructor
    · rintro ⟨⟨root', sites⟩, hentry, rfl, hsite⟩
      rw [AList.mem_lookup_iff.mpr hentry]
      exact hsite
    · intro hsite
      cases hlookup : entries.lookup root with
      | none =>
        rw [hlookup] at hsite
        exact absurd hsite (Finset.notMem_empty site)
      | some sites =>
        rw [hlookup] at hsite
        exact ⟨⟨root, sites⟩, AList.mem_lookup_iff.mp hlookup, rfl, hsite⟩

theorem mem_newInitial_iff {Ty : Type u} {body : Body Ty} :
    site ∈ defsOf (newInitial body) root ↔
      ∃ idx, body.argsIter[idx]? = some root ∧ site = .parameter idx := by
  rw [newInitial, mem_foldl_extendDefs_iff Prod.fst fun argument => {.parameter argument.2}]
  have hempty : site ∉ defsOf ∅ root := Finset.notMem_empty site
  simp only [hempty, false_or, Finset.mem_singleton]
  constructor
  · rintro ⟨⟨root', idx⟩, hargument, rfl, rfl⟩
    exact ⟨idx, List.mem_zipIdx_iff_getElem?.mp hargument, rfl⟩
  · rintro ⟨idx, hargument, rfl⟩
    exact ⟨(root, idx), List.mem_zipIdx_iff_getElem?.mpr hargument, rfl, rfl⟩

end Sets

section Effects

variable {Ty : Type u} {body : Body Ty} {defs defs' : ReachingDefs} {root : Local}
  {site : DefLocation} {location : Location}

/-- A statement assigns its local. -/
theorem applyStatementEffect_eq {statement : StatementKind Ty}
    (hstatement : (body.statements location.block)[location.statementIndex]? = some statement) :
    applyStatementEffect body location defs =
      .ok (assignDefs defs (assignedLocal statement) location) := by
  rw [applyStatementEffect, hstatement]
  cases statement <;> rfl

theorem exists_statement_of_ok (h : applyStatementEffect body location defs = .ok defs') :
    ∃ statement, (body.statements location.block)[location.statementIndex]? = some statement ∧
      defs' = assignDefs defs (assignedLocal statement) location := by
  cases hstatement : (body.statements location.block)[location.statementIndex]? with
  | none =>
    rw [applyStatementEffect, hstatement] at h
    cases h
  | some statement =>
    rw [applyStatementEffect_eq hstatement] at h
    exact ⟨statement, rfl, (Except.ok.inj h).symm⟩

/-- The states on the edges of a terminator. -/
def edgeStates (defs : ReachingDefs) (location : Location) (kind : TerminatorKind Ty) :
    List (BasicBlock × ReachingDefs) :=
  (defEdges false kind).map fun edge =>
    (edge.target, if edge.certain then assignDefs defs edge.assigned location
      else mayAssignDefs defs edge.assigned location)

theorem applyTerminatorEffect_eq {kind : TerminatorKind Ty}
    (hkind : body.terminator? location.block = some kind)
    (hasm : ∀ destination, kind ≠ .inlineAsm destination) :
    applyTerminatorEffect body location defs = .ok (edgeStates defs location kind) := by
  rw [applyTerminatorEffect, hkind]
  cases kind with
  | inlineAsm destination => exact absurd rfl (hasm destination)
  | call func args destination cleanup =>
    simp only [edgeStates, defEdges, List.map_append, List.map_map]
    rfl
  | _ =>
    simp only [edgeStates, defEdges, List.map_map]
    rfl

theorem exists_terminator_of_ok {nextStates : List (BasicBlock × ReachingDefs)}
    (h : applyTerminatorEffect body location defs = .ok nextStates) :
    ∃ kind, body.terminator? location.block = some kind ∧
      nextStates = edgeStates defs location kind := by
  cases hkind : body.terminator? location.block with
  | none =>
    rw [applyTerminatorEffect, hkind] at h
    cases h
  | some kind =>
    refine ⟨kind, rfl, ?_⟩
    by_cases hasm : ∀ destination, kind ≠ .inlineAsm destination
    · rw [applyTerminatorEffect_eq hkind hasm] at h
      exact (Except.ok.inj h).symm
    · push Not at hasm
      obtain ⟨destination, rfl⟩ := hasm
      rw [applyTerminatorEffect, hkind] at h
      cases h

/-- A site is in the state on an edge when it is the terminator, or was there before and
is not redefined for certain. -/
theorem mem_edgeState_iff {edge : DefEdge} :
    site ∈ defsOf (if edge.certain then assignDefs defs edge.assigned location
        else mayAssignDefs defs edge.assigned location) root ↔
      (edge.assigned = some root ∧ site = .assignment location) ∨
        ((edge.certain = true → edge.assigned ≠ some root) ∧ site ∈ defsOf defs root) := by
  cases hcertain : edge.certain with
  | true => simp [mem_assignDefs_iff]
  | false => simp [mem_mayAssignDefs_iff]

end Effects

section Exactness

variable {Ty : Type u} {body : Body Ty}

/-- The assertion that all definitions of a state have a path to a point. -/
def AllReach (body : Body Ty) (point : Point) (defs : ReachingDefs) : Prop :=
  ∀ root site, site ∈ defsOf defs root → DefReaches body false root site point

theorem inductive_allReach :
    InductiveAssertion (abstractState body) body (fun location => AllReach body (.before location))
      (fun source target => AllReach body (.onEdge source target)) where
  entry bb root site hsite := by
    rw [entryState] at hsite
    by_cases hstart : bb = startBlock
    · rw [if_pos hstart] at hsite
      obtain ⟨idx, hargument, rfl⟩ := mem_newInitial_iff.mp hsite
      rw [hstart]
      exact .parameter hargument
    · rw [if_neg hstart] at hsite
      exact absurd hsite (Finset.notMem_empty site)
  joinEdge _ hbefore hedge root site hsite := by
    rcases mem_join_iff.mp hsite with hsite | hsite
    · exact hbefore root site hsite
    · exact .edge (hedge root site hsite)
  statement _ hbefore heffect root site hsite := by
    obtain ⟨statement, hstatement, rfl⟩ := exists_statement_of_ok heffect
    rcases mem_assignDefs_iff.mp hsite with ⟨hassigned, rfl⟩ | ⟨hkept, hsite⟩
    · exact .assignment hstatement hassigned
    · exact .statement (hbefore root site hsite) hstatement hkept
  terminator _ hbefore heffect next hnext root site hsite := by
    obtain ⟨kind, hkind, rfl⟩ := exists_terminator_of_ok heffect
    obtain ⟨edge, hedge, rfl⟩ := List.mem_map.mp hnext
    rcases mem_edgeState_iff.mp hsite with ⟨hassigned, rfl⟩ | ⟨hkept, hsite⟩
    · exact .destination hkind hedge hassigned
    · exact .terminator (hbefore root site hsite) hkind hedge hkept
  join hleft hright root site hsite := by
    rcases mem_join_iff.mp hsite with hsite | hsite
    · exact hleft root site hsite
    · exact hright root site hsite

/-- The recorded state at a point. -/
def lookupPoint (pState : PointwiseState ReachingDefs) : Point → Option ReachingDefs
  | .before location => pState.lookupBefore location
  | .onEdge source target => pState.lookupEdge source target

variable {pState : PointwiseState ReachingDefs} {fuel : Nat}

theorem mem_join_left (root : Local) (site : DefLocation) (left right : ReachingDefs)
    (h : site ∈ defsOf left root) : site ∈ defsOf (join left right) root :=
  mem_join_iff.mpr (.inl h)

theorem mem_join_right (root : Local) (site : DefLocation) (left right : ReachingDefs)
    (h : site ∈ defsOf right root) : site ∈ defsOf (join left right) root :=
  mem_join_iff.mpr (.inr h)

/-- What a terminator leaves in its states is in the recorded state on the edge. -/
theorem exists_lookupEdge (hsolution : IsSolution (abstractState body) body pState)
    {bb : BasicBlock} {kind : TerminatorKind Ty} {edge : DefEdge} {defs : ReachingDefs}
    {root : Local} {site : DefLocation}
    (hdefs : pState.lookupBefore (body.terminatorLoc bb) = some defs)
    (hkind : body.terminator? bb = some kind) (hedge : edge ∈ defEdges false kind)
    (hsite : (edge.assigned = some root ∧ site = .assignment (body.terminatorLoc bb)) ∨
      ((edge.certain = true → edge.assigned ≠ some root) ∧ site ∈ defsOf defs root)) :
    ∃ defs', pState.lookupEdge bb edge.target = some defs' ∧ site ∈ defsOf defs' root := by
  have htarget : edge.target ∈ body.successors bb := by
    rw [Body.successors_eq hkind]
    exact target_mem_successors hedge
  refine hsolution.edge_of_state (P := fun defs => site ∈ defsOf defs root)
    (mem_join_left root site) (mem_join_right root site) htarget hdefs ?_
  intro nextStates heffect
  obtain ⟨kind', hkind', rfl⟩ := exists_terminator_of_ok heffect
  obtain rfl := Option.some_inj.mp (hkind.symm.trans hkind')
  exact ⟨_, List.mem_map.mpr ⟨edge, hedge, rfl⟩, rfl, mem_edgeState_iff.mpr hsite⟩

/-- A definition with a path to a point is in the recorded state. -/
theorem exists_lookupPoint (hsolution : IsSolution (abstractState body) body pState)
    {root : Local} {site : DefLocation} {point : Point}
    (hpath : DefReaches body false root site point) :
    ∃ defs, lookupPoint pState point = some defs ∧ site ∈ defsOf defs root := by
  induction hpath with
  | @parameter idx hargument =>
    exact hsolution.before_start (P := fun defs => .parameter idx ∈ defsOf defs root)
      (mem_join_left root (.parameter idx)) (mem_newInitial_iff.mpr ⟨idx, hargument, rfl⟩)
  | @assignment bb idx statement hstatement hassigned =>
    have hlt := (List.getElem?_eq_some_iff.mp hstatement).1
    obtain ⟨defs, defs', -, heffect, hafter⟩ :=
      hsolution.statement bb (Body.lt_of_getElem?_statements hstatement) idx hlt
    obtain ⟨statement', hstatement', rfl⟩ := exists_statement_of_ok heffect
    obtain rfl := Option.some_inj.mp (hstatement.symm.trans hstatement')
    exact ⟨_, hafter, mem_assignDefs_iff.mpr (.inl ⟨hassigned, rfl⟩)⟩
  | @destination bb kind edge hkind hedge hassigned =>
    have htarget : edge.target ∈ body.successors bb := by
      rw [Body.successors_eq hkind]
      exact target_mem_successors hedge
    obtain ⟨defs, -, hdefs, -⟩ := hsolution.terminator bb (Body.lt_of_mem_successors htarget)
    exact exists_lookupEdge hsolution hdefs hkind hedge (.inl ⟨hassigned, rfl⟩)
  | @statement site bb idx statement _ hstatement hkept ih =>
    obtain ⟨defs, hdefs, hsite⟩ := ih
    have hlt := (List.getElem?_eq_some_iff.mp hstatement).1
    obtain ⟨_, defs', hbefore, heffect, hafter⟩ :=
      hsolution.statement bb (Body.lt_of_getElem?_statements hstatement) idx hlt
    obtain rfl := Option.some_inj.mp (hbefore.symm.trans hdefs)
    obtain ⟨statement', hstatement', rfl⟩ := exists_statement_of_ok heffect
    obtain rfl := Option.some_inj.mp (hstatement.symm.trans hstatement')
    exact ⟨_, hafter, mem_assignDefs_iff.mpr (.inr ⟨hkept, hsite⟩)⟩
  | terminator _ hkind hedge hkept ih =>
    obtain ⟨defs, hdefs, hsite⟩ := ih
    exact exists_lookupEdge hsolution hdefs hkind hedge (.inr ⟨hkept, hsite⟩)
  | @edge site source target h ih =>
    obtain ⟨defs, hdefs, hsite⟩ := ih
    exact hsolution.before_of_edge (P := fun defs => site ∈ defsOf defs root)
      (mem_join_left root site) (mem_join_right root site) h.mem_successors hdefs hsite

/-- The points of a body: before its statements and terminators, and on its edges. -/
def IsPoint (body : Body Ty) : Point → Prop
  | .before location => location.block < body.basicBlocks.length ∧
      location.statementIndex ≤ (body.statements location.block).length
  | .onEdge source target => target ∈ body.successors source

/-- Every point of a body has a recorded state. -/
theorem exists_recorded {domain : AbstractState ReachingDefs}
    (hsolution : IsSolution domain body pState) {point : Point} (hpoint : IsPoint body point) :
    ∃ defs, lookupPoint pState point = some defs := by
  cases point with
  | before location =>
    obtain ⟨bb, idx⟩ := location
    cases idx with
    | zero =>
      obtain ⟨_, -, hbefore⟩ := hsolution.entry bb hpoint.1
      exact ⟨_, hbefore⟩
    | succ idx =>
      obtain ⟨_, defs, -, -, hafter⟩ := hsolution.statement bb hpoint.1 idx hpoint.2
      exact ⟨defs, hafter⟩
  | onEdge source target =>
    obtain ⟨_, _, _, _, hedges⟩ := hsolution.terminator source (Body.lt_of_mem_successors hpoint)
    obtain ⟨defs, -, hdefs⟩ := hedges target hpoint
    exact ⟨defs, hdefs⟩

/-- The states that a run records are exact. -/
theorem recorded_exact (hrun : runFwdAnalysis (abstractState body) body fuel = .ok pState)
    {point : Point} (hpoint : IsPoint body point) :
    ∃ defs, lookupPoint pState point = some defs ∧
      ∀ root site, site ∈ defsOf defs root ↔ DefReaches body false root site point := by
  have hsolution := runFwdAnalysis_isSolution (fun _ => rfl) hrun
  have hassertions := inductive_allReach.run (fun _ => rfl) hrun
  obtain ⟨defs, hdefs⟩ := exists_recorded hsolution hpoint
  refine ⟨defs, hdefs, fun root site => ⟨?_, fun hpath => ?_⟩⟩
  · cases point with
    | before location => exact hassertions.before hpoint.2 hdefs root site
    | onEdge source target => exact hassertions.edge hpoint hdefs root site
  · obtain ⟨defs', hdefs', hsite⟩ := exists_lookupPoint hsolution hpath
    rwa [Option.some_inj.mp (hdefs.symm.trans hdefs')]

end Exactness

end ReachingDefsState

end Prusti.Analysis

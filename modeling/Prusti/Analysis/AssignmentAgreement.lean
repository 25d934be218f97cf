/-
The two analyses of reaching assignments: they differ in what a call does to its
destination on the error edge, and the bodies on which they agree are characterized.
-/
import Prusti.Analysis.LivenessExactness
import Prusti.Analysis.ReachingExactness

namespace Prusti.Analysis

open Prusti.Lib Prusti.Mir
open LivenessAnalysis

universe u

section Agreement

variable {Ty : Type u} {body : Body Ty}

/-- Before every location, which is before a block or after a statement, both analyses
report the same assignments. -/
def AssignmentsAgree (body : Body Ty) (result : AnalysisResult AssignmentSet)
    (pState : PointwiseState ReachingDefs) : Prop :=
  ∀ location, IsLocation body location → ∃ set defs,
    getSetBeforeStatement result location = some set ∧
      pState.lookupBefore location = some defs ∧
      ∀ root site, ⟨root, site⟩ ∈ set ↔ .assignment site ∈ ReachingDefsState.defsOf defs root

/-- Every other assignment to the destination of a call that reaches the call also
reaches the cleanup block along a path on which no call that assigns the local unwinds. -/
def KeptByOtherPath (body : Body Ty) : Prop :=
  ∀ bb func args place next cleanup root site,
    body.terminator? bb = some (.call func args (some (place, next)) (some cleanup)) →
      place.asLocal = some root → site ≠ body.terminatorLoc bb →
        DefReaches body false root (.assignment site) (.before (body.terminatorLoc bb)) →
          DefReaches body true root (.assignment site) (.before ⟨cleanup, 0⟩)

/-- The edges have the same targets and assign the same locals in either case. -/
theorem exists_mem_defEdges {certainOnError : Bool} (certainOnError' : Bool)
    {kind : TerminatorKind Ty} {edge : DefEdge} (h : edge ∈ defEdges certainOnError kind) :
    ∃ edge' ∈ defEdges certainOnError' kind, edge'.target = edge.target ∧
      edge'.assigned = edge.assigned := by
  cases kind with
  | call func args destination cleanup =>
    rcases List.mem_append.mp h with hreturned | hfailed
    · exact ⟨edge, List.mem_append_left _ hreturned, rfl, rfl⟩
    · obtain ⟨bb, hbb, rfl⟩ := List.mem_map.mp hfailed
      exact ⟨_, List.mem_append_right _ (List.mem_map.mpr ⟨bb, hbb, rfl⟩), rfl, rfl⟩
  | _ => exact ⟨edge, h, rfl, rfl⟩

/-- A local is possibly assigned on the error edge of a call only. -/
theorem exists_call_of_uncertain {kind : TerminatorKind Ty} {edge : DefEdge} {root : Local}
    (h : edge ∈ defEdges false kind) (hassigned : edge.assigned = some root)
    (hcertain : edge.certain = false) :
    ∃ func args place next cleanup, kind = .call func args (some (place, next)) (some cleanup) ∧
      place.asLocal = some root ∧ edge.target = cleanup := by
  cases kind with
  | call func args destination cleanup =>
    rcases List.mem_append.mp h with hreturned | hfailed
    · obtain ⟨dest, -, rfl⟩ := List.mem_map.mp hreturned
      cases hcertain
    · obtain ⟨bb, hbb, rfl⟩ := List.mem_map.mp hfailed
      obtain rfl := Option.mem_toList.mp hbb
      obtain ⟨⟨place, next⟩, rfl, hplace⟩ := Option.bind_eq_some_iff.mp hassigned
      exact ⟨func, args, place, next, bb, rfl, hplace, rfl⟩
  | _ =>
    obtain ⟨bb, -, rfl⟩ := List.mem_map.mp h
    cases hassigned

theorem errorEdge_mem (func : Operand Ty) (args : List (Operand Ty)) (place : Place Ty)
    (next cleanup : BasicBlock) (certainOnError : Bool) :
    ⟨cleanup, place.asLocal, certainOnError⟩ ∈
      defEdges certainOnError (.call func args (some (place, next)) (some cleanup)) :=
  List.mem_append_right _ (List.mem_singleton.mpr rfl)

/-- The point at the end of an edge. -/
def Point.target : Point → Point
  | .before location => .before location
  | .onEdge _ target => .before ⟨target, 0⟩

/-- On a path on which a call unwinds there is another one, or the call is the site. -/
theorem KeptByOtherPath.reaches (hkeeps : KeptByOtherPath body) {root : Local}
    {site : Location} {point : Point} (h : DefReaches body false root (.assignment site) point) :
    DefReaches body true root (.assignment site) point.target := by
  generalize hdef : DefLocation.assignment site = defSite at h
  induction h with
  | parameter harg => exact .parameter harg
  | assignment hstatement hassigned => exact .assignment hstatement hassigned
  | destination hkind hedge hassigned =>
    obtain ⟨edge', hedge', htarget, hassigned'⟩ := exists_mem_defEdges true hedge
    rw [Point.target, ← htarget]
    exact .edge (.destination hkind hedge' (hassigned'.trans hassigned))
  | statement _ hstatement hkept ih => exact .statement (ih hdef) hstatement hkept
  | @terminator defSite bb kind edge hbefore hkind hedge hkept ih =>
    obtain ⟨edge', hedge', htarget, hassigned'⟩ := exists_mem_defEdges true hedge
    by_cases hassigned : edge.assigned = some root
    · have hcertain : edge.certain = false := by
        rw [← Bool.not_eq_true]
        exact fun hcertain => hkept hcertain hassigned
      by_cases hsite : site = body.terminatorLoc bb
      · rw [Point.target, ← htarget, ← hdef, hsite]
        exact .edge (.destination hkind hedge' (hassigned'.trans hassigned))
      · obtain ⟨func, args, place, next, cleanup, rfl, hplace, hcleanup⟩ :=
          exists_call_of_uncertain hedge hassigned hcertain
        subst hdef
        rw [Point.target, hcleanup]
        exact hkeeps bb func args place next cleanup root site hkind hplace hsite hbefore
    · rw [Point.target, ← htarget]
      exact .edge (.terminator (ih hdef) hkind hedge' fun _ => hassigned'.trans_ne hassigned)
  | edge _ ih => exact ih hdef

/-- A path on which calls assign for certain is one on which they possibly assign. -/
theorem reaches_of_certain {root : Local} {site : DefLocation} {point : Point}
    (h : DefReaches body true root site point) :
    DefReaches body false root site point.target := by
  induction h with
  | parameter harg => exact .parameter harg
  | assignment hstatement hassigned => exact .assignment hstatement hassigned
  | destination hkind hedge hassigned =>
    obtain ⟨edge', hedge', htarget, hassigned'⟩ := exists_mem_defEdges false hedge
    rw [Point.target, ← htarget]
    exact .edge (.destination hkind hedge' (hassigned'.trans hassigned))
  | statement _ hstatement hkept ih => exact .statement ih hstatement hkept
  | @terminator defSite bb kind edge _ hkind hedge hkept ih =>
    obtain ⟨edge', hedge', htarget, hassigned'⟩ := exists_mem_defEdges false hedge
    have hne : edge.assigned ≠ some root := fun heq =>
      hkept ((assigned_of_mem_defEdges hedge).2 (heq ▸ Option.some_ne_none _)) heq
    rw [Point.target, ← htarget]
    exact .edge (.terminator ih hkind hedge' fun _ => hassigned'.trans_ne hne)
  | edge _ ih => exact ih

/-- The analyses agree on a body, before every block and after every statement, if and
only if what a call may leave unassigned is kept by another path. -/
theorem assignmentsAgree_iff {result : AnalysisResult AssignmentSet} {fuel : Nat}
    {pState : PointwiseState ReachingDefs} (hliveness : computeLiveness body = some result)
    (hreaching : runFwdAnalysis (ReachingDefsState.abstractState body) body fuel = .ok pState) :
    AssignmentsAgree body result pState ↔ KeptByOtherPath body := by
  have hpoints : ∀ location, IsLocation body location → ∃ set defs,
      getSetBeforeStatement result location = some set ∧
        pState.lookupBefore location = some defs ∧
        (∀ root site, ⟨root, site⟩ ∈ set ↔
          DefReaches body true root (.assignment site) (.before location)) ∧
        ∀ root site, .assignment site ∈ ReachingDefsState.defsOf defs root ↔
          DefReaches body false root (.assignment site) (.before location) := by
    intro location hloc
    obtain ⟨set, hset, hexact⟩ := computeLiveness_exact hliveness hloc
    have hpoint : ReachingDefsState.IsPoint body (.before location) := hloc
    obtain ⟨defs, hdefs, hexact'⟩ := ReachingDefsState.recorded_exact hreaching hpoint
    exact ⟨set, defs, hset, hdefs, fun root site => hexact ⟨root, site⟩,
      fun root site => hexact' root (.assignment site)⟩
  constructor
  · intro hagree bb func args place next cleanup root site hkind hplace _ hbefore
    have hedge := errorEdge_mem func args place next cleanup false
    have hcleanup : DefReaches body false root (.assignment site) (.before ⟨cleanup, 0⟩) :=
      .edge (.terminator hbefore hkind hedge fun hcertain => nomatch hcertain)
    have hloc : IsLocation body ⟨cleanup, 0⟩ := by
      have hsuccessor : cleanup ∈ body.successors bb := by
        rw [Body.successors_eq hkind]
        exact target_mem_successors hedge
      exact ⟨Body.target_lt_of_mem_successors hsuccessor, Nat.zero_le _⟩
    obtain ⟨set, defs, hset, hdefs, hexact, hexact'⟩ := hpoints _ hloc
    obtain ⟨set', defs', hset', hdefs', hsame⟩ := hagree _ hloc
    obtain rfl := Option.some_inj.mp (hset.symm.trans hset')
    obtain rfl := Option.some_inj.mp (hdefs.symm.trans hdefs')
    rwa [← hexact, hsame, hexact']
  · intro hkeeps location hloc
    obtain ⟨set, defs, hset, hdefs, hexact, hexact'⟩ := hpoints location hloc
    refine ⟨set, defs, hset, hdefs, fun root site => ?_⟩
    rw [hexact, hexact']
    exact ⟨reaches_of_certain, hkeeps.reaches⟩

end Agreement

namespace Witness

/-- `loop { let x = if c { 5 } else { g() }; }` where the call of `g` may unwind. -/
def recomputeBody : Body Unit where
  basicBlocks := [⟨[], .goto 1⟩, ⟨[], .switchInt .constant [2, 3]⟩,
    ⟨[.assign ⟨1, []⟩ (.use .constant)], .goto 1⟩,
    ⟨[], .call .constant [] (some (⟨1, []⟩, 1)) (some 4)⟩, ⟨[], .resume⟩]
  localDecls := [(), ()]
  argCount := 0
  startBlock_lt := by decide
  argCount_lt := by decide
  target_lt := by decide

theorem computeLiveness_recomputeBody :
    (computeLiveness recomputeBody).bind (getSetBeforeStatement · ⟨4, 0⟩) = some {⟨1, ⟨3, 0⟩⟩} := by
  decide +kernel

theorem runFwdAnalysis_recomputeBody :
    (runFwdAnalysis (ReachingDefsState.abstractState recomputeBody) recomputeBody
      12).toOption.bind (fun pState =>
        (pState.lookupBefore ⟨4, 0⟩).map (ReachingDefsState.defsOf · 1)) =
      some {.assignment ⟨2, 0⟩, .assignment ⟨3, 0⟩} := by
  decide +kernel

theorem exists_results_recomputeBody :
    ∃ result pState, computeLiveness recomputeBody = some result ∧
      runFwdAnalysis (ReachingDefsState.abstractState recomputeBody) recomputeBody 12 = .ok pState ∧
      getSetBeforeStatement result ⟨4, 0⟩ = some {⟨1, ⟨3, 0⟩⟩} ∧
      (pState.lookupBefore ⟨4, 0⟩).map (ReachingDefsState.defsOf · 1) =
        some {.assignment ⟨2, 0⟩, .assignment ⟨3, 0⟩} := by
  obtain ⟨result, hresult, hset⟩ := Option.bind_eq_some_iff.mp computeLiveness_recomputeBody
  obtain ⟨pState, hpState, hdefs⟩ := Option.bind_eq_some_iff.mp runFwdAnalysis_recomputeBody
  exact ⟨result, pState, hresult, Stop.toOption_eq_some_iff.mp hpState, hset, hdefs⟩

/-- The constant is still there when the call of the next round unwinds, and only the
reaching definitions report it. -/
theorem not_assignmentsAgree_recomputeBody :
    ∃ result pState, computeLiveness recomputeBody = some result ∧
      runFwdAnalysis (ReachingDefsState.abstractState recomputeBody) recomputeBody 12 =
        .ok pState ∧ ¬ AssignmentsAgree recomputeBody result pState := by
  obtain ⟨result, pState, hresult, hpState, hset, hdefs⟩ := exists_results_recomputeBody
  refine ⟨result, pState, hresult, hpState, fun hagree => ?_⟩
  obtain ⟨set, defs, hset', hdefs', hsame⟩ := hagree ⟨4, 0⟩ ⟨by decide, by decide⟩
  rw [hdefs', Option.map_some, Option.some_inj] at hdefs
  obtain rfl := Option.some_inj.mp (hset.symm.trans hset')
  have hmem := (hsame 1 ⟨2, 0⟩).mpr (by rw [hdefs]; decide)
  exact absurd hmem (by decide)

theorem assignmentsAgree_iff_recomputeBody :
    ∃ result pState, computeLiveness recomputeBody = some result ∧
      runFwdAnalysis (ReachingDefsState.abstractState recomputeBody) recomputeBody 12 = .ok pState ∧
      (AssignmentsAgree recomputeBody result pState ↔ KeptByOtherPath recomputeBody) := by
  obtain ⟨result, pState, hresult, hpState, -⟩ := exists_results_recomputeBody
  exact ⟨result, pState, hresult, hpState, assignmentsAgree_iff hresult hpState⟩

end Witness

end Prusti.Analysis

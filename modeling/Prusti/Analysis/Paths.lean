/-
How to reason about the recorded states of a forward analysis: what every state
satisfies because the effects and joins keep it, and what a solution of the dataflow
equations carries along an edge.
-/
import Prusti.Lib.Lists
import Prusti.Analysis.Solution

namespace Prusti.Analysis

open Prusti.Lib Prusti.Mir

universe u v

variable {Ty : Type u} {S : Type v} {domain : AbstractState S} {body : Body Ty}

section Assertions

/-- Assertions about the states before the locations and on the edges that the effects
and joins keep. -/
structure InductiveAssertion (domain : AbstractState S) (body : Body Ty)
    (holdsBefore : Location → S → Prop)
    (holdsOnEdge : BasicBlock → BasicBlock → S → Prop) : Prop where
  entry : ∀ bb, holdsBefore ⟨bb, 0⟩ (entryState domain bb)
  joinEdge : ∀ {pred bb state incoming}, bb ∈ body.successors pred →
    holdsBefore ⟨bb, 0⟩ state → holdsOnEdge pred bb incoming →
      holdsBefore ⟨bb, 0⟩ (domain.join state incoming)
  statement : ∀ {bb idx state state'}, idx < (body.statements bb).length →
    holdsBefore ⟨bb, idx⟩ state → domain.applyStatementEffect ⟨bb, idx⟩ state = .ok state' →
      holdsBefore ⟨bb, idx + 1⟩ state'
  terminator : ∀ {bb state nextStates}, bb < body.basicBlocks.length →
    holdsBefore (body.terminatorLoc bb) state →
      domain.applyTerminatorEffect (body.terminatorLoc bb) state = .ok nextStates →
        ∀ next ∈ nextStates, holdsOnEdge bb next.1 next.2
  join : ∀ {source target left right}, holdsOnEdge source target left →
    holdsOnEdge source target right → holdsOnEdge source target (domain.join left right)

/-- All recorded states satisfy their assertions. -/
structure AssertionsHold (body : Body Ty) (holdsBefore : Location → S → Prop)
    (holdsOnEdge : BasicBlock → BasicBlock → S → Prop) (pState : PointwiseState S) :
    Prop where
  before : ∀ {bb idx state}, idx ≤ (body.statements bb).length →
    pState.lookupBefore ⟨bb, idx⟩ = some state → holdsBefore ⟨bb, idx⟩ state
  edge : ∀ {source target state}, target ∈ body.successors source →
    pState.lookupEdge source target = some state → holdsOnEdge source target state

variable {holdsBefore : Location → S → Prop}
  {holdsOnEdge : BasicBlock → BasicBlock → S → Prop}

theorem InductiveAssertion.joinAll (h : InductiveAssertion domain body holdsBefore holdsOnEdge)
    {nextStates : List (BasicBlock × S)} {source target : BasicBlock} {joined : S}
    (hnext : ∀ next ∈ nextStates, holdsOnEdge source next.1 next.2)
    (hjoined : joinAll domain (statesFor nextStates target) = some joined) :
    holdsOnEdge source target joined := by
  have hstates : ∀ state ∈ statesFor nextStates target, holdsOnEdge source target state := by
    intro state hstate
    obtain ⟨next, hmem, rfl⟩ := List.mem_map.mp hstate
    obtain ⟨hmem, htarget⟩ := List.mem_filter.mp hmem
    rw [← of_decide_eq_true htarget]
    exact hnext next hmem
  generalize statesFor nextStates target = states at hstates hjoined
  induction states using List.reverseRecOn generalizing joined with
  | nil => cases hjoined
  | append_singleton states state ih =>
    simp only [List.mem_append, List.mem_singleton] at hstates
    rw [joinAll_concat, Option.some_inj] at hjoined
    subst hjoined
    cases hrest : Prusti.Analysis.joinAll domain states with
    | none => exact hstates state (.inr rfl)
    | some joined =>
      exact h.join (ih (fun other hother => hstates other (.inl hother)) hrest)
        (hstates state (.inr rfl))

/-- A round keeps the assertions. -/
theorem Round.assertionsHold {before after : Iteration S} {bb : BasicBlock}
    (hround : Round domain body before after bb)
    (h : InductiveAssertion domain body holdsBefore holdsOnEdge)
    (hold : AssertionsHold body holdsBefore holdsOnEdge before.pState) :
    AssertionsHold body holdsBefore holdsOnEdge after.pState := by
  have hentry : ∀ state, stateBeforeBlock domain body before.pState bb = .ok state →
      holdsBefore ⟨bb, 0⟩ state := by
    intro state hstate
    refine Stop.foldlM_inv (fun _ state => holdsBefore ⟨bb, 0⟩ state) _ [] _ state
      (h.entry bb) ?_ hstate
    intro front pred back current next hsplit hcurrent hnext
    have hpred : bb ∈ body.successors pred := by
      rw [← Body.mem_predecessors_iff, ← List.nil_append (body.predecessors bb), hsplit]
      exact List.mem_append_right _ List.mem_cons_self
    rw [joinIncoming] at hnext
    cases hstates : before.pState.lookupAfterBlock pred with
    | none =>
      simp only [hstates, pure_eq_ok_iff] at hnext
      rwa [← hnext]
    | some states =>
      simp only [hstates, bind_eq_ok_iff, Stop.orPanic_eq_ok_iff, pure_eq_ok_iff] at hnext
      obtain ⟨incoming, hincoming, rfl⟩ := hnext
      refine h.joinEdge hpred hcurrent (hold.edge hpred ?_)
      rw [PointwiseState.lookupEdge, hstates]
      exact hincoming
  have hbefore : ∀ idx ≤ (body.statements bb).length, ∀ state,
      after.pState.lookupBefore ⟨bb, idx⟩ = some state → holdsBefore ⟨bb, idx⟩ state := by
    intro idx
    induction idx with
    | zero =>
      intro _ state hstate
      obtain ⟨first, hfirst, hrecorded⟩ := hround.entry
      obtain rfl := Option.some_inj.mp (hrecorded.symm.trans hstate)
      exact hentry first hfirst
    | succ idx ih =>
      intro hidx state hstate
      obtain ⟨previous, following, hprevious, heffect, hfollowing⟩ := hround.statement idx hidx
      obtain rfl := Option.some_inj.mp (hfollowing.symm.trans hstate)
      exact h.statement hidx (ih (by omega) previous hprevious) heffect
  refine ⟨?_, ?_⟩
  · intro block idx state hidx hstate
    by_cases heq : block = bb
    · subst heq
      exact hbefore idx hidx state hstate
    · rw [hround.before_ne ⟨block, idx⟩ heq] at hstate
      exact hold.before hidx hstate
  · intro source target state htarget hstate
    by_cases heq : source = bb
    · subst heq
      obtain ⟨last, nextStates, hlast, heffect, hedges⟩ := hround.terminator
      obtain ⟨joined, hjoined, hrecorded⟩ := hedges target htarget
      obtain rfl := Option.some_inj.mp (hrecorded.symm.trans hstate)
      refine h.joinAll ?_ hjoined
      exact h.terminator hround.lt (hbefore _ le_rfl last hlast) heffect
    · rw [PointwiseState.lookupEdge, hround.after_ne source heq] at hstate
      exact hold.edge htarget hstate

/-- The rule for assertions: those that the effects and joins keep hold of every
recorded state. -/
theorem InductiveAssertion.run [DecidableEq S]
    (h : InductiveAssertion domain body holdsBefore holdsOnEdge)
    (hwiden : ∀ counter, domain.needToWiden counter = false) {fuel : Nat}
    {pState : PointwiseState S} (hrun : runFwdAnalysis domain body fuel = .ok pState) :
    AssertionsHold body holdsBefore holdsOnEdge pState := by
  obtain ⟨last, hlast, -, rfl⟩ := iterate_inv
    (fun iteration => AssertionsHold body holdsBefore holdsOnEdge iteration.pState)
    (fun before after bb _ hold hround =>
      (processBlock_spec hwiden hround).assertionsHold h hold)
    (by constructor <;> exact fun _ hstate => nomatch hstate) hrun
  exact hlast

end Assertions

section Along

variable {pState : PointwiseState S} {P : S → Prop}

theorem foldl_join_of_start (hleft : ∀ left right, P left → P (domain.join left right))
    (states : List S) {state : S} (h : P state) : P (states.foldl domain.join state) := by
  induction states generalizing state with
  | nil => exact h
  | cons first states ih => exact ih (hleft state first h)

theorem foldl_join_of_mem (hleft : ∀ left right, P left → P (domain.join left right))
    (hright : ∀ left right, P right → P (domain.join left right))
    {states : List S} {other : S} (hmem : other ∈ states) (h : P other) (state : S) :
    P (states.foldl domain.join state) := by
  induction states generalizing state with
  | nil => cases hmem
  | cons first states ih =>
    rcases List.mem_cons.mp hmem with rfl | hmem
    · exact foldl_join_of_start hleft states (hright state other h)
    · exact ih hmem _

section

variable (h : IsSolution domain body pState)
  (hleft : ∀ left right, P left → P (domain.join left right))

include h hleft

/-- The facts about the initial state that joins keep hold before the start block. -/
theorem IsSolution.before_start (hfact : P domain.newInitial) :
    ∃ state, pState.lookupBefore ⟨startBlock, 0⟩ = some state ∧ P state := by
  obtain ⟨incoming, -, hbefore⟩ := h.entry startBlock body.startBlock_lt
  exact ⟨_, hbefore, foldl_join_of_start hleft incoming (by rwa [entryState, if_pos rfl])⟩

/-- A fact that joins keep on both sides passes from an edge to the block behind it. -/
theorem IsSolution.before_of_edge (hright : ∀ left right, P right → P (domain.join left right))
    {source target : BasicBlock} {state : S} (htarget : target ∈ body.successors source)
    (hstate : pState.lookupEdge source target = some state) (hfact : P state) :
    ∃ state', pState.lookupBefore ⟨target, 0⟩ = some state' ∧ P state' := by
  obtain ⟨incoming, hincoming, hbefore⟩ := h.entry target (Body.target_lt_of_mem_successors htarget)
  obtain ⟨other, hmem, hother⟩ :=
    exists_of_forall₂_mem hincoming (Body.mem_predecessors_iff.mpr htarget)
  obtain rfl := Option.some_inj.mp (hstate.symm.trans hother)
  exact ⟨_, hbefore, foldl_join_of_mem hleft hright hmem hfact _⟩

/-- A fact about one of the states for a successor holds on the edge to it. -/
theorem IsSolution.edge_of_state (hright : ∀ left right, P right → P (domain.join left right))
    {source target : BasicBlock} {state : S} (htarget : target ∈ body.successors source)
    (hbefore : pState.lookupBefore (body.terminatorLoc source) = some state)
    (hfact : ∀ nextStates,
      domain.applyTerminatorEffect (body.terminatorLoc source) state = .ok nextStates →
        ∃ next ∈ nextStates, next.1 = target ∧ P next.2) :
    ∃ state', pState.lookupEdge source target = some state' ∧ P state' := by
  obtain ⟨last, nextStates, hlast, heffect, hedges⟩ :=
    h.terminator source (Body.lt_of_mem_successors htarget)
  obtain rfl := Option.some_inj.mp (hlast.symm.trans hbefore)
  obtain ⟨joined, hjoined, hedge⟩ := hedges target htarget
  obtain ⟨next, hmem, rfl, hnext⟩ := hfact nextStates heffect
  refine ⟨joined, hedge, ?_⟩
  have hstate : next.2 ∈ statesFor nextStates next.1 :=
    List.mem_map.mpr ⟨next, List.mem_filter.mpr ⟨hmem, decide_eq_true rfl⟩, rfl⟩
  generalize statesFor nextStates next.1 = states at hjoined hstate
  cases states with
  | nil => cases hstate
  | cons first states =>
    cases hjoined
    rcases List.mem_cons.mp hstate with rfl | hstate
    · exact foldl_join_of_start hleft states hnext
    · exact foldl_join_of_mem hleft hright hstate hnext first

end

end Along

end Prusti.Analysis

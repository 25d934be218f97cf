/-
The recorded states of a forward analysis that returns solve the dataflow equations.
-/
import Prusti.Analysis.Rounds

namespace Prusti.Analysis

open Prusti.Lib Prusti.Mir

universe u v

variable {Ty : Type u} {S : Type v}

section Equations

variable (domain : AbstractState S) (body : Body Ty)

/-- The dataflow equations: the state before a block is the join of what it starts with
and the states on its incoming edges, and the other states follow from it by the effects
of the statements and of the terminator. -/
structure IsSolution (pState : PointwiseState S) : Prop where
  entry : ∀ bb < body.basicBlocks.length, ∃ incoming : List S,
    List.Forall₂ (fun pred state => pState.lookupEdge pred bb = some state)
      (body.predecessors bb) incoming ∧
    pState.lookupBefore ⟨bb, 0⟩ = some (incoming.foldl domain.join (entryState domain bb))
  statement : ∀ bb < body.basicBlocks.length, ∀ idx < (body.statements bb).length,
    StatementEquation domain pState ⟨bb, idx⟩
  terminator : ∀ bb < body.basicBlocks.length, TerminatorEquation domain body pState bb

/-- The equations of one block hold for the edges that are recorded so far. -/
structure BlockSolved (pState : PointwiseState S) (bb : BasicBlock) : Prop where
  entry : ∃ state, stateBeforeBlock domain body pState bb = .ok state ∧
    pState.lookupBefore ⟨bb, 0⟩ = some state
  statement : ∀ idx < (body.statements bb).length, StatementEquation domain pState ⟨bb, idx⟩
  terminator : TerminatorEquation domain body pState bb
  processed : ∃ states, pState.lookupAfterBlock bb = some states

/-- The invariant of the main loop: every block outside the work set is solved. -/
def Solved (iteration : Iteration S) : Prop :=
  ∀ bb < body.basicBlocks.length, bb ∉ iteration.workSet →
    BlockSolved domain body iteration.pState bb

end Equations

variable {domain : AbstractState S} {body : Body Ty}

variable {pState pState' : PointwiseState S} {bb : BasicBlock}

theorem statementEquation_congr
    (hsame : ∀ idx, pState'.lookupBefore ⟨bb, idx⟩ = pState.lookupBefore ⟨bb, idx⟩) {idx : Nat}
    (h : StatementEquation domain pState ⟨bb, idx⟩) :
    StatementEquation domain pState' ⟨bb, idx⟩ := by
  obtain ⟨state, state', hstate, heffect, hstate'⟩ := h
  exact ⟨state, state', (hsame idx).trans hstate, heffect, (hsame (idx + 1)).trans hstate'⟩

/-- An incoming edge matters only through its state, once its source is processed. -/
theorem joinIncoming_congr {pred : BasicBlock}
    (hedge : pState'.lookupEdge pred bb = pState.lookupEdge pred bb)
    (hsome : ∃ state, pState'.lookupEdge pred bb = some state) (state : S) :
    joinIncoming domain pState' bb state pred = joinIncoming domain pState bb state pred := by
  obtain ⟨incoming, hincoming⟩ := hsome
  have hbefore := hedge.symm.trans hincoming
  obtain ⟨states', hstates', hget'⟩ := Option.bind_eq_some_iff.mp hincoming
  obtain ⟨states, hstates, hget⟩ := Option.bind_eq_some_iff.mp hbefore
  rw [joinIncoming, joinIncoming, hstates', hstates]
  simp only [hget', hget]

theorem foldlM_joinIncoming_congr {preds : List BasicBlock} (h : ∀ pred ∈ preds, ∀ state,
      joinIncoming domain pState' bb state pred = joinIncoming domain pState bb state pred)
    (state : S) :
    preds.foldlM (joinIncoming domain pState' bb) state =
      preds.foldlM (joinIncoming domain pState bb) state := by
  induction preds generalizing state with
  | nil => rfl
  | cons pred preds ih =>
    rw [List.forall_mem_cons] at h
    rw [List.foldlM_cons, List.foldlM_cons, h.1 state]
    exact congrArg _ (funext fun next => ih h.2 next)

theorem solved_initialIteration : Solved domain body (initialIteration body) := by
  intro bb hlt hwork
  exact absurd (List.mem_toFinset.mpr (Body.mem_indices_iff.mpr hlt)) hwork

/-- Once every predecessor is processed, the state before a block is a plain join. -/
theorem exists_incoming {preds : List BasicBlock} {start state : S}
    (hpreds : ∀ pred ∈ preds, ∃ states, pState.lookupAfterBlock pred = some states)
    (h : preds.foldlM (joinIncoming domain pState bb) start = .ok state) :
    ∃ incoming : List S,
      List.Forall₂ (fun pred state => pState.lookupEdge pred bb = some state) preds incoming ∧
      state = incoming.foldl domain.join start := by
  induction preds generalizing start with
  | nil =>
    rw [List.foldlM_nil, pure_eq_ok_iff] at h
    exact ⟨[], .nil, h.symm⟩
  | cons pred preds ih =>
    rw [List.forall_mem_cons] at hpreds
    obtain ⟨states, hstates⟩ := hpreds.1
    rw [List.foldlM_cons, bind_eq_ok_iff] at h
    obtain ⟨next, hnext, h⟩ := h
    simp only [joinIncoming, hstates, bind_eq_ok_iff, Stop.orPanic_eq_ok_iff,
      pure_eq_ok_iff] at hnext
    obtain ⟨edge, hedge, rfl⟩ := hnext
    obtain ⟨incoming, hincoming, rfl⟩ := ih hpreds.2 h
    refine ⟨edge :: incoming, .cons ?_ hincoming, rfl⟩
    rw [PointwiseState.lookupEdge, hstates]
    exact hedge

theorem Solved.isSolution {iteration : Iteration S} (h : Solved domain body iteration)
    (hwork : iteration.workSet = ∅) : IsSolution domain body iteration.pState := by
  have hsolved : ∀ bb < body.basicBlocks.length, BlockSolved domain body iteration.pState bb := by
    intro bb hlt
    refine h bb hlt ?_
    rw [hwork]
    exact Finset.notMem_empty bb
  refine ⟨?_, fun bb hlt => (hsolved bb hlt).statement, fun bb hlt => (hsolved bb hlt).terminator⟩
  intro bb hlt
  obtain ⟨state, hentry, hbefore⟩ := (hsolved bb hlt).entry
  have hpreds : ∀ pred ∈ body.predecessors bb,
      ∃ states, iteration.pState.lookupAfterBlock pred = some states := by
    intro pred hpred
    exact (hsolved pred (Body.lt_of_mem_successors (Body.mem_predecessors_iff.mp hpred))).processed
  obtain ⟨incoming, hincoming, rfl⟩ := exists_incoming hpreds hentry
  exact ⟨incoming, hincoming, hbefore⟩

section Run

variable [DecidableEq S]

variable {before after : Iteration S} {bb : BasicBlock}

section

variable (h : Round domain body before after bb)

include h

/-- A block that is not added to the work set has the same state before it as before
the round. -/
theorem Round.stateBeforeBlock_eq {block : BasicBlock} (hwork : block ∉ after.workSet) :
    stateBeforeBlock domain body after.pState block =
      stateBeforeBlock domain body before.pState block := by
  refine foldlM_joinIncoming_congr ?_ _
  intro pred hpred
  by_cases heq : pred = bb
  · subst heq
    have hmem := Body.mem_predecessors_iff.mp hpred
    obtain ⟨_, _, _, _, hedge⟩ := h.terminator
    obtain ⟨joined, -, hjoined⟩ := hedge block hmem
    refine joinIncoming_congr ?_ ⟨joined, hjoined⟩
    by_contra hchanged
    exact hwork ((h.mem_workSet block).mpr (.inr ⟨hmem, hchanged⟩))
  · intro state
    rw [joinIncoming, joinIncoming, h.after_ne pred heq]

/-- A round keeps the equations of the other blocks whose incoming edges it does not
change. -/
theorem Round.solved_of_ne {block : BasicBlock} (hne : block ≠ bb) (hwork : block ∉ after.workSet)
    (hsolved : BlockSolved domain body before.pState block) :
    BlockSolved domain body after.pState block := by
  have hsame : ∀ idx, after.pState.lookupBefore ⟨block, idx⟩ =
      before.pState.lookupBefore ⟨block, idx⟩ := fun idx => h.before_ne ⟨block, idx⟩ hne
  have hafter := h.after_ne block hne
  obtain ⟨state, hentry, hbefore⟩ := hsolved.entry
  obtain ⟨last, nextStates, hlast, heffect, hedges⟩ := hsolved.terminator
  refine ⟨⟨state, ?_, (hsame 0).trans hbefore⟩, ?_, ?_, ?_⟩
  · rw [h.stateBeforeBlock_eq hwork, hentry]
  · intro idx hidx
    exact statementEquation_congr hsame (hsolved.statement idx hidx)
  · refine ⟨last, nextStates, (hsame _).trans hlast, heffect, ?_⟩
    intro next hnext
    rw [PointwiseState.lookupEdge, hafter]
    exact hedges next hnext
  · rw [hafter]
    exact hsolved.processed

/-- A round solves its own block, unless that feeds itself with a changed edge. -/
theorem Round.solved_self (hwork : bb ∉ after.workSet) :
    BlockSolved domain body after.pState bb := by
  obtain ⟨state, hentry, hbefore⟩ := h.entry
  refine ⟨⟨state, ?_, hbefore⟩, h.statement, h.terminator, h.processed⟩
  rw [h.stateBeforeBlock_eq hwork, hentry]

theorem Round.solved (hsolved : Solved domain body before) : Solved domain body after := by
  intro block hlt hwork
  by_cases heq : block = bb
  · subst heq
    exact h.solved_self hwork
  · refine h.solved_of_ne heq hwork (hsolved block hlt ?_)
    intro hmem
    exact hwork ((h.mem_workSet block).mpr (.inl ⟨hmem, heq⟩))

end

/-- A forward analysis that returns has solved the dataflow equations, for every body
and every domain that never widens. -/
theorem runFwdAnalysis_isSolution (hwiden : ∀ counter, domain.needToWiden counter = false)
    {fuel : Nat} {pState : PointwiseState S}
    (h : runFwdAnalysis domain body fuel = .ok pState) : IsSolution domain body pState := by
  obtain ⟨last, hsolved, hwork, rfl⟩ := iterate_inv (Solved domain body)
    (fun before after bb _ hsolved hround => (processBlock_spec hwiden hround).solved hsolved)
    solved_initialIteration h
  exact hsolved.isSolution hwork

end Run

namespace Witness

/-- A loop with a repeated edge, and a block that nothing leads to. -/
def loopBody : Body Unit where
  basicBlocks := [⟨[], .goto 1⟩, ⟨[.nop], .switchInt .constant [1, 2, 1]⟩, ⟨[], .return⟩,
    ⟨[.nop], .goto 2⟩]
  localDecls := [()]
  argCount := 0
  startBlock_lt := by decide
  argCount_lt := Nat.one_pos
  target_lt := by decide

/-- Whether a block may be reached from the start block. -/
def reachability : AbstractState Bool where
  newBottom := false
  newInitial := true
  needToWiden := fun _ => false
  join := or
  widen := fun state _ => .ok state
  applyStatementEffect := fun _ state => .ok state
  applyTerminatorEffect := fun location state =>
    .ok ((loopBody.successors location.block).map fun next => (next, state))

theorem runFwdAnalysis_isSolution_loopBody :
    ∃ pState, runFwdAnalysis reachability loopBody 10 = .ok pState ∧
      IsSolution reachability loopBody pState := by
  obtain ⟨pState, hreturns⟩ : ∃ pState,
      runFwdAnalysis reachability loopBody 10 = .ok pState :=
    Stop.exists_of_isOk (by decide)
  exact ⟨pState, hreturns, runFwdAnalysis_isSolution (fun _ => rfl) hreturns⟩

end Witness

end Prusti.Analysis

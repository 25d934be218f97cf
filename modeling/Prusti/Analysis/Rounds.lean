/-
What one round of the forward analyzer does to the recorded states and the work set,
and the invariant rule for its main loop.
-/
import Prusti.Analysis.Analyzer

namespace Prusti.Analysis

open Prusti.Lib Prusti.Mir

universe u v

section Joined

variable {S : Type v} (domain : AbstractState S)

/-- The join of some states, if there is one. -/
def joinAll : List S → Option S
  | [] => none
  | state :: states => some (states.foldl domain.join state)

/-- The states of a list for one block. -/
def statesFor (nextStates : List (BasicBlock × S)) (next : BasicBlock) : List S :=
  (nextStates.filter (·.1 = next)).map Prod.snd

theorem joinAll_concat (states : List S) (state : S) :
    joinAll domain (states ++ [state]) =
      some (match joinAll domain states with
        | some joined => domain.join joined state
        | none => state) := by
  cases states with
  | nil => rfl
  | cons first states =>
    rw [List.cons_append, joinAll, List.foldl_append]
    rfl

theorem get?_addState (newMap : HashMap BasicBlock S) (entry : BasicBlock × S) (next : BasicBlock) :
    (addState domain newMap entry).get? next =
      if entry.1 = next then
        some (match newMap.get? next with
          | some joined => domain.join joined entry.2
          | none => entry.2)
      else newMap.get? next := by
  by_cases heq : entry.1 = next
  · subst heq
    rw [if_pos rfl]
    cases hstate : newMap.get? entry.1 with
    | none => simp [addState, hstate, HashMap.get?_insert]
    | some state => simp [addState, hstate, HashMap.get?_insert]
  · rw [if_neg heq]
    cases hstate : newMap.get? entry.1 with
    | none => simp [addState, hstate, HashMap.get?_insert, heq]
    | some state => simp [addState, hstate, HashMap.get?_insert, heq]

/-- The map of new states has the join of the states for every block. -/
theorem get?_newMap (nextStates : List (BasicBlock × S)) (next : BasicBlock) :
    (nextStates.foldl (addState domain) HashMap.empty).get? next =
      joinAll domain (statesFor nextStates next) := by
  induction nextStates using List.reverseRecOn with
  | nil => rfl
  | append_singleton front entry ih =>
    rw [List.foldl_append, List.foldl_cons, List.foldl_nil, get?_addState, ih]
    by_cases heq : entry.1 = next
    · have hstates : statesFor (front ++ [entry]) next = statesFor front next ++ [entry.2] := by
        simp [statesFor, heq]
      rw [if_pos heq, hstates, joinAll_concat]
    · have hstates : statesFor (front ++ [entry]) next = statesFor front next := by
        simp [statesFor, heq]
      rw [if_neg heq, hstates]

theorem get?_getD_empty (states? : Option (HashMap BasicBlock S)) (next : BasicBlock) :
    (states?.getD HashMap.empty).get? next = states?.bind fun states => states.get? next := by
  cases states? <;> rfl

end Joined

section Edges

variable {S : Type v} [DecidableEq S]

/-- The loop over the successors moves the new states to their edges. -/
theorem get?_storeEdges (successors : List BasicBlock) (update : EdgeUpdate S) (next : BasicBlock) :
    (successors.foldl storeEdge update).mapAfterBlock.get? next =
      if next ∈ successors then (update.newMap.get? next).or (update.mapAfterBlock.get? next)
      else update.mapAfterBlock.get? next := by
  induction successors generalizing update with
  | nil => rfl
  | cons first successors ih =>
    rw [List.foldl_cons, ih]
    cases hstate : update.newMap.get? first with
    | none =>
      simp only [storeEdge, hstate, List.mem_cons]
      by_cases heq : next = first
      · subst heq
        simp [hstate]
      · simp [heq]
    | some state =>
      simp only [storeEdge, hstate, HashMap.get?_insert, HashMap.get?_erase,
        List.mem_cons, beq_iff_eq]
      by_cases heq : next = first
      · subst heq
        simp [hstate]
      · simp [heq, Ne.symm heq]

/-- A successor is added to the work set when its edge changes. -/
theorem mem_workSet_storeEdges (successors : List BasicBlock) (update : EdgeUpdate S)
    (block : BasicBlock) :
    block ∈ (successors.foldl storeEdge update).workSet ↔
      block ∈ update.workSet ∨ block ∈ successors ∧
        ∃ state, update.newMap.get? block = some state ∧
          update.mapAfterBlock.get? block ≠ some state := by
  induction successors generalizing update with
  | nil => simp
  | cons first successors ih =>
    rw [List.foldl_cons, ih]
    cases hstate : update.newMap.get? first with
    | none =>
      simp only [storeEdge, hstate, List.mem_cons]
      by_cases heq : block = first
      · subst heq
        simp [hstate]
      · simp [heq]
    | some state =>
      simp only [storeEdge, hstate, HashMap.get?_insert, HashMap.get?_erase,
        List.mem_cons, beq_iff_eq]
      by_cases heq : block = first
      · subst heq
        by_cases hsame : update.mapAfterBlock.get? block = some state
        · simp [hstate, hsame]
        · simp [hstate, hsame]
      · by_cases hsame : update.mapAfterBlock.get? first = some state
        · simp [heq, Ne.symm heq, hsame]
        · simp [heq, Ne.symm heq, hsame]

end Edges

section Equations

variable {Ty : Type u} {S : Type v} (domain : AbstractState S) (body : Body Ty)

/-- The state after a statement is the effect applied to the one before it. -/
def StatementEquation (pState : PointwiseState S) (location : Location) : Prop :=
  ∃ state state', pState.lookupBefore location = some state ∧
    domain.applyStatementEffect location state = .ok state' ∧
    pState.lookupAfter location = some state'

/-- The state on every outgoing edge is what the terminator gives for its target,
joined over repeated targets. -/
def TerminatorEquation (pState : PointwiseState S) (bb : BasicBlock) : Prop :=
  ∃ state nextStates, pState.lookupBefore (body.terminatorLoc bb) = some state ∧
    domain.applyTerminatorEffect (body.terminatorLoc bb) state = .ok nextStates ∧
    ∀ next ∈ body.successors bb, ∃ joined,
      joinAll domain (statesFor nextStates next) = some joined ∧
        pState.lookupEdge bb next = some joined

/-- Everything that one round does to a block: it recomputes the states of the block
from the old states on its incoming edges, leaves the other blocks alone, and adds the
successors whose edges change to the work set. -/
structure Round (before after : Iteration S) (bb : BasicBlock) : Prop where
  lt : bb < body.basicBlocks.length
  entry : ∃ state, stateBeforeBlock domain body before.pState bb = .ok state ∧
    after.pState.lookupBefore ⟨bb, 0⟩ = some state
  statement : ∀ idx < (body.statements bb).length, StatementEquation domain after.pState ⟨bb, idx⟩
  terminator : TerminatorEquation domain body after.pState bb
  processed : ∃ states, after.pState.lookupAfterBlock bb = some states
  before_ne : ∀ location : Location, location.block ≠ bb →
    after.pState.lookupBefore location = before.pState.lookupBefore location
  after_ne : ∀ block, block ≠ bb →
    after.pState.lookupAfterBlock block = before.pState.lookupAfterBlock block
  mem_workSet : ∀ block, block ∈ after.workSet ↔
    block ∈ before.workSet ∧ block ≠ bb ∨ block ∈ body.successors bb ∧
      after.pState.lookupEdge bb block ≠ before.pState.lookupEdge bb block

/-- What is known of the recorded states while the statements of a block are
processed. -/
structure InBlock (bb : BasicBlock) (start : PointwiseState S) (state : S)
    (count : Nat) (current : PointwiseState S × S) : Prop where
  other : ∀ location : Location, location.block ≠ bb →
    current.1.lookupBefore location = start.lookupBefore location
  after : ∀ block, current.1.lookupAfterBlock block = start.lookupAfterBlock block
  first : count = 0 → current.2 = state
  entry : 0 < count → current.1.lookupBefore ⟨bb, 0⟩ = some state
  statement : ∀ idx, idx + 1 < count → StatementEquation domain current.1 ⟨bb, idx⟩
  last : ∀ idx, idx + 1 = count → ∃ previous,
    current.1.lookupBefore ⟨bb, idx⟩ = some previous ∧
      domain.applyStatementEffect ⟨bb, idx⟩ previous = .ok current.2

variable {domain body}

variable {bb : BasicBlock} {start : PointwiseState S} {state : S} {count : Nat}
  {current : PointwiseState S × S}

/-- The state that is reached is recorded at its location. -/
theorem InBlock.record (h : InBlock domain bb start state count current) :
    (current.1.setBefore ⟨bb, count⟩ current.2).lookupBefore ⟨bb, 0⟩ = some state ∧
      ∀ idx < count, StatementEquation domain
        (current.1.setBefore ⟨bb, count⟩ current.2) ⟨bb, idx⟩ := by
  constructor
  · rw [PointwiseState.lookupBefore_setBefore]
    by_cases hzero : count = 0
    · rw [if_pos (by rw [hzero]), h.first hzero]
    · rw [if_neg (by simpa using hzero)]
      exact h.entry (Nat.pos_of_ne_zero hzero)
  · intro idx hidx
    have hne : (⟨bb, count⟩ : Location) ≠ ⟨bb, idx⟩ := by
      simp only [ne_eq, Location.mk.injEq, true_and]
      omega
    by_cases hlast : idx + 1 = count
    · obtain ⟨previous, hprevious, happlied⟩ := h.last idx hlast
      refine ⟨previous, current.2, ?_, happlied, ?_⟩
      · rw [PointwiseState.lookupBefore_setBefore, if_neg hne]
        exact hprevious
      · change (current.1.setBefore _ _).lookupBefore _ = _
        rw [PointwiseState.lookupBefore_setBefore, if_pos (by rw [hlast])]
    · obtain ⟨previous, following, hprevious, happlied, hfollowing⟩ := h.statement idx (by omega)
      refine ⟨previous, following, ?_, happlied, ?_⟩
      · rw [PointwiseState.lookupBefore_setBefore, if_neg hne]
        exact hprevious
      · change (current.1.setBefore _ _).lookupBefore _ = _
        rw [PointwiseState.lookupBefore_setBefore, if_neg (by simpa using Ne.symm hlast)]
        exact hfollowing

theorem InBlock.other_setBefore (h : InBlock domain bb start state count current)
    (location : Location) (hblock : location.block ≠ bb) :
    (current.1.setBefore ⟨bb, count⟩ current.2).lookupBefore location =
      start.lookupBefore location := by
  have hne : (⟨bb, count⟩ : Location) ≠ location := by
    rintro rfl
    exact hblock rfl
  rw [PointwiseState.lookupBefore_setBefore, if_neg hne]
  exact h.other location hblock

theorem InBlock.step {next : PointwiseState S × S} (h : InBlock domain bb start state count current)
    (hnext : applyStatement domain bb current count = .ok next) :
    InBlock domain bb start state (count + 1) next := by
  simp only [applyStatement, bind_eq_ok_iff, pure_eq_ok_iff] at hnext
  obtain ⟨state', heffect, rfl⟩ := hnext
  obtain ⟨hentry, hstatement⟩ := h.record
  refine ⟨h.other_setBefore, h.after, ?_, fun _ => hentry, ?_, ?_⟩
  · intro hzero
    omega
  · intro idx hidx
    exact hstatement idx (by omega)
  · intro idx hidx
    obtain rfl : idx = count := by omega
    refine ⟨current.2, ?_, heffect⟩
    rw [PointwiseState.lookupBefore_setBefore, if_pos rfl]

theorem InBlock.run (count : Nat) {result : PointwiseState S × S}
    (h : (List.range count).foldlM (applyStatement domain bb) (start, state) = .ok result) :
    InBlock domain bb start state count result := by
  have hrun := Stop.foldlM_inv
    (fun done current => InBlock domain bb start state done.length current)
    (List.range count) [] (start, state) result ?_ ?_ h
  · rwa [List.nil_append, List.length_range] at hrun
  · exact ⟨fun _ _ => rfl, fun _ => rfl, fun _ => rfl, by simp, by simp, by simp⟩
  · intro front index back current next hsplit hcurrent hstep
    have hindex : index = front.length := by
      have hget := congrArg (·[front.length]?) hsplit
      have hlt : front.length < count := by
        have := congrArg List.length hsplit
        simp only [List.nil_append, List.length_range, List.length_append, List.length_cons] at this
        omega
      simpa [List.getElem?_range hlt] using hget.symm
    subst hindex
    rw [List.length_append, List.length_singleton]
    exact hcurrent.step hstep

variable [DecidableEq S]

/-- The work set after a round, and the states on the outgoing edges. -/
theorem storeEdges_of_check {bb : BasicBlock} {newMap mapAfterBlock : HashMap BasicBlock S}
    {workSet : Finset BasicBlock} {nothing : PUnit.{v + 1}}
    (hcheck : checkSuccessors body bb newMap = .ok nothing) {next : BasicBlock}
    (hnext : next ∈ body.successors bb) :
    ∃ joined, newMap.get? next = some joined ∧
      ((body.successors bb).foldl storeEdge
        ⟨newMap, mapAfterBlock, workSet⟩).mapAfterBlock.get? next = some joined := by
  rw [checkSuccessors] at hcheck
  cases hfind : (body.successors bb).find? fun next => !newMap.contains next with
  | some missing =>
    rw [hfind] at hcheck
    cases hcheck
  | none =>
    have hcontains := List.find?_eq_none.mp hfind next hnext
    simp only [Bool.not_eq_eq_eq_not, Bool.not_true, Bool.not_eq_false,
      HashMap.contains_iff] at hcontains
    obtain ⟨joined, hjoined⟩ := hcontains
    refine ⟨joined, hjoined, ?_⟩
    rw [get?_storeEdges, if_pos hnext, hjoined, Option.some_or]

/-- What a round does, when the domain never widens. -/
theorem processBlock_spec (hwiden : ∀ counter, domain.needToWiden counter = false)
    {before after : Iteration S} {bb : BasicBlock}
    (h : processBlock domain body before bb = .ok after) :
    Round domain body before after bb := by
  simp only [processBlock, widenState, hwiden, Bool.false_eq_true, ↓reduceIte,
    bind_eq_ok_iff, pure_eq_ok_iff, Stop.assert_eq_ok_iff, decide_eq_true_eq] at h
  obtain ⟨-, hlt, entry, hentry, _, rfl, current, hcurrent, nextStates, hnext, _, hcheck, rfl⟩ := h
  have hblock := InBlock.run _ hcurrent
  obtain ⟨hfirst, hstatement⟩ := hblock.record
  refine ⟨hlt, ⟨entry, hentry, hfirst⟩, hstatement, ?_, ?_, ?_, ?_, ?_⟩
  · refine ⟨current.2, nextStates, ?_, hnext, ?_⟩
    · rw [PointwiseState.lookupBefore_setAfterBlock, PointwiseState.lookupBefore_setBefore,
        if_pos rfl]
    · intro next hmem
      obtain ⟨joined, hjoined, hstored⟩ := storeEdges_of_check hcheck hmem
      refine ⟨joined, by rw [← get?_newMap, hjoined], ?_⟩
      rw [PointwiseState.lookupEdge, PointwiseState.lookupAfterBlock_setAfterBlock, if_pos rfl]
      exact hstored
  · exact ⟨_, by rw [PointwiseState.lookupAfterBlock_setAfterBlock, if_pos rfl]⟩
  · exact hblock.other_setBefore
  · intro block hne
    rw [PointwiseState.lookupAfterBlock_setAfterBlock, if_neg (Ne.symm hne)]
    exact hblock.after block
  · intro block
    rw [mem_workSet_storeEdges, Finset.mem_erase, and_comm]
    refine or_congr_right (and_congr_right fun hmem => ?_)
    obtain ⟨joined, hjoined, hstored⟩ := storeEdges_of_check hcheck hmem
    rw [PointwiseState.lookupEdge, PointwiseState.lookupAfterBlock_setAfterBlock,
      if_pos rfl, Option.bind_some, hstored, hjoined, PointwiseState.lookupAfterBlock_setBefore,
      hblock.after bb, get?_getD_empty, PointwiseState.lookupEdge]
    simp [eq_comm]

/-- The rule for the main loop: an invariant that every round keeps holds at the end,
when no block is left to process. -/
theorem iterate_inv (Inv : Iteration S → Prop)
    (hstep : ∀ before after bb, bb ∈ before.workSet → Inv before →
      processBlock domain body before bb = .ok after → Inv after)
    {fuel : Nat} {iteration : Iteration S} {pState : PointwiseState S}
    (hinv : Inv iteration) (h : iterate domain body fuel iteration = .ok pState) :
    ∃ last, Inv last ∧ last.workSet = ∅ ∧ last.pState = pState := by
  induction fuel generalizing iteration with
  | zero =>
    rw [iterate] at h
    by_cases hwork : iteration.workSet.Nonempty
    · rw [if_pos hwork] at h
      cases h
    · rw [if_neg hwork, pure_eq_ok_iff] at h
      exact ⟨iteration, hinv, Finset.not_nonempty_iff_eq_empty.mp hwork, h⟩
  | succ fuel ih =>
    rw [iterate] at h
    by_cases hwork : iteration.workSet.Nonempty
    · rw [dif_pos hwork, bind_eq_ok_iff] at h
      obtain ⟨next, hnext, h⟩ := h
      exact ih (hstep _ _ _ (iteration.workSet.min'_mem hwork) hinv hnext) h
    · rw [dif_neg hwork, pure_eq_ok_iff] at h
      exact ⟨iteration, hinv, Finset.not_nonempty_iff_eq_empty.mp hwork, h⟩

end Equations

end Prusti.Analysis

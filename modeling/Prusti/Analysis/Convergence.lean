/-
A monotone domain of finite height makes the forward analyzer converge: although the
states of a block are recomputed and overwritten, the states on the edges only ascend.
-/
import Mathlib.Algebra.BigOperators.Group.Finset.Piecewise
import Mathlib.Algebra.Order.BigOperators.Group.Finset
import Prusti.Analysis.Rounds

namespace Prusti.Analysis

open Prusti.Lib Prusti.Mir

variable {next source target : BasicBlock}

universe u v

variable {Ty : Type u} {S : Type v}

/-- A monotone domain of finite height.  The order and the rank need only make sense for
the states that occur in an analysis. -/
structure FiniteHeight (domain : AbstractState S) (body : Body Ty) where
  Good : S → Prop
  le : S → S → Prop
  rank : S → Nat
  height : Nat
  needToWiden : ∀ counter, domain.needToWiden counter = false
  good_entry : ∀ bb, Good (entryState domain bb)
  good_join : ∀ {left right}, Good left → Good right → Good (domain.join left right)
  good_statement : ∀ {location state state'}, Good state →
    domain.applyStatementEffect location state = .ok state' → Good state'
  good_terminator : ∀ {bb state nextStates}, Good state →
    domain.applyTerminatorEffect (body.terminatorLoc bb) state = .ok nextStates →
      ∀ next ∈ nextStates, Good next.2
  refl : ∀ state, le state state
  trans : ∀ {first second third}, le first second → le second third → le first third
  le_join_left : ∀ {left right}, Good left → Good right → le left (domain.join left right)
  join_le_join : ∀ {left right left' right'}, Good left → Good right → Good left' →
    Good right' → le left left' → le right right' →
      le (domain.join left right) (domain.join left' right')
  statement_le : ∀ {location left right left' right'}, Good left → Good right →
    le left right → domain.applyStatementEffect location left = .ok left' →
      domain.applyStatementEffect location right = .ok right' → le left' right'
  terminator_le : ∀ {location left right left' right'}, Good left → Good right →
    le left right → domain.applyTerminatorEffect location left = .ok left' →
      domain.applyTerminatorEffect location right = .ok right' →
        List.Forall₂ (fun next next' => next.1 = next'.1 ∧ le next.2 next'.2) left' right'
  statement_noPanic : ∀ {bb idx state}, idx < (body.statements bb).length → Good state →
    Stop.NoPanic (domain.applyStatementEffect ⟨bb, idx⟩ state)
  terminator_noPanic : ∀ {bb state}, bb < body.basicBlocks.length → Good state →
    Stop.NoPanic (domain.applyTerminatorEffect (body.terminatorLoc bb) state)
  rank_le : ∀ {state}, Good state → rank state ≤ height
  rank_lt : ∀ {left right}, Good left → Good right → le left right → left ≠ right →
    rank left < rank right

section Transfer

variable (domain : AbstractState S) (body : Body Ty)

/-- The effect of a whole block. -/
def transfer (bb : BasicBlock) (state : S) : Outcome (List (BasicBlock × S)) := do
  let last ← (List.range (body.statements bb).length).foldlM
    (fun state idx => domain.applyStatementEffect ⟨bb, idx⟩ state) state
  domain.applyTerminatorEffect (body.terminatorLoc bb) last

/-- The join of the edges that are recorded so far. -/
def joinedBefore (pState : PointwiseState S) (bb : BasicBlock) : S :=
  (body.predecessors bb).foldl (fun state pred =>
    match pState.lookupEdge pred bb with
    | some incoming => domain.join state incoming
    | none => state) (entryState domain bb)

/-- Every processed block has a state for every successor. -/
def EdgesRecorded (pState : PointwiseState S) : Prop :=
  ∀ bb, (∃ states, pState.lookupAfterBlock bb = some states) →
    ∀ next ∈ body.successors bb, ∃ state, pState.lookupEdge bb next = some state

variable {domain body}

theorem stateBeforeBlock_eq_joinedBefore {pState : PointwiseState S}
    (h : EdgesRecorded body pState) (bb : BasicBlock) :
    stateBeforeBlock domain body pState bb = .ok (joinedBefore domain body pState bb) := by
  rw [stateBeforeBlock, joinedBefore]
  have hpreds : ∀ pred ∈ body.predecessors bb, bb ∈ body.successors pred := fun _ =>
    Body.mem_predecessors_iff.mp
  generalize entryState domain bb = state
  revert hpreds
  generalize body.predecessors bb = preds
  intro hpreds
  induction preds generalizing state with
  | nil => rfl
  | cons pred preds ih =>
    rw [List.forall_mem_cons] at hpreds
    rw [List.foldlM_cons, List.foldl_cons, joinIncoming]
    cases hstates : pState.lookupAfterBlock pred with
    | none =>
      have hedge : pState.lookupEdge pred bb = none := by
        rw [PointwiseState.lookupEdge, hstates, Option.bind_none]
      rw [hedge]
      exact ih state hpreds.2
    | some states =>
      obtain ⟨incoming, hincoming⟩ := h pred ⟨states, hstates⟩ bb hpreds.1
      have hget : states.get? bb = some incoming := by
        rwa [PointwiseState.lookupEdge, hstates] at hincoming
      rw [hincoming]
      simp only [hget]
      exact ih _ hpreds.2

/-- The recorded states of a block are those that the effects pass through. -/
theorem transfer_of_equations {pState : PointwiseState S} {bb : BasicBlock} {state : S}
    (hentry : pState.lookupBefore ⟨bb, 0⟩ = some state)
    (hstatement : ∀ idx < (body.statements bb).length, StatementEquation domain pState ⟨bb, idx⟩)
    (hterminator : TerminatorEquation domain body pState bb) :
    ∃ nextStates, transfer domain body bb state = .ok nextStates ∧
      ∀ next ∈ body.successors bb, ∃ joined,
        joinAll domain (statesFor nextStates next) = some joined ∧
          pState.lookupEdge bb next = some joined := by
  have hrun : ∀ count ≤ (body.statements bb).length, ∃ reached,
      (List.range count).foldlM
        (fun state idx => domain.applyStatementEffect ⟨bb, idx⟩ state) state = .ok reached ∧
      pState.lookupBefore ⟨bb, count⟩ = some reached := by
    intro count
    induction count with
    | zero => exact fun _ => ⟨state, rfl, hentry⟩
    | succ count ih =>
      intro hcount
      obtain ⟨reached, hreached, hbefore⟩ := ih (by omega)
      obtain ⟨previous, following, hprevious, heffect, hafter⟩ := hstatement count hcount
      obtain rfl := Option.some_inj.mp (hprevious.symm.trans hbefore)
      refine ⟨following, ?_, hafter⟩
      rw [List.range_succ, List.foldlM_append, hreached]
      change (domain.applyStatementEffect ⟨bb, count⟩ previous >>= pure) = _
      rw [heffect]
      rfl
  obtain ⟨last, hlast, hbefore⟩ := hrun _ le_rfl
  obtain ⟨state', nextStates, hstate', heffect, hedges⟩ := hterminator
  obtain rfl := Option.some_inj.mp (hstate'.symm.trans hbefore)
  exact ⟨nextStates, by rw [transfer, hlast]; exact heffect, hedges⟩

end Transfer

namespace FiniteHeight

variable {domain : AbstractState S} {body : Body Ty} (domainHeight : FiniteHeight domain body)

variable {bb : BasicBlock} {state : S}

include domainHeight

theorem good_foldlM_statement {indices : List Nat} {last : S} (hgood : domainHeight.Good state)
    (h : indices.foldlM (fun state idx => domain.applyStatementEffect ⟨bb, idx⟩ state) state =
      .ok last) : domainHeight.Good last := by
  induction indices generalizing state with
  | nil =>
    rw [List.foldlM_nil, pure_eq_ok_iff] at h
    rwa [← h]
  | cons idx indices ih =>
    rw [List.foldlM_cons, bind_eq_ok_iff] at h
    obtain ⟨state', hstate', h⟩ := h
    exact ih (domainHeight.good_statement hgood hstate') h

theorem foldlM_statement_le {indices : List Nat} {left right left' right' : S}
    (hleft : domainHeight.Good left) (hright : domainHeight.Good right)
    (hle : domainHeight.le left right)
    (h : indices.foldlM (fun state idx => domain.applyStatementEffect ⟨bb, idx⟩ state) left =
      .ok left')
    (h' : indices.foldlM (fun state idx => domain.applyStatementEffect ⟨bb, idx⟩ state) right =
      .ok right') : domainHeight.le left' right' := by
  induction indices generalizing left right with
  | nil =>
    rw [List.foldlM_nil, pure_eq_ok_iff] at h h'
    rwa [← h, ← h']
  | cons idx indices ih =>
    rw [List.foldlM_cons, bind_eq_ok_iff] at h h'
    obtain ⟨next, hnext, h⟩ := h
    obtain ⟨next', hnext', h'⟩ := h'
    exact ih (domainHeight.good_statement hleft hnext) (domainHeight.good_statement hright hnext')
      (domainHeight.statement_le hleft hright hle hnext hnext') h h'

theorem good_transfer {nextStates : List (BasicBlock × S)} (hgood : domainHeight.Good state)
    (h : transfer domain body bb state = .ok nextStates) :
    ∀ next ∈ nextStates, domainHeight.Good next.2 := by
  rw [transfer, bind_eq_ok_iff] at h
  obtain ⟨last, hlast, h⟩ := h
  exact domainHeight.good_terminator (domainHeight.good_foldlM_statement hgood hlast) h

theorem transfer_le {left right : S} {left' right' : List (BasicBlock × S)}
    (hleft : domainHeight.Good left) (hright : domainHeight.Good right)
    (hle : domainHeight.le left right) (h : transfer domain body bb left = .ok left')
    (h' : transfer domain body bb right = .ok right') :
    List.Forall₂ (fun next next' => next.1 = next'.1 ∧ domainHeight.le next.2 next'.2)
      left' right' := by
  rw [transfer, bind_eq_ok_iff] at h h'
  obtain ⟨last, hlast, h⟩ := h
  obtain ⟨last', hlast', h'⟩ := h'
  exact domainHeight.terminator_le (domainHeight.good_foldlM_statement hleft hlast)
    (domainHeight.good_foldlM_statement hright hlast')
    (domainHeight.foldlM_statement_le hleft hright hle hlast hlast') h h'

theorem good_foldl_join {states : List S} (hgood : domainHeight.Good state)
    (hstates : ∀ other ∈ states, domainHeight.Good other) :
    domainHeight.Good (states.foldl domain.join state) := by
  induction states generalizing state with
  | nil => exact hgood
  | cons first states ih =>
    rw [List.forall_mem_cons] at hstates
    exact ih (domainHeight.good_join hgood hstates.1) hstates.2

theorem foldl_join_le {states states' : List S} {state' : S} (hgood : domainHeight.Good state)
    (hgood' : domainHeight.Good state') (hle : domainHeight.le state state')
    (hstates : List.Forall₂ (fun other other' => domainHeight.Good other ∧
      domainHeight.Good other' ∧ domainHeight.le other other') states states') :
    domainHeight.le (states.foldl domain.join state) (states'.foldl domain.join state') := by
  induction hstates generalizing state state' with
  | nil => exact hle
  | cons hfirst _ ih =>
    obtain ⟨hfirst, hfirst', hle'⟩ := hfirst
    exact ih (domainHeight.good_join hgood hfirst) (domainHeight.good_join hgood' hfirst')
      (domainHeight.join_le_join hgood hfirst hgood' hfirst' hle hle')

theorem good_joinAll {nextStates : List (BasicBlock × S)}
    (hgood : ∀ next ∈ nextStates, domainHeight.Good next.2) {joined : S}
    (h : joinAll domain (statesFor nextStates next) = some joined) :
    domainHeight.Good joined := by
  have hstates : ∀ state ∈ statesFor nextStates next, domainHeight.Good state := by
    intro state hstate
    obtain ⟨entry, hentry, rfl⟩ := List.mem_map.mp hstate
    exact hgood entry (List.mem_of_mem_filter hentry)
  cases hlist : statesFor nextStates next with
  | nil =>
    rw [hlist] at h
    cases h
  | cons first states =>
    rw [hlist] at h hstates
    cases h
    rw [List.forall_mem_cons] at hstates
    exact domainHeight.good_foldl_join hstates.1 hstates.2

theorem joinAll_le {left right : List (BasicBlock × S)}
    (hleft : ∀ next ∈ left, domainHeight.Good next.2)
    (hright : ∀ next ∈ right, domainHeight.Good next.2)
    (hle : List.Forall₂ (fun next next' => next.1 = next'.1 ∧ domainHeight.le next.2 next'.2)
      left right) {joined joined' : S} (h : joinAll domain (statesFor left next) = some joined)
    (h' : joinAll domain (statesFor right next) = some joined') :
    domainHeight.le joined joined' := by
  have hstates : List.Forall₂ (fun other other' => domainHeight.Good other ∧
      domainHeight.Good other' ∧ domainHeight.le other other')
      (statesFor left next) (statesFor right next) := by
    clear h h'
    induction hle with
    | nil => exact .nil
    | @cons entry entry' rest rest' hentry _ ih =>
      rw [List.forall_mem_cons] at hleft hright
      have hrest := ih hleft.2 hright.2
      by_cases heq : entry.1 = next
      · simp only [statesFor, List.filter_cons, heq, ← hentry.1, decide_true, ↓reduceIte,
          List.map_cons]
        exact .cons ⟨hleft.1, hright.1, hentry.2⟩ hrest
      · simp only [statesFor, List.filter_cons, heq, ← hentry.1, decide_false,
          Bool.false_eq_true, ↓reduceIte]
        exact hrest
  generalize statesFor left next = states at h hstates
  generalize statesFor right next = states' at h' hstates
  cases hstates with
  | nil => cases h
  | cons hfirst hrest =>
    cases h
    cases h'
    exact domainHeight.foldl_join_le hfirst.1 hfirst.2.1 hfirst.2.2 hrest

/-- The joined state before a block ascends with the states on its incoming edges. -/
theorem joinedBefore_le {pState pState' : PointwiseState S}
    (hgood : ∀ pred ∈ body.predecessors bb, ∀ state,
      pState.lookupEdge pred bb = some state → domainHeight.Good state)
    (hgood' : ∀ pred ∈ body.predecessors bb, ∀ state,
      pState'.lookupEdge pred bb = some state → domainHeight.Good state)
    (hle : ∀ pred ∈ body.predecessors bb, ∀ state, pState.lookupEdge pred bb = some state →
      ∃ state', pState'.lookupEdge pred bb = some state' ∧ domainHeight.le state state') :
    domainHeight.Good (joinedBefore domain body pState bb) ∧
      domainHeight.Good (joinedBefore domain body pState' bb) ∧
      domainHeight.le (joinedBefore domain body pState bb)
        (joinedBefore domain body pState' bb) := by
  rw [joinedBefore, joinedBefore]
  revert hgood hgood' hle
  generalize body.predecessors bb = preds
  intro hgood hgood' hle
  induction preds using List.reverseRecOn with
  | nil => exact ⟨domainHeight.good_entry bb, domainHeight.good_entry bb, domainHeight.refl _⟩
  | append_singleton preds pred ih =>
    simp only [List.mem_append, List.mem_singleton] at hgood hgood' hle
    obtain ⟨hstate, hstate', hjoined⟩ := ih (fun other hother => hgood other (.inl hother))
      (fun other hother => hgood' other (.inl hother))
      (fun other hother => hle other (.inl hother))
    simp only [List.foldl_append, List.foldl_cons, List.foldl_nil]
    cases hedge : pState.lookupEdge pred bb with
    | some incoming =>
      obtain ⟨incoming', hedge', hincoming⟩ := hle pred (.inr rfl) incoming hedge
      have hright := hgood pred (.inr rfl) incoming hedge
      have hright' := hgood' pred (.inr rfl) incoming' hedge'
      rw [hedge']
      exact ⟨domainHeight.good_join hstate hright, domainHeight.good_join hstate' hright',
        domainHeight.join_le_join hstate hright hstate' hright' hjoined hincoming⟩
    | none =>
      cases hedge' : pState'.lookupEdge pred bb with
      | none => exact ⟨hstate, hstate', hjoined⟩
      | some incoming' =>
        have hright' := hgood' pred (.inr rfl) incoming' hedge'
        exact ⟨hstate, domainHeight.good_join hstate' hright',
          domainHeight.trans hjoined (domainHeight.le_join_left hstate' hright')⟩

end FiniteHeight

section Ascending

variable {domain : AbstractState S} {body : Body Ty}

/-- The states on the outgoing edges of a block are those of some state at or below the
one that its incoming edges give now. -/
structure Ascended (domainHeight : FiniteHeight domain body) (pState : PointwiseState S)
    (bb : BasicBlock) : Prop where
  lt : bb < body.basicBlocks.length
  edges : ∃ state nextStates, domainHeight.Good state ∧
    transfer domain body bb state = .ok nextStates ∧
    domainHeight.le state (joinedBefore domain body pState bb) ∧
    ∀ next ∈ body.successors bb, ∃ joined,
      joinAll domain (statesFor nextStates next) = some joined ∧
        pState.lookupEdge bb next = some joined

/-- The invariant of a run that converges. -/
def Ascending (domainHeight : FiniteHeight domain body) (pState : PointwiseState S) : Prop :=
  ∀ bb, (∃ states, pState.lookupAfterBlock bb = some states) → Ascended domainHeight pState bb

variable {domainHeight : FiniteHeight domain body} {pState : PointwiseState S}

theorem Ascending.edgesRecorded (h : Ascending domainHeight pState) :
    EdgesRecorded body pState := by
  intro bb hprocessed next hnext
  obtain ⟨_, _, _, _, _, hedges⟩ := (h bb hprocessed).edges
  obtain ⟨joined, -, hjoined⟩ := hedges next hnext
  exact ⟨joined, hjoined⟩

theorem Ascending.good (h : Ascending domainHeight pState) {bb : BasicBlock} {state : S}
    (hnext : next ∈ body.successors bb) (hstate : pState.lookupEdge bb next = some state) :
    domainHeight.Good state := by
  obtain ⟨states, hstates, -⟩ := Option.bind_eq_some_iff.mp hstate
  obtain ⟨entry, nextStates, hgood, htransfer, -, hedges⟩ := (h bb ⟨states, hstates⟩).edges
  obtain ⟨joined, hjoined, hrecorded⟩ := hedges next hnext
  obtain rfl := Option.some_inj.mp (hrecorded.symm.trans hstate)
  exact domainHeight.good_joinAll (domainHeight.good_transfer hgood htransfer) hjoined

variable {before after : Iteration S} {bb : BasicBlock}

/-- A round gives its block the states of the joined state before it. -/
theorem Round.exists_transfer (h : Round domain body before after bb)
    (hrecorded : EdgesRecorded body before.pState) :
    ∃ nextStates, transfer domain body bb (joinedBefore domain body before.pState bb) =
        .ok nextStates ∧
      ∀ next ∈ body.successors bb, ∃ joined,
        joinAll domain (statesFor nextStates next) = some joined ∧
          after.pState.lookupEdge bb next = some joined := by
  obtain ⟨state, hstate, hbefore⟩ := h.entry
  rw [stateBeforeBlock_eq_joinedBefore hrecorded, Except.ok.injEq] at hstate
  subst hstate
  exact transfer_of_equations hbefore h.statement h.terminator

theorem Ascending.good_joinedBefore (hascending : Ascending domainHeight pState)
    (bb : BasicBlock) : domainHeight.Good (joinedBefore domain body pState bb) := by
  have hgood : ∀ pred ∈ body.predecessors bb, ∀ state,
      pState.lookupEdge pred bb = some state → domainHeight.Good state :=
    fun pred hpred _ => hascending.good (Body.mem_predecessors_iff.mp hpred)
  exact (domainHeight.joinedBefore_le hgood hgood
    fun _ _ state hstate => ⟨state, hstate, domainHeight.refl state⟩).1

section

variable (h : Round domain body before after bb) (hascending : Ascending domainHeight before.pState)

include h hascending

theorem Round.good_edge {state : S} (htarget : target ∈ body.successors source)
    (hstate : after.pState.lookupEdge source target = some state) : domainHeight.Good state := by
  by_cases heq : source = bb
  · subst heq
    obtain ⟨nextStates, htransfer, hedges⟩ := h.exists_transfer hascending.edgesRecorded
    obtain ⟨joined, hjoined, hrecorded⟩ := hedges target htarget
    obtain rfl := Option.some_inj.mp (hrecorded.symm.trans hstate)
    exact domainHeight.good_joinAll
      (domainHeight.good_transfer (hascending.good_joinedBefore source) htransfer) hjoined
  · rw [PointwiseState.lookupEdge, h.after_ne source heq] at hstate
    exact hascending.good htarget hstate

/-- The state on an edge only ascends. -/
theorem Round.edge_le {state : S} (htarget : target ∈ body.successors source)
    (hstate : before.pState.lookupEdge source target = some state) :
    ∃ state', after.pState.lookupEdge source target = some state' ∧
      domainHeight.le state state' := by
  by_cases heq : source = bb
  · subst heq
    obtain ⟨states, hstates, -⟩ := Option.bind_eq_some_iff.mp hstate
    obtain ⟨old, oldStates, hold, holdTransfer, hle, holdEdges⟩ :=
      (hascending source ⟨states, hstates⟩).edges
    obtain ⟨joined, hjoined, hrecorded⟩ := holdEdges target htarget
    obtain rfl := Option.some_inj.mp (hrecorded.symm.trans hstate)
    obtain ⟨newStates, hnewTransfer, hnewEdges⟩ := h.exists_transfer hascending.edgesRecorded
    obtain ⟨joined', hjoined', hrecorded'⟩ := hnewEdges target htarget
    have hnew := hascending.good_joinedBefore source
    exact ⟨joined', hrecorded', domainHeight.joinAll_le
      (domainHeight.good_transfer hold holdTransfer)
      (domainHeight.good_transfer hnew hnewTransfer)
      (domainHeight.transfer_le hold hnew hle holdTransfer hnewTransfer) hjoined hjoined'⟩
  · refine ⟨state, ?_, domainHeight.refl state⟩
    rw [PointwiseState.lookupEdge, h.after_ne source heq]
    exact hstate

theorem Round.joinedBefore_le (block : BasicBlock) :
    domainHeight.le (joinedBefore domain body before.pState block)
      (joinedBefore domain body after.pState block) := by
  refine (domainHeight.joinedBefore_le ?_ ?_ ?_).2.2
  · intro pred hpred state hstate
    exact hascending.good (Body.mem_predecessors_iff.mp hpred) hstate
  · intro pred hpred state hstate
    exact h.good_edge hascending (Body.mem_predecessors_iff.mp hpred) hstate
  · intro pred hpred state hstate
    exact h.edge_le hascending (Body.mem_predecessors_iff.mp hpred) hstate

theorem Round.ascending : Ascending domainHeight after.pState := by
  intro block hprocessed
  by_cases heq : block = bb
  · subst heq
    obtain ⟨nextStates, htransfer, hedges⟩ := h.exists_transfer hascending.edgesRecorded
    exact ⟨h.lt, _, nextStates, hascending.good_joinedBefore block, htransfer,
      h.joinedBefore_le hascending block, hedges⟩
  · rw [h.after_ne block heq] at hprocessed
    obtain ⟨hlt, state, nextStates, hgood, htransfer, hle, hedges⟩ := hascending block hprocessed
    refine ⟨hlt, state, nextStates, hgood, htransfer,
      domainHeight.trans hle (h.joinedBefore_le hascending block), ?_⟩
    intro next hnext
    rw [PointwiseState.lookupEdge, h.after_ne block heq]
    exact hedges next hnext

end

theorem ascending_initialIteration :
    Ascending domainHeight (initialIteration (S := S) body).pState := by
  rintro bb ⟨states, hstates⟩
  rw [initialIteration, PointwiseState.new, PointwiseState.lookupAfterBlock,
    HashMap.get?_empty] at hstates
  cases hstates

end Ascending

section Termination

variable {domain : AbstractState S} {body : Body Ty}

/-- The edges of a body, without repetitions. -/
def edgeSet (body : Body Ty) : Finset (BasicBlock × BasicBlock) :=
  body.indices.toFinset.biUnion fun source =>
    (body.successors source).toFinset.image fun target => (source, target)

theorem mem_edgeSet_iff : (source, target) ∈ edgeSet body ↔ target ∈ body.successors source := by
  simp only [edgeSet, Finset.mem_biUnion, Finset.mem_image, List.mem_toFinset, Prod.mk.injEq]
  constructor
  · rintro ⟨source', -, target', htarget, rfl, rfl⟩
    exact htarget
  · intro htarget
    exact ⟨source, Body.mem_indices_iff.mpr (Body.lt_of_mem_successors htarget), target,
      htarget, rfl, rfl⟩

/-- How far an edge may still ascend. -/
def edgeWeight (domainHeight : FiniteHeight domain body) (pState : PointwiseState S)
    (edge : BasicBlock × BasicBlock) : Nat :=
  match pState.lookupEdge edge.1 edge.2 with
  | some state => domainHeight.height - domainHeight.rank state
  | none => domainHeight.height + 1

/-- The bound on the rounds that are left: a round takes one block from the work set, and
adds one for every edge that ascends. -/
def remaining (domainHeight : FiniteHeight domain body) (iteration : Iteration S) : Nat :=
  2 * ∑ edge ∈ edgeSet body, edgeWeight domainHeight iteration.pState edge + iteration.workSet.card

variable {domainHeight : FiniteHeight domain body} {before after : Iteration S}
  {bb : BasicBlock}

section

variable (h : Round domain body before after bb) (hascending : Ascending domainHeight before.pState)

include h hascending

theorem Round.edgeWeight_lt (htarget : target ∈ body.successors source)
    (hchanged : after.pState.lookupEdge source target ≠ before.pState.lookupEdge source target) :
    edgeWeight domainHeight after.pState (source, target) <
      edgeWeight domainHeight before.pState (source, target) := by
  have hsource : source = bb := by
    by_contra hne
    rw [PointwiseState.lookupEdge, h.after_ne source hne] at hchanged
    exact hchanged rfl
  subst hsource
  obtain ⟨_, _, _, _, hedges⟩ := h.terminator
  obtain ⟨new, -, hnew⟩ := hedges target htarget
  have hgoodNew := h.good_edge hascending htarget hnew
  have hrankNew := domainHeight.rank_le hgoodNew
  rw [edgeWeight, edgeWeight, hnew]
  cases hold : before.pState.lookupEdge source target with
  | none =>
    simp only
    omega
  | some old =>
    obtain ⟨new', hnew', hle⟩ := h.edge_le hascending htarget hold
    obtain rfl := Option.some_inj.mp (hnew'.symm.trans hnew)
    have hne : old ≠ new' := by
      rintro rfl
      exact hchanged (hnew.trans hold.symm)
    have hlt := domainHeight.rank_lt (hascending.good htarget hold) hgoodNew hle hne
    simp only
    omega

theorem Round.edgeWeight_le (htarget : target ∈ body.successors source) :
    edgeWeight domainHeight after.pState (source, target) ≤
      edgeWeight domainHeight before.pState (source, target) := by
  by_cases hsame : after.pState.lookupEdge source target = before.pState.lookupEdge source target
  · rw [edgeWeight, edgeWeight, hsame]
  · exact (h.edgeWeight_lt hascending htarget hsame).le

theorem Round.remaining_lt (hmem : bb ∈ before.workSet) :
    remaining domainHeight after < remaining domainHeight before := by
  let ascended := (edgeSet body).filter fun edge =>
    edgeWeight domainHeight after.pState edge < edgeWeight domainHeight before.pState edge
  have hwork : after.workSet ⊆ before.workSet.erase bb ∪ ascended.image Prod.snd := by
    intro block hblock
    rw [Finset.mem_union, Finset.mem_erase]
    rcases (h.mem_workSet block).mp hblock with ⟨hold, hne⟩ | ⟨htarget, hchanged⟩
    · exact .inl ⟨hne, hold⟩
    · refine .inr (Finset.mem_image.mpr ⟨(bb, block), ?_, rfl⟩)
      exact Finset.mem_filter.mpr ⟨mem_edgeSet_iff.mpr htarget,
        h.edgeWeight_lt hascending htarget hchanged⟩
  have hcard : after.workSet.card + 1 ≤ before.workSet.card + ascended.card := by
    have hunion := (Finset.card_le_card hwork).trans (Finset.card_union_le _ _)
    have himage := Finset.card_image_le (s := ascended) (f := Prod.snd)
    have herase := Finset.card_erase_add_one hmem
    omega
  have hweight : ∑ edge ∈ edgeSet body, edgeWeight domainHeight after.pState edge +
      ascended.card ≤ ∑ edge ∈ edgeSet body, edgeWeight domainHeight before.pState edge := by
    rw [Finset.card_filter, ← Finset.sum_add_distrib]
    refine Finset.sum_le_sum ?_
    rintro ⟨source, target⟩ hedge
    have hle := h.edgeWeight_le hascending (mem_edgeSet_iff.mp hedge)
    split <;> omega
  rw [remaining, remaining]
  omega

end

/-- A step of the statement loop keeps the state good, and it does not panic. -/
theorem applyStatement_spec {current : PointwiseState S × S} {idx : Nat}
    (hgood : domainHeight.Good current.2) (hlt : idx < (body.statements bb).length) :
    Stop.NoPanic (applyStatement domain bb current idx) ∧
      ∀ next, applyStatement domain bb current idx = .ok next → domainHeight.Good next.2 := by
  constructor
  · refine Stop.NoPanic.bind (domainHeight.statement_noPanic hlt hgood) fun state' _ => ?_
    exact Stop.NoPanic.pure _
  · intro next hnext
    simp only [applyStatement, bind_eq_ok_iff, pure_eq_ok_iff] at hnext
    obtain ⟨state', heffect, rfl⟩ := hnext
    exact domainHeight.good_statement hgood heffect

theorem foldlM_applyStatement_spec (bb : BasicBlock) (start : PointwiseState S × S)
    (hgood : domainHeight.Good start.2) :
    Stop.NoPanic ((List.range (body.statements bb).length).foldlM
        (applyStatement domain bb) start) ∧
      ∀ last, (List.range (body.statements bb).length).foldlM
        (applyStatement domain bb) start = .ok last → domainHeight.Good last.2 := by
  have hindex : ∀ front idx back, [] ++ List.range (body.statements bb).length =
      front ++ idx :: back → idx < (body.statements bb).length := by
    intro front idx back hsplit
    rw [← List.mem_range, ← List.nil_append (List.range _), hsplit]
    exact List.mem_append_right _ List.mem_cons_self
  constructor
  · refine Stop.NoPanic.foldlM (fun _ current => domainHeight.Good current.2) _ [] start hgood ?_
    intro front idx back current hsplit hcurrent
    exact applyStatement_spec hcurrent (hindex front idx back hsplit)
  · intro last hlast
    refine Stop.foldlM_inv (fun _ current => domainHeight.Good current.2) _ [] start last
      hgood ?_ hlast
    intro front idx back current next hsplit hcurrent hnext
    exact (applyStatement_spec hcurrent (hindex front idx back hsplit)).2 next hnext

theorem checkSuccessors_noPanic (newMap : HashMap BasicBlock S) :
    Stop.NoPanic (checkSuccessors body bb newMap) := by
  rw [checkSuccessors]
  split
  · intro stop hstop
    cases hstop
    exact ⟨_, rfl⟩
  · exact Stop.NoPanic.pure _

variable [DecidableEq S]

/-- A round ends with a result or with an error that the analysis reports. -/
theorem processBlock_noPanic (hascending : Ascending domainHeight before.pState)
    (hlt : bb < body.basicBlocks.length) :
    Stop.NoPanic (processBlock domain body before bb) := by
  simp only [processBlock, stateBeforeBlock_eq_joinedBefore hascending.edgesRecorded,
    widenState, domainHeight.needToWiden, Bool.false_eq_true, ↓reduceIte]
  refine Stop.NoPanic.bind (Stop.NoPanic.assert (decide_eq_true hlt)) fun _ _ => ?_
  refine Stop.NoPanic.bind (Stop.NoPanic.ok _) fun entry hentry => ?_
  obtain rfl := Except.ok.inj hentry
  refine Stop.NoPanic.bind (Stop.NoPanic.pure _) fun entry hentry => ?_
  obtain rfl := (pure_eq_ok_iff _ _).mp hentry
  have hloop := foldlM_applyStatement_spec bb
    (before.pState, joinedBefore domain body before.pState bb)
    (hascending.good_joinedBefore bb)
  refine Stop.NoPanic.bind hloop.1 fun last hlast => ?_
  refine Stop.NoPanic.bind (domainHeight.terminator_noPanic hlt (hloop.2 last hlast))
    fun nextStates _ => ?_
  exact Stop.NoPanic.bind (checkSuccessors_noPanic _) fun _ _ => Stop.NoPanic.pure _

/-- A run with enough fuel ends. -/
theorem iterate_noPanic {fuel : Nat} {iteration : Iteration S}
    (hascending : Ascending domainHeight iteration.pState)
    (hwork : ∀ bb ∈ iteration.workSet, bb < body.basicBlocks.length)
    (hfuel : remaining domainHeight iteration ≤ fuel) :
    Stop.NoPanic (iterate domain body fuel iteration) := by
  induction fuel generalizing iteration with
  | zero =>
    have hempty : ¬ iteration.workSet.Nonempty := by
      rw [remaining] at hfuel
      rw [← Finset.card_pos]
      omega
    rw [iterate, if_neg hempty]
    exact Stop.NoPanic.pure _
  | succ fuel ih =>
    rw [iterate]
    by_cases hnonempty : iteration.workSet.Nonempty
    · rw [dif_pos hnonempty]
      have hmem := iteration.workSet.min'_mem hnonempty
      refine Stop.NoPanic.bind (processBlock_noPanic hascending (hwork _ hmem)) fun next hnext => ?_
      have hround := processBlock_spec domainHeight.needToWiden hnext
      have hlt := hround.remaining_lt hascending hmem
      refine ih (hround.ascending hascending) ?_ (by omega)
      intro block hblock
      rcases (hround.mem_workSet block).mp hblock with ⟨hold, -⟩ | ⟨htarget, -⟩
      · exact hwork block hold
      · exact Body.target_lt_of_mem_successors htarget
    · rw [dif_neg hnonempty]
      exact Stop.NoPanic.pure _

/-- The analysis of a body converges over a monotone domain of finite height: it ends
after at most so many rounds, with a result or an error that it reports. -/
theorem FiniteHeight.runFwdAnalysis_noPanic (domainHeight : FiniteHeight domain body)
    {fuel : Nat} (hfuel : remaining domainHeight (initialIteration body) ≤ fuel) :
    Stop.NoPanic (runFwdAnalysis domain body fuel) := by
  refine iterate_noPanic ascending_initialIteration ?_ hfuel
  intro bb hbb
  exact Body.mem_indices_iff.mp (List.mem_toFinset.mp hbb)

end Termination

end Prusti.Analysis

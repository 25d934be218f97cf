/-
The interpretation of a body from one of its locations back to a block.  The blocks before
the location are computed again whenever one of their successors has been, and the
successors that have no state yet take the state of one that has.
-/
import Prusti.Mir.BackwardInterpreter
import Prusti.Mir.LoopBodies

namespace Prusti.Mir

open Prusti.Lib

universe u

variable {Ty : Type u} {State ε : Type}

section Run

variable (body : Body Ty) (interpreter : BackwardMirInterpreter Ty State ε)

/-- The states at the heads of the successors.  One that is missing is replaced by the
first one that is not. -/
def defaultedStates (kind : TerminatorKind Ty) (emptyState : State)
    (states : BasicBlock → Option State) : HashMap BasicBlock State :=
  let defaultState := (kind.successors.filterMap states).head?.getD emptyState
  HashMap.ofList (kind.successors.map fun bb => (bb, (states bb).getD defaultState))

/-- Go back over the statements of a block; behind the final one stands the final state. -/
def applyStatementsTo (curr finalBb : BasicBlock) (finalStmtIndex : Nat) (finalState : State)
    (entries : List (StatementKind Ty × Nat)) (state : State) : Except ε State :=
  entries.reverse.foldlM (fun state entry => do
    let state ← interpreter.applyStatement curr entry.2 entry.1 state
    pure (if curr = finalBb ∧ finalStmtIndex = entry.2 then finalState else state)) state

/-- Compute the state at the head of a block, and store it. -/
def interpretBlockTo (finalBb : BasicBlock) (finalStmtIndex : Nat)
    (finalState emptyState : State) (heads : HashMap BasicBlock State) (curr : BasicBlock) :
    Except (Stop ε) (HashMap BasicBlock State) :=
  match body.basicBlocks[curr]? with
  | none => .error .panic
  | some data => do
    let states := defaultedStates data.terminator emptyState heads.get?
    let state ← Stop.callback (interpreter.applyTerminator curr data.terminator states)
    let state :=
      if curr = finalBb ∧ finalStmtIndex = data.statements.length then finalState else state
    let state ← Stop.callback (applyStatementsTo interpreter curr finalBb finalStmtIndex
      finalState data.statements.zipIdx state)
    .ok (heads.insert curr state)

/-- The blocks that get pending after a block, from the one that is taken first. -/
def walkedBack (initialBb curr : BasicBlock) : List BasicBlock :=
  if curr = initialBb then [] else (body.predecessors curr).reverse

/-- Interpret a body from a location back to the initial block, and return the state at
the head of that block, if there is one. -/
def runBackwardInterpretationPointToPoint (initialBb finalBb : BasicBlock)
    (finalStmtIndex : Nat) (finalState emptyState : State) (fuel : Nat) :
    Except (Stop ε) (Option State) := do
  let heads ← drain (walkedBack body initialBb)
    (interpretBlockTo body interpreter finalBb finalStmtIndex finalState emptyState)
    fuel [finalBb] HashMap.empty
  .ok (heads.get? initialBb)

open Classical in
/-- The successors of a block that lead to the final block. -/
noncomputable def leading (finalBb bb : BasicBlock) : List BasicBlock :=
  if bb = finalBb then []
  else (body.successors bb).filter fun next => Reaches body.successors next finalBb

/-- The state at the head of a block by recursion over the successors that lead to the
final block.  The other ones take the state of the first of these. -/
def PointState (finalBb : BasicBlock) (finalStmtIndex : Nat) (finalState : State) :
    BasicBlock → State → Prop :=
  Folds (leading body finalBb) fun bb states state =>
    ∃ data, body.basicBlocks[bb]? = some data ∧
      if bb = finalBb then
        interpreter.applyStatements bb (data.statements.take finalStmtIndex) finalState = .ok state
      else ∃ defaultState, (data.terminator.successors.filterMap states).head? = some defaultState ∧
        interpreter.applyBlock bb data
          (defaultedStates data.terminator defaultState states) = .ok state

end Run

/-- The interpretation ends.  Unless the interpreter fails, it returns the state of the
recursion if there is no cycle on the way back, and nothing if there is one. -/
def InterpretsPointToPoint (body : Body Ty) (initialBb finalBb : BasicBlock)
    (finalStmtIndex : Nat) : Prop :=
  ∀ {State ε : Type} (interpreter : BackwardMirInterpreter Ty State ε)
    (finalState emptyState : State), ∃ fuel,
      Stop.NoPanic (runBackwardInterpretationPointToPoint body interpreter initialBb finalBb
        finalStmtIndex finalState emptyState fuel) ∧
      ∀ result, runBackwardInterpretationPointToPoint body interpreter initialBb finalBb
          finalStmtIndex finalState emptyState fuel = .ok result →
        (AcyclicFrom (walkedBack body initialBb) finalBb → ∀ state, result = some state ↔
          PointState body interpreter finalBb finalStmtIndex finalState initialBb state) ∧
        (¬ AcyclicFrom (walkedBack body initialBb) finalBb → result = none)

section Blocks

variable {body : Body Ty} {interpreter : BackwardMirInterpreter Ty State ε}
  {finalBb curr bb : BasicBlock} {finalStmtIndex : Nat}
  {finalState emptyState state result : State} {heads heads' : HashMap BasicBlock State}

theorem applyStatementsTo_append (front back : List (StatementKind Ty × Nat)) (state : State) :
    applyStatementsTo interpreter curr finalBb finalStmtIndex finalState (front ++ back) state =
      applyStatementsTo interpreter curr finalBb finalStmtIndex finalState back state >>=
        applyStatementsTo interpreter curr finalBb finalStmtIndex finalState front := by
  rw [applyStatementsTo, List.reverse_append, List.foldlM_append]
  rfl

/-- Away from the final location the statements are gone back over as usual. -/
theorem applyStatementsTo_eq {entries : List (StatementKind Ty × Nat)}
    (h : ∀ entry ∈ entries, ¬ (curr = finalBb ∧ finalStmtIndex = entry.2)) (state : State) :
    applyStatementsTo interpreter curr finalBb finalStmtIndex finalState entries state =
      entries.reverse.foldlM
        (fun state entry => interpreter.applyStatement curr entry.2 entry.1 state) state := by
  induction entries using List.reverseRecOn generalizing state with
  | nil => rfl
  | append_singleton entries entry ih =>
    rw [List.forall_mem_append, List.forall_mem_singleton] at h
    have hentry : applyStatementsTo interpreter curr finalBb finalStmtIndex finalState
        [entry] state = [entry].reverse.foldlM
          (fun state entry => interpreter.applyStatement curr entry.2 entry.1 state) state := by
      rw [applyStatementsTo]
      simp only [List.reverse_singleton, List.foldlM_cons, List.foldlM_nil, if_neg h.2, bind_pure]
    rw [applyStatementsTo_append, List.reverse_append, List.foldlM_append, hentry]
    exact bind_congr fun state => ih h.1 state

/-- What is done behind the final statement does not matter. -/
theorem applyStatementsTo_final {statements : List (StatementKind Ty)}
    (hidx : finalStmtIndex < statements.length)
    (h : applyStatementsTo interpreter finalBb finalBb finalStmtIndex finalState
      statements.zipIdx state = .ok result) :
    interpreter.applyStatements finalBb (statements.take finalStmtIndex) finalState =
      .ok result := by
  have hsplit : statements.zipIdx =
      (statements.take finalStmtIndex).zipIdx ++ ((statements[finalStmtIndex], finalStmtIndex) ::
        (statements.drop (finalStmtIndex + 1)).zipIdx (finalStmtIndex + 1)) := by
    conv_lhs => rw [← List.take_append_drop finalStmtIndex statements,
      List.drop_eq_getElem_cons hidx, List.zipIdx_append, List.zipIdx_cons,
      List.length_take_of_le hidx.le, Nat.zero_add]
  rw [hsplit, applyStatementsTo_append] at h
  obtain ⟨middle, hmiddle, hfront⟩ := exists_of_bind_eq_ok h
  rw [← List.singleton_append, applyStatementsTo_append] at hmiddle
  obtain ⟨behind, -, hlast⟩ := exists_of_bind_eq_ok hmiddle
  obtain ⟨applied, happlied, hnil⟩ := exists_of_bind_eq_ok hlast
  obtain ⟨_, -, happlied⟩ := exists_of_bind_eq_ok happlied
  rw [if_pos ⟨rfl, rfl⟩] at happlied
  cases happlied
  cases hnil
  rw [applyStatementsTo_eq] at hfront
  · exact hfront
  · rintro entry hentry ⟨-, rfl⟩
    have := List.snd_lt_of_mem_zipIdx hentry
    rw [List.length_take_of_le hidx.le] at this
    omega

/-- Away from the final block, a block is gone back over as usual. -/
theorem interpretBlockTo_of_ne (hne : curr ≠ finalBb)
    (h : interpretBlockTo body interpreter finalBb finalStmtIndex finalState emptyState heads curr =
      .ok heads') :
    ∃ data state, body.basicBlocks[curr]? = some data ∧ interpreter.applyBlock curr data
        (defaultedStates data.terminator emptyState heads.get?) = .ok state ∧
      heads' = heads.insert curr state := by
  rw [interpretBlockTo] at h
  cases hdata : body.basicBlocks[curr]? with
  | none =>
    rw [hdata] at h
    cases h
  | some data =>
    rw [hdata] at h
    obtain ⟨joined, hjoined, h⟩ := exists_of_bind_eq_ok h
    obtain ⟨state, hstate, h⟩ := exists_of_bind_eq_ok h
    rw [Stop.callback_eq_ok_iff] at hjoined hstate
    cases h
    refine ⟨data, state, rfl, ?_, rfl⟩
    rw [if_neg (fun hcurr => hne hcurr.1), applyStatementsTo_eq fun _ _ hcurr => hne hcurr.1]
      at hstate
    rw [BackwardMirInterpreter.applyBlock, hjoined]
    exact hstate

/-- At the final block, only what stands before the final location matters. -/
theorem interpretBlockTo_final (hidx : finalStmtIndex ≤ (body.statements finalBb).length)
    (h : interpretBlockTo body interpreter finalBb finalStmtIndex finalState emptyState heads
      finalBb = .ok heads') :
    ∃ data state, body.basicBlocks[finalBb]? = some data ∧
      interpreter.applyStatements finalBb (data.statements.take finalStmtIndex) finalState =
        .ok state ∧
      heads' = heads.insert finalBb state := by
  rw [interpretBlockTo] at h
  rw [Body.statements] at hidx
  cases hdata : body.basicBlocks[finalBb]? with
  | none =>
    rw [hdata] at h
    cases h
  | some data =>
    rw [hdata] at h hidx
    change finalStmtIndex ≤ data.statements.length at hidx
    obtain ⟨joined, -, h⟩ := exists_of_bind_eq_ok h
    obtain ⟨state, hstate, h⟩ := exists_of_bind_eq_ok h
    rw [Stop.callback_eq_ok_iff] at hstate
    cases h
    refine ⟨data, state, rfl, ?_, rfl⟩
    rcases hidx.lt_or_eq with hlt | rfl
    · exact applyStatementsTo_final hlt hstate
    · rw [if_pos ⟨rfl, rfl⟩, applyStatementsTo_eq] at hstate
      · rw [List.take_length]
        exact hstate
      · rintro entry hentry ⟨-, heq⟩
        have := List.snd_lt_of_mem_zipIdx hentry
        omega

theorem exists_insert_of_interpretBlockTo
    (h : interpretBlockTo body interpreter finalBb finalStmtIndex finalState emptyState heads curr =
      .ok heads') : ∃ state, heads' = heads.insert curr state := by
  rw [interpretBlockTo] at h
  cases hdata : body.basicBlocks[curr]? with
  | none =>
    rw [hdata] at h
    cases h
  | some data =>
    rw [hdata] at h
    obtain ⟨_, -, h⟩ := exists_of_bind_eq_ok h
    obtain ⟨state, -, h⟩ := exists_of_bind_eq_ok h
    cases h
    exact ⟨state, rfl⟩

theorem noPanic_interpretBlockTo (hlt : curr < body.basicBlocks.length) :
    Stop.NoPanic (interpretBlockTo body interpreter finalBb finalStmtIndex finalState emptyState
      heads curr) := by
  rw [interpretBlockTo, List.getElem?_eq_getElem hlt]
  exact .bind (.callback _) fun _ _ => .bind (.callback _) fun _ _ => .ok _

theorem stores_interpretBlockTo :
    Stores (interpretBlockTo body interpreter finalBb finalStmtIndex finalState emptyState) :=
  fun _ _ _ => exists_insert_of_interpretBlockTo

end Blocks

section Walks

open Relation

variable {body : Body Ty} {initialBb finalBb curr bb pred next : BasicBlock}

theorem edge_walkedBack_iff :
    Edge (walkedBack body initialBb) curr pred ↔
      curr ≠ initialBb ∧ curr ∈ body.successors pred := by
  rw [Edge, walkedBack]
  by_cases h : curr = initialBb
  · rw [if_pos h]
    simp [h]
  · rw [if_neg h, List.mem_reverse, Body.mem_predecessors_iff]
    exact (and_iff_right h).symm

theorem mem_leading_iff :
    next ∈ leading body finalBb bb ↔
      bb ≠ finalBb ∧ next ∈ body.successors bb ∧ Reaches body.successors next finalBb := by
  classical
  rw [leading]
  by_cases h : bb = finalBb
  · simp [h]
  · rw [if_neg h, List.mem_filter, decide_eq_true_iff]
    exact (and_iff_right h).symm

theorem reaches_of_walked (h : Reaches (walkedBack body initialBb) finalBb bb) :
    Reaches body.successors bb finalBb := by
  induction h with
  | refl => exact .refl
  | tail _ hstep ih => exact .head (edge_walkedBack_iff.mp hstep).2 ih

theorem reaches_leading (h : Reaches body.successors bb finalBb) :
    Reaches (leading body finalBb) bb finalBb := by
  induction h using ReflTransGen.head_induction_on with
  | refl => exact .refl
  | @head bb next hstep hrest ih =>
    by_cases hbb : bb = finalBb
    · rw [hbb]
      exact .refl
    · exact .head (mem_leading_iff.mpr ⟨hbb, hstep, hrest⟩) ih

/-- What leads to the final block is walked back to, unless the initial block is in the
way. -/
theorem walked_or_reaches_initial (h : Reaches (leading body finalBb) bb finalBb) :
    Reaches (walkedBack body initialBb) finalBb bb ∨
      Reaches (leading body finalBb) bb initialBb := by
  induction h using ReflTransGen.head_induction_on with
  | refl => exact .inl .refl
  | @head bb next hstep _ ih =>
    rcases ih with hwalked | hreach
    · by_cases hnext : next = initialBb
      · rw [hnext] at hstep
        exact .inr (.single hstep)
      · exact .inl (.tail hwalked (edge_walkedBack_iff.mpr ⟨hnext, (mem_leading_iff.mp hstep).2.1⟩))
    · exact .inr (.head hstep hreach)

/-- The initial block is walked back to if it leads to the final block. -/
theorem walked_initial_iff :
    Reaches (walkedBack body initialBb) finalBb initialBb ↔
      Reaches body.successors initialBb finalBb := by
  refine ⟨reaches_of_walked, fun h => ?_⟩
  have hpath : ∀ bb, Reaches body.successors bb finalBb →
      Reaches (walkedBack body initialBb) finalBb bb ∨
        Reaches (walkedBack body initialBb) finalBb initialBb := by
    intro bb h
    induction h using ReflTransGen.head_induction_on with
    | refl => exact .inl .refl
    | @head bb next hstep _ ih =>
      rcases ih with hwalked | hinitial
      · by_cases hnext : next = initialBb
        · exact .inr (hnext ▸ hwalked)
        · exact .inl (.tail hwalked (edge_walkedBack_iff.mpr ⟨hnext, hstep⟩))
      · exact .inr hinitial
  exact (hpath initialBb h).elim id id

end Walks

section Exact

open Relation

variable {body : Body Ty} {interpreter : BackwardMirInterpreter Ty State ε}
  {initialBb finalBb bb : BasicBlock} {finalStmtIndex fuel : Nat} {trace : List BasicBlock}
  {finalState emptyState state : State} {heads : HashMap BasicBlock State}

theorem PointState.unique {state state' : State}
    (h : PointState body interpreter finalBb finalStmtIndex finalState bb state)
    (h' : PointState body interpreter finalBb finalStmtIndex finalState bb state') :
    state = state' := by
  refine Folds.unique ?_ h h'
  rintro bb states s t ⟨data, hdata, hs⟩ ⟨data', hdata', ht⟩
  obtain rfl : data = data' := Option.some.inj (hdata.symm.trans hdata')
  split at hs
  · rw [if_pos (by assumption)] at ht
    exact Except.ok.inj (hs.symm.trans ht)
  · rw [if_neg (by assumption)] at ht
    obtain ⟨default, hdefault, hs⟩ := hs
    obtain ⟨default', hdefault', ht⟩ := ht
    obtain rfl : default = default' := Option.some.inj (hdefault.symm.trans hdefault')
    exact Except.ok.inj (hs.symm.trans ht)

theorem PointState.reaches
    (h : PointState body interpreter finalBb finalStmtIndex finalState bb state) :
    Reaches body.successors bb finalBb := by
  obtain ⟨states, hdomain, -, data, hdata, hstate⟩ := h
  split at hstate
  · next heq =>
      rw [heq]
      exact .refl
  · obtain ⟨default, hdefault, -⟩ := hstate
    obtain ⟨next, -, hnext⟩ := List.mem_filterMap.mp (List.mem_of_mem_head? hdefault)
    have hleading := mem_leading_iff.mp ((hdomain next).mp ⟨default, hnext⟩)
    exact .head hleading.2.1 hleading.2.2

theorem defaultedStates_congr {kind : TerminatorKind Ty}
    {states states' : BasicBlock → Option State}
    (h : ∀ next ∈ kind.successors, states next = states' next)
    (hstate : (kind.successors.filterMap states).head? = some state) :
    defaultedStates kind state states = defaultedStates kind emptyState states' := by
  rw [defaultedStates, defaultedStates, ← List.filterMap_congr h, hstate]
  refine congrArg HashMap.ofList (List.map_congr_left fun next hnext => ?_)
  rw [h next hnext]
  rfl

/-- On the ways from the initial block to the final one, only the initial block is not
walked on from. -/
theorem mem_trace_of_leading
    (hunroll : unroll (walkedBack body initialBb) fuel finalBb = some trace)
    (hacyclic : AcyclicFrom (leading body finalBb) initialBb)
    (hreach : Reaches (leading body finalBb) initialBb bb)
    (hfinal : Reaches body.successors bb finalBb) : bb ∈ trace := by
  rw [mem_unroll_iff hunroll]
  rcases reflTransGen_iff_eq_or_transGen.mp hreach with rfl | hpath
  · exact walked_initial_iff.mpr hfinal
  · refine (walked_or_reaches_initial (reaches_leading hfinal)).resolve_right fun hback => ?_
    exact hacyclic initialBb .refl (hpath.trans_left hback)

theorem insert_right_cancel {before : HashMap BasicBlock State} {state state' : State}
    (h : before.insert bb state = before.insert bb state') : state = state' := by
  have hget := congrArg (HashMap.get? · bb) h
  simp only [HashMap.get?_insert, beq_self_eq_true, if_true] at hget
  exact Option.some.inj hget

/-- The run, once it is known what is walked back to. -/
theorem runBackwardInterpretationPointToPoint_eq
    (hunroll : unroll (walkedBack body initialBb) fuel finalBb = some trace) (more : Nat) :
    runBackwardInterpretationPointToPoint body interpreter initialBb finalBb finalStmtIndex
        finalState emptyState (trace.length + more) =
      trace.foldlM (interpretBlockTo body interpreter finalBb finalStmtIndex finalState emptyState)
        HashMap.empty >>= fun heads => .ok (heads.get? initialBb) := by
  rw [runBackwardInterpretationPointToPoint, drain_cons hunroll, bind_assoc]
  refine bind_congr fun heads => ?_
  cases more <;> rfl

theorem exists_unroll_walkedBack (hacyclic : AcyclicFrom (walkedBack body initialBb) finalBb) :
    ∃ fuel trace, unroll (walkedBack body initialBb) fuel finalBb = some trace :=
  exists_unroll (Finset.range body.basicBlocks.length) (fun _ _ hpred => Finset.mem_range.mpr
    (Body.lt_of_mem_successors (edge_walkedBack_iff.mp hpred).2)) hacyclic

section Stored

variable (hidx : finalStmtIndex ≤ (body.statements finalBb).length)
  (hunroll : unroll (walkedBack body initialBb) fuel finalBb = some trace)
  (hheads : trace.foldlM (interpretBlockTo body interpreter finalBb finalStmtIndex finalState
    emptyState) HashMap.empty = .ok heads)

include hidx hunroll hheads

/-- The state that a block gets last is that of the recursion, if the states of the blocks
next to it are. -/
theorem exists_pointState_of_next (hbb : bb ∈ trace)
    (hinitial : initialBb ∉ leading body finalBb bb)
    (hnext : ∀ next ∈ leading body finalBb bb, ∃ state, heads.get? next = some state ∧
      PointState body interpreter finalBb finalStmtIndex finalState next state) :
    ∃ state, heads.get? bb = some state ∧
      PointState body interpreter finalBb finalStmtIndex finalState bb state := by
  classical
  obtain ⟨before, state, hprocess, hget, hbefore⟩ :=
    stores_interpretBlockTo.last_visit hunroll hheads hbb
  refine ⟨state, hget, ?_⟩
  by_cases hne : bb = finalBb
  · subst hne
    obtain ⟨data, state', hdata, happly, heq⟩ := interpretBlockTo_final hidx hprocess
    obtain rfl := insert_right_cancel heq
    refine .mk (fun _ => none) (fun next => ?_) (fun _ _ h => by cases h) ⟨data, hdata, ?_⟩
    · rw [mem_leading_iff]
      simp
    · rw [if_pos rfl]
      exact happly
  · obtain ⟨data, state', hdata, happly, heq⟩ := interpretBlockTo_of_ne hne hprocess
    obtain rfl := insert_right_cancel heq
    have hsucc : body.successors bb = data.terminator.successors :=
      Body.successors_eq (by rw [Body.terminator?, hdata]; rfl)
    let states : BasicBlock → Option State := fun next =>
      if next ∈ leading body finalBb bb then heads.get? next else none
    -- at that time the successors had these states, and no others had one
    have hstates : ∀ next ∈ data.terminator.successors, states next = before.get? next := by
      intro next hmem
      rw [← hsucc] at hmem
      by_cases hlead : next ∈ leading body finalBb bb
      · refine (if_pos hlead).trans (hbefore next (.inl ?_)).symm
        refine edge_walkedBack_iff.mpr ⟨?_, hmem⟩
        rintro rfl
        exact hinitial hlead
      · have hnot : next ∉ trace := fun htrace => hlead (mem_leading_iff.mpr
          ⟨hne, hmem, reaches_of_walked ((mem_unroll_iff hunroll).mp htrace)⟩)
        rw [hbefore next (.inr hnot), stores_interpretBlockTo.get?_eq hheads hnot]
        exact if_neg hlead
    obtain ⟨first, hfirst⟩ : ∃ first,
        (data.terminator.successors.filterMap states).head? = some first := by
      have hfinal := reaches_of_walked ((mem_unroll_iff hunroll).mp hbb)
      rcases ReflTransGen.cases_head hfinal with heq | ⟨next, hstep, hrest⟩
      · exact absurd heq hne
      · have hlead := mem_leading_iff.mpr ⟨hne, hstep, hrest⟩
        obtain ⟨found, hfound, -⟩ := hnext next hlead
        have hmem : found ∈ data.terminator.successors.filterMap states :=
          List.mem_filterMap.mpr ⟨next, hsucc ▸ hstep, (if_pos hlead).trans hfound⟩
        exact Option.isSome_iff_exists.mp (List.isSome_head?.mpr (List.ne_nil_of_mem hmem))
    refine .mk states (fun next => ⟨?_, fun hlead => ?_⟩) (fun next found hsome => ?_)
      ⟨data, hdata, ?_⟩
    · rintro ⟨_, hsome⟩
      exact (Option.ite_none_right_eq_some.mp hsome).1
    · obtain ⟨found, hfound, -⟩ := hnext next hlead
      exact ⟨found, (if_pos hlead).trans hfound⟩
    · obtain ⟨hlead, hsome⟩ := Option.ite_none_right_eq_some.mp hsome
      obtain ⟨found', hfound', hpoint⟩ := hnext next hlead
      rw [hsome] at hfound'
      cases hfound'
      exact hpoint
    · rw [if_neg hne]
      refine ⟨first, hfirst, ?_⟩
      rw [defaultedStates_congr hstates hfirst]
      exact happly

/-- The states that are stored at the end are those of the recursion. -/
theorem exists_pointState (hacyclic : AcyclicFrom (leading body finalBb) initialBb)
    (hreach : Reaches (leading body finalBb) initialBb bb)
    (hfinal : Reaches body.successors bb finalBb) :
    ∃ state, heads.get? bb = some state ∧
      PointState body interpreter finalBb finalStmtIndex finalState bb state := by
  obtain ⟨fuel', trace', hleading⟩ := exists_unroll (Finset.range body.basicBlocks.length)
    (fun _ _ hnext => Finset.mem_range.mpr
      (Body.target_lt_of_mem_successors (mem_leading_iff.mp hnext).2.1))
    fun bb' h => hacyclic bb' (hreach.trans h)
  induction fuel' generalizing bb trace' with
  | zero => cases hleading
  | succ fuel' ih =>
    obtain ⟨parts, hparts, -⟩ := unroll_succ_eq_some_iff.mp hleading
    refine exists_pointState_of_next hidx hunroll hheads
      (mem_trace_of_leading hunroll hacyclic hreach hfinal)
      (fun hback => hacyclic initialBb .refl (.tail' hreach hback)) fun next hnext => ?_
    obtain ⟨part, -, hpart⟩ := exists_part hparts hnext
    exact ih (hreach.tail hnext) (mem_leading_iff.mp hnext).2.2 part hpart

/-- What is returned is the state of the recursion. -/
theorem get?_initial_iff (hacyclic : AcyclicFrom (leading body finalBb) initialBb) :
    heads.get? initialBb = some state ↔
      PointState body interpreter finalBb finalStmtIndex finalState initialBb state := by
  have hexists := exists_pointState hidx hunroll hheads hacyclic .refl
  constructor
  · intro hget
    have hmem := (stores_interpretBlockTo.contains_iff hheads).mp
      ((HashMap.contains_iff heads initialBb).mpr ⟨state, hget⟩)
    obtain ⟨state', hget', hstate'⟩ := hexists
      (reaches_of_walked ((mem_unroll_iff hunroll).mp (hmem.resolve_left nofun)))
    rw [hget] at hget'
    cases hget'
    exact hstate'
  · intro hstate
    obtain ⟨state', hget', hstate'⟩ := hexists hstate.reaches
    rw [hget', hstate'.unique hstate]

end Stored

/-- What it takes for the interpretation to be right. -/
theorem acyclic_of_interpretsPointToPoint
    (h : InterpretsPointToPoint body initialBb finalBb finalStmtIndex) :
    AcyclicFrom (walkedBack body initialBb) finalBb ∧
      AcyclicFrom (leading body finalBb) initialBb := by
  let trivial : BackwardMirInterpreter Ty Unit Empty := ⟨fun _ _ _ => .ok (), fun _ _ _ _ => .ok ()⟩
  obtain ⟨more, hends, hresult⟩ := h trivial () ()
  obtain ⟨result, hrun⟩ : ∃ result, runBackwardInterpretationPointToPoint body trivial initialBb
      finalBb finalStmtIndex () () more = .ok result := by
    cases hrun : runBackwardInterpretationPointToPoint body trivial initialBb finalBb
        finalStmtIndex () () more with
    | ok result => exact ⟨result, rfl⟩
    | error stop => exact (hends stop hrun).choose.elim
  obtain ⟨heads, hdrain, hheads⟩ := exists_of_bind_eq_ok hrun
  cases hheads
  obtain ⟨trace, hunroll⟩ := exists_unroll_of_drain hdrain finalBb List.mem_cons_self
  have hacyclic := acyclicFrom_of_unroll hunroll
  refine ⟨hacyclic, ?_⟩
  by_cases hreach : Reaches body.successors initialBb finalBb
  · have hmore := drain_mono (Nat.le_add_left more trace.length) hdrain
    rw [drain_cons hunroll, bind_eq_ok_iff] at hmore
    obtain ⟨heads', hheads', hrest⟩ := hmore
    obtain rfl : heads' = heads := by
      cases more <;> exact Except.ok.inj hrest
    obtain ⟨state, hstate⟩ := (HashMap.contains_iff heads' initialBb).mp
      ((stores_interpretBlockTo.contains_iff hheads').mpr
        (.inr ((mem_unroll_iff hunroll).mpr (walked_initial_iff.mpr hreach))))
    exact (((hresult _ hrun).1 hacyclic state).mp hstate).acyclicFrom
  · refine acyclicFrom_of_next fun next hnext => ?_
    obtain ⟨-, hstep, hrest⟩ := mem_leading_iff.mp hnext
    exact absurd (.head hstep hrest) hreach

/-- The interpretation is right exactly if there is no cycle on the way back from the final
block, and none on the ways from the initial block to it. -/
theorem interpretsPointToPoint_iff (body : Body Ty) (initialBb finalBb : BasicBlock)
    (finalStmtIndex : Nat) (hfinal : finalBb < body.basicBlocks.length)
    (hidx : finalStmtIndex ≤ (body.statements finalBb).length) :
    InterpretsPointToPoint body initialBb finalBb finalStmtIndex ↔
      AcyclicFrom (walkedBack body initialBb) finalBb ∧
        AcyclicFrom (leading body finalBb) initialBb := by
  refine ⟨acyclic_of_interpretsPointToPoint, ?_⟩
  rintro ⟨hwalked, hleading⟩ State ε interpreter finalState emptyState
  obtain ⟨fuel, trace, hunroll⟩ := exists_unroll_walkedBack hwalked
  have hlt : ∀ bb ∈ trace, bb < body.basicBlocks.length := by
    intro bb hbb
    rcases ReflTransGen.cases_head (reaches_of_walked ((mem_unroll_iff hunroll).mp hbb)) with
      rfl | ⟨next, hstep, -⟩
    · exact hfinal
    · exact Body.lt_of_mem_successors hstep
  refine ⟨trace.length + 0, ?_, fun result hresult => ⟨fun _ state => ?_, absurd hwalked⟩⟩
  · rw [runBackwardInterpretationPointToPoint_eq hunroll]
    refine .bind (.foldlM (fun _ _ => True) trace [] _ trivial ?_) fun heads _ => .ok _
    intro front bb back heads hsplit _
    refine ⟨noPanic_interpretBlockTo (hlt bb ?_), fun _ _ => trivial⟩
    exact (show trace = _ from hsplit) ▸ List.mem_append_right _ List.mem_cons_self
  · rw [runBackwardInterpretationPointToPoint_eq hunroll, bind_eq_ok_iff] at hresult
    obtain ⟨heads, hheads, hget⟩ := hresult
    cases hget
    exact get?_initial_iff hidx hunroll hheads hleading

end Exact

namespace Witness

/-- The second block jumps to itself or to the last one. -/
def waiting : Body Unit where
  basicBlocks := [⟨[], .goto 1⟩, ⟨[], .switchInt .constant [1, 2]⟩, ⟨[], .return⟩]
  localDecls := [()]
  argCount := 0
  startBlock_lt := selfLoop.startBlock_lt
  argCount_lt := Nat.one_pos
  target_lt := selfLoop.target_lt

theorem waiting_not_interpretsPointToPoint : ¬ InterpretsPointToPoint waiting 0 2 0 := by
  intro h
  have hback : Edge (walkedBack waiting 0) 2 1 := show 1 ∈ walkedBack waiting 0 2 by decide
  have hloop : Edge (walkedBack waiting 0) 1 1 := show 1 ∈ walkedBack waiting 0 1 by decide
  exact (acyclic_of_interpretsPointToPoint h).1 1 (.single hback) (.single hloop)

theorem diamond_interpretsPointToPoint_iff :
    InterpretsPointToPoint diamond 0 3 0 ↔
      AcyclicFrom (walkedBack diamond 0) 3 ∧ AcyclicFrom (leading diamond 3) 0 :=
  interpretsPointToPoint_iff diamond 0 3 0 (by decide) (by decide)

end Witness

end Prusti.Mir

/-
The interpretation of a body from its end to its beginning: the state at the head of a
block is computed once the states at the heads of its successors are known.
-/
import Prusti.Lib.BackwardFold
import Prusti.Mir.Body

namespace Prusti.Mir

open Prusti.Lib

universe u

variable {Ty : Type u} {State ε : Type}

/-- An interpreter: it goes back over a terminator, which combines the states of the
successors, and over a statement. -/
structure BackwardMirInterpreter (Ty : Type u) (State ε : Type) where
  applyTerminator : BasicBlock → TerminatorKind Ty → HashMap BasicBlock State → Except ε State
  applyStatement : BasicBlock → Nat → StatementKind Ty → State → Except ε State

namespace BackwardMirInterpreter

variable (interpreter : BackwardMirInterpreter Ty State ε)

/-- Go back over statements, from the last one. -/
def applyStatements (bb : BasicBlock) (statements : List (StatementKind Ty)) (state : State) :
    Except ε State :=
  statements.zipIdx.reverse.foldlM
    (fun state entry => interpreter.applyStatement bb entry.2 entry.1 state) state

/-- Go back over a block. -/
def applyBlock (bb : BasicBlock) (data : BasicBlockData Ty) (states : HashMap BasicBlock State) :
    Except ε State := do
  let state ← interpreter.applyTerminator bb data.terminator states
  interpreter.applyStatements bb data.statements state

structure NeverFails : Prop where
  terminator : ∀ bb kind states, ∃ state, interpreter.applyTerminator bb kind states = .ok state
  statement : ∀ bb idx kind state,
    ∃ state', interpreter.applyStatement bb idx kind state = .ok state'

end BackwardMirInterpreter

section Run

variable (body : Body Ty) (interpreter : BackwardMirInterpreter Ty State ε)

/-- The states at the heads of the successors. -/
def successorStates (kind : TerminatorKind Ty) (heads : HashMap BasicBlock State) :
    Except (Stop ε) (HashMap BasicBlock State) :=
  HashMap.ofList <$> kind.successors.mapM fun bb =>
    Stop.orPanic ((heads.get? bb).map fun state => (bb, state))

/-- Compute the state at the head of a block, and store it. -/
def interpretBlock (curr : BasicBlock) (heads : HashMap BasicBlock State) :
    Except (Stop ε) (HashMap BasicBlock State) :=
  match body.basicBlocks[curr]? with
  | none => .error .panic
  | some data => do
    let states ← successorStates data.terminator heads
    let state ← Stop.callback (interpreter.applyBlock curr data states)
    .ok (heads.insert curr state)

/-- The predecessors of a block all of whose successors have a state. -/
def readyPredecessors (curr : BasicBlock) (heads : HashMap BasicBlock State) : List BasicBlock :=
  (body.predecessors curr).filter fun pred => (body.successors pred).all heads.contains

/-- Interpret the pending blocks. -/
def interpretPending (order : TakeOrder BasicBlock) :
    Nat → Nat → List BasicBlock → HashMap BasicBlock State →
      Except (Stop ε) (HashMap BasicBlock State)
  | 0, _, _, _ => .error .outOfFuel
  | fuel + 1, round, pending, heads =>
    match order.take round pending with
    | none => .ok heads
    | some (curr, rest) => do
      let heads ← interpretBlock body interpreter curr heads
      interpretPending order fuel (round + 1) (rest ++ readyPredecessors body curr heads) heads

/-- The blocks that the interpretation starts from. -/
def finalBlocks : List BasicBlock := body.indices.filter fun bb => (body.successors bb).isEmpty

/-- Interpret a body from its end and return the state at the head of the start block, if
there is one. -/
def runBackwardInterpretation (order : TakeOrder BasicBlock) (fuel : Nat) :
    Except (Stop ε) (Option State) := do
  let heads ← interpretPending body interpreter order fuel 0 (finalBlocks body) HashMap.empty
  .ok (heads.get? startBlock)

/-- The state at the head of a block by recursion over the successors. -/
def HeadState : BasicBlock → State → Prop :=
  Folds body.successors fun bb states state =>
    ∃ data, body.basicBlocks[bb]? = some data ∧ interpreter.applyBlock bb data (HashMap.ofList
        (data.terminator.successors.filterMap fun next =>
          (states next).map fun state => (next, state))) = .ok state

end Run

section Exact

variable {body : Body Ty} {interpreter : BackwardMirInterpreter Ty State ε}
  {order : TakeOrder BasicBlock} {bb curr pred : BasicBlock} {pending rest : List BasicBlock}
  {heads : HashMap BasicBlock State} {state : State}

theorem BackwardMirInterpreter.NeverFails.exists_applyBlock (h : interpreter.NeverFails)
    (bb : BasicBlock) (data : BasicBlockData Ty) (states : HashMap BasicBlock State) :
    ∃ state, interpreter.applyBlock bb data states = .ok state := by
  have hstatements : ∀ (entries : List (StatementKind Ty × Nat)) (state : State),
      ∃ state', entries.foldlM
        (fun state entry => interpreter.applyStatement bb entry.2 entry.1 state) state =
          (.ok state' : Except ε State) := by
    intro entries
    induction entries with
    | nil => exact fun state => ⟨state, rfl⟩
    | cons entry entries ih =>
      intro state
      obtain ⟨middle, hmiddle⟩ := h.statement bb entry.2 entry.1 state
      obtain ⟨state', hstate'⟩ := ih middle
      refine ⟨state', ?_⟩
      rw [List.foldlM_cons, hmiddle]
      exact hstate'
  obtain ⟨middle, hmiddle⟩ := h.terminator bb data.terminator states
  obtain ⟨state, hstate⟩ := hstatements data.statements.zipIdx.reverse middle
  refine ⟨state, ?_⟩
  rw [BackwardMirInterpreter.applyBlock, hmiddle]
  exact hstate

theorem HeadState.unique {state state' : State} (h : HeadState body interpreter bb state)
    (h' : HeadState body interpreter bb state') : state = state' := by
  refine Folds.unique ?_ h h'
  rintro bb states s t ⟨data, hdata, hs⟩ ⟨data', hdata', ht⟩
  obtain rfl : data = data' := Option.some.inj (hdata.symm.trans hdata')
  exact Except.ok.inj (hs.symm.trans ht)

theorem mem_readyPredecessors_iff :
    pred ∈ readyPredecessors body curr heads ↔
      curr ∈ body.successors pred ∧ ∀ next ∈ body.successors pred, heads.contains next = true := by
  rw [readyPredecessors, List.mem_filter, Body.mem_predecessors_iff, List.all_eq_true]

theorem mem_finalBlocks_iff :
    bb ∈ finalBlocks body ↔ bb < body.basicBlocks.length ∧ body.successors bb = [] := by
  rw [finalBlocks, List.mem_filter, Body.mem_indices_iff, List.isEmpty_iff]

theorem successorStates_eq {kind : TerminatorKind Ty}
    (h : ∀ next ∈ kind.successors, heads.contains next = true) :
    successorStates kind heads = (.ok (HashMap.ofList (kind.successors.filterMap fun next =>
      (heads.get? next).map fun state => (next, state))) : Except (Stop ε) _) := by
  rw [successorStates]
  have hmap : ∀ nexts : List BasicBlock, (∀ next ∈ nexts, heads.contains next = true) →
      nexts.mapM (fun bb => Stop.orPanic ((heads.get? bb).map fun state => (bb, state))) =
        (.ok (nexts.filterMap fun next => (heads.get? next).map fun state => (next, state)) :
          Except (Stop ε) _) := by
    intro nexts
    induction nexts with
    | nil => exact fun _ => rfl
    | cons next nexts ih =>
      intro hnexts
      rw [List.forall_mem_cons] at hnexts
      obtain ⟨state, hstate⟩ := (HashMap.contains_iff heads next).mp hnexts.1
      rw [List.mapM_cons, ih hnexts.2, hstate, List.filterMap_cons_some (by rw [hstate]; rfl)]
      rfl
  rw [hmap _ h]
  rfl

/-- What holds between two rounds: the pending blocks can be interpreted, the stored states
are those of the recursion, and a block that can be interpreted has a state or is pending. -/
structure Interpreting (body : Body Ty) (interpreter : BackwardMirInterpreter Ty State ε)
    (pending : List BasicBlock) (heads : HashMap BasicBlock State) : Prop where
  lt : ∀ bb ∈ pending, bb < body.basicBlocks.length
  ready : ∀ bb ∈ pending, ∀ next ∈ body.successors bb, heads.contains next = true
  head : ∀ bb state, heads.get? bb = some state → HeadState body interpreter bb state
  settled : ∀ bb, bb < body.basicBlocks.length →
    (∀ next ∈ body.successors bb, heads.contains next = true) →
      heads.contains bb = true ∨ bb ∈ pending

namespace Interpreting

theorem initial : Interpreting body interpreter (finalBlocks body) HashMap.empty where
  lt bb hbb := (mem_finalBlocks_iff.mp hbb).1
  ready bb hbb next hnext := by
    rw [(mem_finalBlocks_iff.mp hbb).2] at hnext
    cases hnext
  head bb state h := by cases h
  settled bb hlt hready := by
    refine .inr (mem_finalBlocks_iff.mpr ⟨hlt, List.eq_nil_iff_forall_not_mem.mpr ?_⟩)
    intro next hnext
    cases hready next hnext

section

variable (h : Interpreting body interpreter pending heads)

include h

/-- A block whose successors have states gets the state of the recursion. -/
theorem headState (hready : ∀ next ∈ body.successors curr, heads.contains next = true)
    {data : BasicBlockData Ty} (hdata : body.basicBlocks[curr]? = some data)
    (happly : interpreter.applyBlock curr data (HashMap.ofList
      (data.terminator.successors.filterMap fun next =>
        (heads.get? next).map fun state => (next, state))) = .ok state) :
    HeadState body interpreter curr state := by
  have hsucc : body.successors curr = data.terminator.successors :=
    Body.successors_eq (by rw [Body.terminator?, hdata]; rfl)
  refine .mk (fun next => if next ∈ body.successors curr then heads.get? next else none)
    (fun next => ⟨?_, fun hnext => ?_⟩) (fun next state hstate => ?_) ⟨data, hdata, ?_⟩
  · rintro ⟨_, hnext⟩
    exact (Option.ite_none_right_eq_some.mp hnext).1
  · rw [if_pos hnext]
    exact (HashMap.contains_iff heads next).mp (hready next hnext)
  · exact h.head next state (Option.ite_none_right_eq_some.mp hstate).2
  · rw [← happly]
    congr 2
    refine List.filterMap_congr fun next hnext => ?_
    dsimp only
    rw [if_pos (hsucc ▸ hnext)]

/-- One round. -/
theorem step (hperm : pending.Perm (curr :: rest))
    (hstate : HeadState body interpreter curr state) :
    Interpreting body interpreter (rest ++ readyPredecessors body curr (heads.insert curr state))
      (heads.insert curr state) where
  lt bb hbb := by
    rcases List.mem_append.mp hbb with hbb | hbb
    · exact h.lt bb (hperm.mem_iff.mpr (List.mem_cons_of_mem _ hbb))
    · exact Body.lt_of_mem_successors (mem_readyPredecessors_iff.mp hbb).1
  ready bb hbb next hnext := by
    rcases List.mem_append.mp hbb with hbb | hbb
    · exact (HashMap.contains_insert_iff heads curr next state).mpr
        (.inl (h.ready bb (hperm.mem_iff.mpr (List.mem_cons_of_mem _ hbb)) next hnext))
    · exact (mem_readyPredecessors_iff.mp hbb).2 next hnext
  head bb s hs := by
    rw [HashMap.get?_insert] at hs
    split at hs
    · next heq =>
        cases hs
        rwa [← beq_iff_eq.mp heq]
    · exact h.head bb s hs
  settled bb hlt hready := by
    by_cases hcurr : curr ∈ body.successors bb
    · exact .inr (List.mem_append_right _ (mem_readyPredecessors_iff.mpr ⟨hcurr, hready⟩))
    · have hold : ∀ next ∈ body.successors bb, heads.contains next = true := by
        intro next hnext
        refine ((HashMap.contains_insert_iff heads curr next state).mp
          (hready next hnext)).resolve_right ?_
        rintro rfl
        exact hcurr hnext
      rcases h.settled bb hlt hold with hbb | hbb
      · exact .inl ((HashMap.contains_insert_iff heads curr bb state).mpr (.inl hbb))
      · rcases List.mem_cons.mp (hperm.mem_iff.mp hbb) with rfl | hbb
        · exact .inl ((HashMap.contains_insert_iff heads bb bb state).mpr (.inr rfl))
        · exact .inr (List.mem_append_left _ hbb)

theorem exists_interpretBlock (hnever : interpreter.NeverFails) (hcurr : curr ∈ pending) :
    ∃ state, interpretBlock body interpreter curr heads = .ok (heads.insert curr state) ∧
      HeadState body interpreter curr state := by
  have hdata := List.getElem?_eq_getElem (h.lt curr hcurr)
  have hsucc : body.successors curr = _ := Body.successors_eq (by rw [Body.terminator?, hdata]; rfl)
  have hready := h.ready curr hcurr
  obtain ⟨state, hstate⟩ := hnever.exists_applyBlock curr _ _
  refine ⟨state, ?_, h.headState hready hdata hstate⟩
  rw [interpretBlock, hdata]
  change successorStates _ heads >>= _ = _
  rw [successorStates_eq (hsucc ▸ hready)]
  change Stop.callback _ >>= _ = _
  rw [hstate]
  rfl

/-- A ready predecessor is not on a cycle, and reaches none. -/
theorem acyclicFrom_of_ready (hready : ∀ next ∈ body.successors bb, heads.contains next = true) :
    AcyclicFrom body.successors bb := by
  refine acyclicFrom_of_next fun next hnext => ?_
  obtain ⟨state, hstate⟩ := (HashMap.contains_iff heads next).mp (hready next hnext)
  exact (h.head next state hstate).acyclicFrom

end

/-- At the end, the blocks that reach no cycle have a state. -/
theorem contains_iff (h : Interpreting body interpreter [] heads)
    (hlt : bb < body.basicBlocks.length) :
    heads.contains bb = true ↔ AcyclicFrom body.successors bb := by
  constructor
  · intro hbb
    obtain ⟨state, hstate⟩ := (HashMap.contains_iff heads bb).mp hbb
    exact (h.head bb state hstate).acyclicFrom
  · intro hacyclic
    obtain ⟨fuel, trace, hunroll⟩ := exists_unroll (Finset.range body.basicBlocks.length)
      (fun _ _ hnext => Finset.mem_range.mpr (Body.target_lt_of_mem_successors hnext)) hacyclic
    clear hacyclic
    induction fuel generalizing bb trace with
    | zero => cases hunroll
    | succ fuel ih =>
      obtain ⟨parts, hparts, -⟩ := unroll_succ_eq_some_iff.mp hunroll
      refine (h.settled bb hlt fun next hnext => ?_).resolve_right List.not_mem_nil
      obtain ⟨part, -, hpart⟩ := exists_part hparts hnext
      exact ih (Body.target_lt_of_mem_successors hnext) part hpart

/-- At the end, the stored states are those of the recursion. -/
theorem get?_eq_some_iff (h : Interpreting body interpreter [] heads)
    (hlt : bb < body.basicBlocks.length) :
    heads.get? bb = some state ↔ HeadState body interpreter bb state := by
  refine ⟨h.head bb state, fun hstate => ?_⟩
  obtain ⟨state', hstate'⟩ :=
    (HashMap.contains_iff heads bb).mp ((h.contains_iff hlt).mpr hstate.acyclicFrom)
  rw [hstate', (h.head bb state' hstate').unique hstate]

end Interpreting

open Classical in
/-- The predecessors that reach no cycle. -/
private noncomputable def acyclicPredecessors (body : Body Ty) (bb : BasicBlock) :
    List BasicBlock :=
  (body.predecessors bb).filter fun pred => AcyclicFrom body.successors pred

theorem edge_acyclicPredecessors_iff :
    Edge (acyclicPredecessors body) bb pred ↔
      bb ∈ body.successors pred ∧ AcyclicFrom body.successors pred := by
  classical
  rw [Edge, acyclicPredecessors, List.mem_filter, Body.mem_predecessors_iff, decide_eq_true_iff]

theorem wellFounded_acyclicPredecessors (body : Body Ty) :
    WellFounded fun pred bb => pred ∈ acyclicPredecessors body bb := by
  refine wellFounded_of_unroll fun bb => exists_unroll
    (Finset.range body.basicBlocks.length) (fun bb pred hpred => ?_) fun bb _ hcycle => ?_
  · exact Finset.mem_range.mpr (Body.lt_of_mem_successors (edge_acyclicPredecessors_iff.mp hpred).1)
  · obtain ⟨pred, -, hlast⟩ := Relation.TransGen.tail'_iff.mp hcycle
    refine (edge_acyclicPredecessors_iff.mp hlast).2 bb .refl ?_
    refine Relation.transGen_swap.mp (Relation.TransGen.mono (fun _ _ hedge => ?_) _ _ hcycle)
    exact (edge_acyclicPredecessors_iff.mp hedge).1

/-- The pending blocks run out, in whatever order they are taken. -/
theorem Interpreting.run (h : Interpreting body interpreter pending heads)
    (hnever : interpreter.NeverFails) (order : TakeOrder BasicBlock) (round : Nat) :
    ∃ fuel heads', (∀ more, fuel ≤ more →
        interpretPending body interpreter order more round pending heads = .ok heads') ∧
      Interpreting body interpreter [] heads' := by
  -- the multiset of the pending blocks gets smaller in every round
  induction hpending : (pending : Multiset BasicBlock) using
    (wellFounded_acyclicPredecessors body).cutExpand.induction generalizing pending heads round with
  | _ waiting ih =>
    subst hpending
    cases htake : order.take round pending with
    | none =>
      obtain rfl := order.eq_nil htake
      refine ⟨1, heads, fun more hle => ?_, h⟩
      obtain ⟨more, rfl⟩ := Nat.exists_eq_add_of_le' hle
      rw [interpretPending, htake]
    | some taken =>
      obtain ⟨curr, rest⟩ := taken
      have hperm := order.perm htake
      obtain ⟨state, hblock, hstate⟩ :=
        h.exists_interpretBlock hnever (hperm.mem_iff.mpr List.mem_cons_self)
      have hnext := h.step hperm hstate
      have hready : ∀ pred ∈ readyPredecessors body curr (heads.insert curr state),
          pred ∈ acyclicPredecessors body curr := fun pred hpred => by
        have hpred := mem_readyPredecessors_iff.mp hpred
        exact edge_acyclicPredecessors_iff.mpr ⟨hpred.1, hnext.acyclicFrom_of_ready hpred.2⟩
      obtain ⟨fuel, heads', hrun, hend⟩ := ih _ (order.cutExpand htake hready) hnext (round + 1) rfl
      refine ⟨fuel + 1, heads', fun more hle => ?_, hend⟩
      obtain ⟨more, rfl⟩ := Nat.exists_eq_add_of_le' (Nat.le_of_add_left_le hle)
      rw [interpretPending, htake]
      change interpretBlock body interpreter curr heads >>= _ = _
      rw [hblock]
      exact hrun more (Nat.le_of_succ_le_succ hle)

/-- The interpretation returns the state of the recursion at the start block, and returns
one exactly if no cycle can be reached. -/
theorem runBackwardInterpretation_exact (body : Body Ty)
    (interpreter : BackwardMirInterpreter Ty State ε) (hnever : interpreter.NeverFails)
    (order : TakeOrder BasicBlock) :
    ∃ fuel result, (∀ more, fuel ≤ more →
        runBackwardInterpretation body interpreter order more = .ok result) ∧
      (result.isSome ↔ AcyclicFrom body.successors startBlock) ∧
      ∀ state, result = some state ↔ HeadState body interpreter startBlock state := by
  obtain ⟨fuel, heads, hrun, hend⟩ := Interpreting.initial.run hnever order 0
  refine ⟨fuel, heads.get? startBlock, fun more hle => ?_, ?_, fun state => ?_⟩
  · rw [runBackwardInterpretation, hrun more hle]
    rfl
  · rw [← HashMap.contains_eq_isSome]
    exact hend.contains_iff body.startBlock_lt
  · exact hend.get?_eq_some_iff body.startBlock_lt

end Exact

namespace Witness

/-- Two ways that meet again; one of the edges stands twice. -/
def diamond : Body Unit where
  basicBlocks :=
    [⟨[], .switchInt .constant [1, 2, 1]⟩, ⟨[.nop], .goto 3⟩, ⟨[], .goto 3⟩, ⟨[.nop], .return⟩]
  localDecls := [()]
  argCount := 0
  startBlock_lt := by decide
  argCount_lt := Nat.one_pos
  target_lt := by decide

/-- Count the statements of all runs. -/
def countStatements : BackwardMirInterpreter Unit Nat Empty where
  applyTerminator _ _ states := .ok (states.entries.map Prod.snd).sum
  applyStatement _ _ _ state := .ok (state + 1)

theorem countStatements_neverFails : countStatements.NeverFails :=
  ⟨fun _ _ _ => ⟨_, rfl⟩, fun _ _ _ _ => ⟨_, rfl⟩⟩

theorem runBackwardInterpretation_diamond :
    ∃ fuel result, (∀ more, fuel ≤ more →
        runBackwardInterpretation diamond countStatements .last more = .ok result) ∧
      (result.isSome ↔ AcyclicFrom diamond.successors startBlock) ∧
      ∀ state, result = some state ↔ HeadState diamond countStatements startBlock state :=
  runBackwardInterpretation_exact diamond countStatements countStatements_neverFails .last

end Witness

end Prusti.Mir
